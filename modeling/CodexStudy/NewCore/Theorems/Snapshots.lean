import CodexStudy.NewCore.Lemmas.Fsx

/-!
# What a snapshot directory remembers

The snapshots of all paths lie in one directory, under names in which the separators of a path are written as `__`.
-/

namespace CodexStudy.NewCore

open CodexStudy.Lib FileTree List Option Function

/-! ## Runs of snapshots -/

structure SnapshotCall where
  root : Tree
  path : Text

def SnapshotCall.taken (call : SnapshotCall) : Option Content := call.root.file? (pathNames call.path)

def snapshotAll (calls : List SnapshotCall) (dir : SnapshotDir) : Except CodexNewError SnapshotDir :=
  calls.foldlM (fun dir call => dir.snapshotFileText call.root call.path) dir

def lastTaken (calls : List SnapshotCall) (p : Text → Bool) : Option (Option Content) :=
  ((calls.filter fun call => p call.path).getLast?).map SnapshotCall.taken

/-- Where no directory stands at the path and no file above it, a restore succeeds; and every restore that
succeeds leaves `content` at the path, or no file. -/
structure RestoresAs (dir : SnapshotDir) (path : Text) (content : Option Content) : Prop where
  succeeds : ∀ pt (destination : Tree), destination.node? (pathNames path) ≠ some .dir →
    destination.passable (pathNames path).dropLast = true →
    ∃ t, dir.restoreSnapshotText pt destination path = .ok t
  content : ∀ pt (destination t : Tree), dir.restoreSnapshotText pt destination path = .ok t →
    t.file? (pathNames path) = content

/-! ## One snapshot -/

variable {dir dir' : SnapshotDir} {path : Text} {calls : List SnapshotCall}

/-- What the directory has under an encoded path. -/
def SnapshotDir.savedAt (dir : SnapshotDir) (key : Text) : Option Content :=
  if dir.missing key then none else dir.blob key

theorem checkedJoinText_eq_ok {names : RelPath} (h : checkedJoinText path = .ok names) : names = pathNames path := by
  unfold checkedJoinText at h
  split at h
  · cases h
  · exact (checkedJoin_eq_ok.mp h).2

theorem snapshotFileText_savedAt {root : Tree} (h : dir.snapshotFileText root path = .ok dir') (key : Text) :
    dir'.savedAt key = if encodePathText path = key then root.file? (pathNames path) else dir.savedAt key := by
  obtain ⟨names, hjoin, h⟩ := except_bind_eq_ok.mp h
  cases checkedJoinText_eq_ok hjoin
  cases h
  by_cases hkey : encodePathText path = key
  · subst hkey
    cases root.file? (pathNames path) <;> simp [SnapshotDir.savedAt]
  · simp [SnapshotDir.savedAt, hkey, Ne.symm hkey]

theorem snapshotFileText_accepted {root : Tree} (h : dir.snapshotFileText root path = .ok dir') :
    checkedJoinText path = .ok (pathNames path) := by
  obtain ⟨names, hjoin, -⟩ := except_bind_eq_ok.mp h
  rw [hjoin, checkedJoinText_eq_ok hjoin]

/-! ## All snapshots -/

theorem lastTaken_cons (call : SnapshotCall) (calls : List SnapshotCall) (p : Text → Bool) :
    lastTaken (call :: calls) p =
      (lastTaken calls p).or (if p call.path then some call.taken else none) := by
  unfold lastTaken
  rw [filter_cons]
  cases hp : p call.path with
  | true =>
      rw [if_pos rfl, if_pos rfl, getLast?_cons]
      cases (calls.filter fun call => p call.path).getLast? <;> rfl
  | false =>
      rw [if_neg Bool.false_ne_true, if_neg Bool.false_ne_true, or_none]

theorem lastTaken_isSome {p : Text → Bool} : (lastTaken calls p).isSome ↔ ∃ call ∈ calls, p call.path = true := by
  unfold lastTaken
  rw [isSome_map, getLast?_isSome]
  constructor
  · intro hne
    obtain ⟨call, hcall⟩ := exists_mem_of_ne_nil _ hne
    exact ⟨call, mem_filter.mp hcall⟩
  · rintro ⟨call, hcall, hp⟩
    exact ne_nil_of_mem (mem_filter.mpr ⟨hcall, hp⟩)

theorem snapshotAll_savedAt (h : snapshotAll calls dir = .ok dir') (key : Text) :
    dir'.savedAt key = (lastTaken calls fun path => encodePathText path = key).getD (dir.savedAt key) := by
  induction calls generalizing dir with
  | nil =>
      cases h
      rfl
  | cons call calls ih =>
      rw [snapshotAll, foldlM_cons] at h
      obtain ⟨dir₁, hcall, hrest⟩ := except_bind_eq_ok.mp h
      rw [ih hrest, snapshotFileText_savedAt hcall key, lastTaken_cons]
      cases lastTaken calls fun path => encodePathText path = key with
      | some content => rfl
      | none =>
          by_cases hkey : encodePathText call.path = key
          · simp [hkey, SnapshotCall.taken]
          · simp [hkey]

theorem snapshotAll_accepted (h : snapshotAll calls dir = .ok dir') (hpath : path ∈ calls.map SnapshotCall.path) :
    checkedJoinText path = .ok (pathNames path) := by
  induction calls generalizing dir with
  | nil => cases hpath
  | cons call calls ih =>
      rw [snapshotAll, foldlM_cons] at h
      obtain ⟨dir₁, hcall, hrest⟩ := except_bind_eq_ok.mp h
      rcases mem_cons.mp hpath with rfl | hpath
      · exact snapshotFileText_accepted hcall
      · exact ih hrest hpath

/-! ## Restoring -/

theorem restoreSnapshotText_eq (hjoin : checkedJoinText path = .ok (pathNames path)) (pt : IoPoint) (destination : Tree) :
    dir.restoreSnapshotText pt destination path =
      match dir.savedAt (encodePathText path) with
      | some c => orIo pt (destination.writeAll (pathNames path) c)
      | none => removeIfPresent pt destination (pathNames path) := by
  unfold SnapshotDir.restoreSnapshotText SnapshotDir.savedAt
  rw [hjoin]
  change (if _ then _ else _) = _
  split
  · rfl
  · rfl

variable (dir) in
theorem restoresAs_savedAt (hjoin : checkedJoinText path = .ok (pathNames path)) :
    RestoresAs dir path (dir.savedAt (encodePathText path)) where
  succeeds := by
    intro pt destination hdir hpassable
    rw [restoreSnapshotText_eq hjoin]
    cases dir.savedAt (encodePathText path) with
    | none => exact removeIfPresent_ok pt hdir
    | some c =>
        have hne : pathNames path ≠ [] := by
          intro hnil
          rw [hnil] at hdir
          simp at hdir
        obtain ⟨t, ht⟩ := isSome_iff_exists.mp
          (writeAll_isSome (c := c) hne hdir (passable_iff.mp hpassable))
        exact ⟨t, orIo_eq_ok.mpr ht⟩
  content := by
    intro pt destination t h
    rw [restoreSnapshotText_eq hjoin] at h
    cases hsaved : dir.savedAt (encodePathText path) with
    | none =>
        rw [hsaved] at h
        exact removeIfPresent_file? h
    | some c =>
        rw [hsaved] at h
        rw [writeAll_file? (orIo_eq_ok.mp h), if_pos rfl]

theorem restoresAs_root (hjoin : checkedJoinText path = .ok (pathNames path)) (hroot : pathNames path = [])
    (content : Option Content) : RestoresAs dir path content where
  succeeds := by
    intro pt destination hdir
    rw [hroot] at hdir
    simp at hdir
  content := by
    intro pt destination t h
    rw [restoreSnapshotText_eq hjoin, hroot] at h
    cases hsav : dir.savedAt (encodePathText path) with
    | none =>
        rw [hsav] at h
        have hpres : Root.present destination [] = true := by simp [present]
        rw [removeIfPresent, if_pos hpres] at h
        have hfile := removeFile_isSome.mp (isSome_iff_exists.mpr ⟨t, orIo_eq_ok.mp h⟩)
        rw [file?_eq_none_of_dir (node?_root destination)] at hfile
        cases hfile
    | some c =>
        rw [hsav] at h
        have hfile := writeAll_file? (orIo_eq_ok.mp h) []
        rw [file?_eq_none_of_dir (node?_root t), if_pos rfl] at hfile
        cases hfile

theorem restoresAs_unique (hne : pathNames path ≠ []) {content content' : Option Content}
    (h : RestoresAs dir path content) (h' : RestoresAs dir path content') : content = content' := by
  have hnode : (empty : Tree).node? (pathNames path) ≠ some .dir := by
    simp [node?, nodeAt, hne, empty]
  have hpassable : (empty : Tree).passable (pathNames path).dropLast = true := by
    rw [passable_iff]
    intro q _
    by_cases hq : q = []
    · simp [file?, hq]
    · simp [file?, node?, nodeAt, hq, empty]
  obtain ⟨t, ht⟩ := h.succeeds (.restore []) .empty hnode hpassable
  rw [← h.content _ _ t ht, ← h'.content _ _ t ht]

/-! ## The directory as a map -/

/-- After any run of snapshots a path is restored as it was at its own last snapshot exactly when the last snapshot of
all paths written alike took the same. -/
theorem snapshot_restores_iff (h : snapshotAll calls dir = .ok dir') {content : Option Content}
    (hlast : lastTaken calls (fun p => p = path) = some content) : RestoresAs dir' path content ↔
      pathNames path = [] ∨ lastTaken calls (fun p => encodePathText p = encodePathText path) = some content := by
  obtain ⟨call, hcall, hpath⟩ := lastTaken_isSome.mp (isSome_iff_exists.mpr ⟨content, hlast⟩)
  have hpath : call.path = path := of_decide_eq_true hpath
  have hjoin := snapshotAll_accepted h (mem_map.mpr ⟨call, hcall, hpath⟩)
  have hsav := snapshotAll_savedAt h (encodePathText path)
  have halike : (lastTaken calls fun p => encodePathText p = encodePathText path).isSome :=
    lastTaken_isSome.mpr ⟨call, hcall, by rw [hpath]; exact decide_eq_true rfl⟩
  obtain ⟨content', hcont'⟩ := isSome_iff_exists.mp halike
  rw [hcont', getD_some] at hsav
  have hrestores := restoresAs_savedAt dir' hjoin
  rw [hsav] at hrestores
  rw [hcont', some_inj]
  constructor
  · intro hcont
    by_cases hroot : pathNames path = []
    · exact .inl hroot
    · exact .inr (restoresAs_unique hroot hrestores hcont)
  · rintro (hroot | rfl)
    · exact restoresAs_root hjoin hroot content
    · exact hrestores

def sampleRoot (path : RelPath) (contents : String) : Tree :=
  (ofFiles [(path, .text contents.toList)]).getD .empty

def sampleCalls : List SnapshotCall :=
  [⟨sampleRoot ["a"] "1", "a"⟩, ⟨sampleRoot ["a"] "2", "b"⟩, ⟨sampleRoot ["a"] "2", "a"⟩]

def sampleSnapshots : SnapshotDir where
  blob := update (update (update (fun _ => none) "a" (some (.text "1")))
    "b" none) "a" (some (.text "2"))
  missing := update (update (update (fun _ => false) "a" false) "b" true)
    "a" false

theorem snapshot_restores_of_sampleCalls : RestoresAs sampleSnapshots "a" (some (.text "2")) := by
  have h : snapshotAll sampleCalls .empty = .ok sampleSnapshots := rfl
  exact (snapshot_restores_iff h (by decide +kernel)).mpr (.inr (by decide +kernel))

/-- The file `a/b` and the missing file `a__b` share a snapshot, which then holds that there was no file. -/
theorem snapshots_written_alike_collide : encodePathText "a/b" = encodePathText "a__b" ∧
      ∃ dir, snapshotAll [⟨sampleRoot ["a", "b"] "1", "a/b"⟩, ⟨sampleRoot ["a", "b"] "1", "a__b"⟩] .empty =
          .ok dir ∧ ¬ RestoresAs dir "a/b" (some (.text "1")) := by
  refine ⟨by decide +kernel, _, rfl, fun hrestores => ?_⟩
  have hcont := hrestores.content (.restore []) .empty .empty rfl
  revert hcont
  decide +kernel

end CodexStudy.NewCore
