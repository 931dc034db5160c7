import CodexStudy.NewCore.Lemmas.Fsx

/-!
# Comparing the two roots and refreshing a task
-/

namespace CodexStudy.NewCore

open CodexStudy.Lib Eff IoPlan List

/-! ## The entries of a comparison -/

variable {path : RelPath} {c : ChangedFile} {previous : List ChangedFile}

variable {b a : Option Text} {p : RelPath} {m : TaskManifest} {d' : Disk}

theorem compareEntry_eq_some (h : compareEntry b a path = some c) :
    b ≠ a ∧ c.path = path ∧ c.beforeHash = b ∧ c.afterAiHash = a ∧ c.accepted = false := by
  unfold compareEntry at h
  split at h
  · cases h
  · rename_i hne
    refine ⟨hne, ?_⟩
    rcases b with _ | b <;> rcases a with _ | a <;> cases h <;> exact ⟨rfl, rfl, rfl, rfl⟩

theorem compareEntry_isSome (path : RelPath) : (compareEntry b a path).isSome = true ↔ b ≠ a := by
  unfold compareEntry
  split
  · rename_i h; simp [h]
  · rename_i h
    rcases b with _ | b <;> rcases a with _ | a <;> simp_all

def indexed (root : AbsPath) (t : Tree) (p : RelPath) : Option Content :=
  if inGit root p then none else t.file? p

theorem hashIndex_get (sha256 : Content → Text) (root : AbsPath) (t : Tree) (p : RelPath) :
    ((hashIndex sha256 root t).get p).join = hashText sha256 (indexed root t p) := by
  simp only [hashIndex, indexed]
  split
  · rfl
  · cases t.file? p <;> rfl

theorem mem_hashIndex_keys {sha256 : Content → Text} {root : AbsPath} {t : Tree} :
    p ∈ (hashIndex sha256 root t).keys ↔ (indexed root t p).isSome = true := by
  cases hg : inGit root p <;> simp [hashIndex, indexed, hg]

theorem previousChange_eq_none : previousChange previous path = none ↔ ∀ c ∈ previous, c.path ≠ path := by
  simp [previousChange, find?_eq_none]

theorem previousChange_mem (h : previousChange previous path = some c) : c ∈ previous ∧ c.path = path := by
  constructor
  · exact mem_reverse.mp (mem_of_find?_eq_some h)
  · simpa using find?_some h

theorem mem_compareRoots {original workspace : HashIndex} : c ∈ compareRoots original workspace previous ↔
      (c.path ∈ original.keys ∨ c.path ∈ workspace.keys) ∧
        compareEntry (beforeHashOf original previous c.path) (workspace.get c.path).join c.path = some c := by
  simp only [compareRoots, mem_filterMap, mem_sorted, Finset.mem_union]
  constructor
  · rintro ⟨p, hp, hc⟩
    obtain rfl := (compareEntry_eq_some hc).2.1
    exact ⟨hp, hc⟩
  · rintro ⟨hp, hc⟩
    exact ⟨c.path, hp, hc⟩

theorem nodup_compareRoots (original workspace : HashIndex) (previous : List ChangedFile) :
    ((compareRoots original workspace previous).map ChangedFile.path).Nodup := by
  have hsub : ∀ l : List RelPath, ((l.filterMap fun path =>
      compareEntry (beforeHashOf original previous path) (workspace.get path).join path).map
        ChangedFile.path).Sublist l := by
    intro l
    induction l with
    | nil => exact .slnil
    | cons p l ih =>
        rw [filterMap_cons]
        split
        · exact ih.cons p
        · rename_i c hc
          rw [map_cons, (compareEntry_eq_some hc).2.1]
          exact ih.cons_cons p
  exact (hsub _).nodup (nodup_sorted _)

/-! ## The refreshed manifest -/

section

variable {host : Host} {now : Nat} {t : Tree} {ws : Workspace} {manifest : TaskManifest}

def recordedHash (host : Host) (t : Tree) (manifest : TaskManifest) (path : RelPath) : Option Text :=
  beforeHashOf (hashIndex host.sha256 manifest.originalRoot t) manifest.changedFiles path

def workspaceHash (host : Host) (ws : Workspace) (manifest : TaskManifest) (path : RelPath) : Option Text :=
  hashText host.sha256 (indexed manifest.workspaceRoot ws.tree path)

theorem recordedHash_cases (host : Host) (t : Tree) (manifest : TaskManifest) (path : RelPath) :
    (∃ c ∈ manifest.changedFiles, c.path = path ∧ recordedHash host t manifest path = c.beforeHash) ∨
      (∀ c ∈ manifest.changedFiles, c.path ≠ path) ∧
        recordedHash host t manifest path = hashText host.sha256 (indexed manifest.originalRoot t path) := by
  unfold recordedHash beforeHashOf
  rcases hp : previousChange manifest.changedFiles path with _ | c
  · exact .inr ⟨previousChange_eq_none.mp hp, hashIndex_get _ _ _ _⟩
  · exact .inl ⟨c, (previousChange_mem hp).1, (previousChange_mem hp).2, rfl⟩

theorem mem_refreshed : c ∈ (refreshedManifest host now t ws manifest).changedFiles ↔
      ((indexed manifest.originalRoot t c.path).isSome = true ∨
        (indexed manifest.workspaceRoot ws.tree c.path).isSome = true) ∧
      compareEntry (recordedHash host t manifest c.path) (workspaceHash host ws manifest c.path) c.path = some c := by
  simp only [refreshedManifest, mem_compareRoots, mem_hashIndex_keys, hashIndex_get, recordedHash, workspaceHash]

theorem nodup_refreshed : ((refreshedManifest host now t ws manifest).changedFiles.map ChangedFile.path).Nodup :=
  nodup_compareRoots _ _ _

theorem refreshed_entry (h : c ∈ (refreshedManifest host now t ws manifest).changedFiles) :
    c.beforeHash ≠ c.afterAiHash ∧ c.beforeHash = recordedHash host t manifest c.path ∧
      c.afterAiHash = workspaceHash host ws manifest c.path ∧ c.accepted = false := by
  obtain ⟨hne, -, hb, ha, hacc⟩ := compareEntry_eq_some (mem_refreshed.mp h).2
  exact ⟨by rw [hb, ha]; exact hne, hb, ha, hacc⟩

theorem refreshed_lists (hp : (indexed manifest.originalRoot t p).isSome = true ∨
      (indexed manifest.workspaceRoot ws.tree p).isSome = true) :
    p ∈ (refreshedManifest host now t ws manifest).changedFiles.map ChangedFile.path ↔
      recordedHash host t manifest p ≠ workspaceHash host ws manifest p := by
  rw [mem_map]
  constructor
  · rintro ⟨c, hc, rfl⟩
    exact (compareEntry_eq_some (mem_refreshed.mp hc).2).1
  · intro hne
    obtain ⟨c, hc⟩ := Option.isSome_iff_exists.mp ((compareEntry_isSome p).mpr hne)
    obtain ⟨-, rfl, -⟩ := compareEntry_eq_some hc
    exact ⟨c, mem_refreshed.mpr ⟨hp, hc⟩, rfl⟩

end

/-! ## The state after a refresh -/

/-- The two roots, the snapshots and the locks are as they were. -/
structure FilesKept (d d' : Disk) : Prop where
  original : d'.original = d.original
  workspace : d'.workspace = d.workspace
  before : d'.before = d.before
  afterMerge : d'.afterMerge = d.afterMerge
  locks : d'.locks = d.locks

instance : Std.Refl FilesKept := ⟨fun _ => ⟨rfl, rfl, rfl, rfl, rfl⟩⟩

instance : IsTrans Disk FilesKept :=
  ⟨fun _ _ _ h₁ h₂ => ⟨h₂.1.trans h₁.1, h₂.2.trans h₁.2, h₂.3.trans h₁.3, h₂.4.trans h₁.4, h₂.5.trans h₁.5⟩⟩

section

variable {τ α : Type} {io : IoPlan} {pt : IoPoint} {d : DiskOf τ} {Q : Except CodexNewError α → DiskOf τ → Prop}

theorem IoPlan.attempt_of_none (h : io pt = none) : (io.attempt pt : OpOn τ Unit) = pure () := by
  simp [attempt, check, h]

theorem IoPlan.attempt_of_some {fault : IoFault} (h : io pt = some fault) : io.attempt pt d = (.error (.io pt), d) := by
  simp [attempt, check, h]

theorem post_attempt {f : Unit → OpOn τ α} (herr : io pt ≠ none → Q (.error (.io pt)) d)
    (hok : io pt = none → Eff.Post d (f ()) Q) : Eff.Post d (io.attempt pt >>= f) Q := by
  refine post_check (fun h => herr ?_) (fun h => hok ?_)
  · rintro h'; rw [h'] at h; cases h
  · exact Option.isNone_iff_eq_none.mp h

theorem post_readManifest {f : TaskManifest → OpOn τ α} (herr : d.manifest = none → Q (.error .missingFile) d)
    (hok : ∀ m, d.manifest = some m → Eff.Post d (f m) Q) : Eff.Post d (readManifest >>= f) Q := by
  rcases hm : d.manifest with _ | m
  · have hread : readManifest d = (.error .missingFile, d) := by simp [readManifest, hm]
    exact post_bind (fun e s' h => by rw [hread] at h; cases h; exact herr hm)
      (fun a s' h => by rw [hread] at h; cases h)
  · have hread : readManifest d = (.ok m, d) := by simp [readManifest, hm]
    exact post_bind (fun e s' h => by rw [hread] at h; cases h)
      (fun a s' h => by rw [hread] at h; cases h; exact hok m hm)

theorem post_writeManifest {f : Unit → OpOn τ α}
    (herr : ∀ old, io pt ≠ none → old = d.manifest ∨ old = none → Q (.error (.io pt)) { d with manifest := old })
    (hok : io pt = none → Eff.Post { d with manifest := some m } (f ()) Q) :
    Eff.Post d (writeManifest io pt m >>= f) Q := by
  unfold writeManifest
  rcases hio : io pt with _ | _ | left
  · exact hok hio
  · exact herr d.manifest (by rw [hio]; simp) (.inl rfl)
  · exact herr none (by rw [hio]; simp) (.inr rfl)

theorem writeManifest_of_none (h : io pt = none) :
    (writeManifest io pt m : OpOn τ Unit) = Eff.modify fun d => { d with manifest := some m } := by
  simp [writeManifest, h]

theorem post_writeTaskStatus {now : Nat} {status : TaskStatus} {f : Unit → OpOn τ α}
    (herr : io pt ≠ none → Q (.error (.io pt)) d)
    (hok : io pt = none → Eff.Post { d with record := d.record.map fun r => r.withStatus now status } (f ()) Q) :
    Eff.Post d (writeTaskStatus io pt now status >>= f) Q := by
  unfold writeTaskStatus
  by_cases hio : io pt = none
  · rw [attempt_of_none hio]; exact hok hio
  · obtain ⟨fault, hf⟩ := Option.ne_none_iff_exists'.mp hio
    simp only [attempt, check, hf, Option.isNone_some, Bool.false_eq_true, ↓reduceIte]
    exact herr hio

end

/-! ## Refreshing a task -/

structure Refreshes (host : Host) (now : Nat) (d : Disk) (r : Except CodexNewError TaskManifest) (d' : Disk) :
    Prop where
  files : FilesKept d d'
  manifest : d'.manifest = d.manifest ∨ d'.manifest = none ∨
    ∃ m, d.manifest = some m ∧ d.workspace.isSome = true ∧
      d'.manifest = some (refreshedManifest host now d.original d.workspaceTree m)
  record : d'.record = d.record ∨ ∃ status, d'.record = d.record.map fun r => r.withStatus now status
  returns : ∀ m', r = .ok m' → d.workspace.isSome = true ∧ d'.manifest = some m' ∧
    ∃ m, d.manifest = some m ∧ m' = refreshedManifest host now d.original d.workspaceTree m

theorem refreshChanges_spec (host : Host) (io : IoPlan) (now : Nat) (d : Disk) :
    Eff.Post d (refreshChanges host io now) (Refreshes host now d) := by
  have hrefl : FilesKept d d := ⟨rfl, rfl, rfl, rfl, rfl⟩
  have hstop : ∀ e, Refreshes host now d (.error e) d := fun e => ⟨hrefl, .inl rfl, .inl rfl, fun m' h => by cases h⟩
  unfold refreshChanges
  refine post_readManifest (fun _ => hstop _) fun m hm => ?_
  refine post_attempt (fun _ => hstop _) fun _ => ?_
  refine post_attempt (fun _ => hstop _) fun _ => ?_
  refine post_read ?_
  refine post_check (fun _ => hstop _) fun hws => ?_
  refine post_attempt (fun _ => hstop _) fun _ => ?_
  generalize hm' : refreshedManifest host now d.original d.workspaceTree m = m'
  refine post_writeManifest (fun old _ hold => ⟨⟨rfl, rfl, rfl, rfl, rfl⟩, ?_, .inl rfl, fun m' h => by cases h⟩)
    fun _ => ?_
  · rcases hold with rfl | rfl
    · exact .inl rfl
    · exact .inr (.inl rfl)
  -- From here on the manifest is written and the roots stay as they are.
  have hdone : ∀ rec r, (rec = d.record ∨ ∃ status, rec = d.record.map fun r => r.withStatus now status) →
      (∀ a, r = .ok a → a = m') → Refreshes host now d r { d with manifest := some m', record := rec } := by
    intro rec r hrec hr
    refine ⟨⟨rfl, rfl, rfl, rfl, rfl⟩, .inr (.inr ⟨m, hm, hws, by rw [hm']⟩), hrec, fun a ha => ?_⟩
    obtain rfl := hr a ha
    exact ⟨hws, rfl, m, hm, hm'.symm⟩
  refine post_writeTaskStatus (fun _ => hdone _ _ (.inl rfl) fun a h => by cases h) fun _ => ?_
  generalize hrec : d.record.map _ = rec
  have hwr : rec = d.record ∨ ∃ status, rec = d.record.map fun r => r.withStatus now status :=
    .inr ⟨_, hrec.symm⟩
  have heach : ∀ cs : List ChangedFile,
      (each (fun changed => io.attempt (.traceback changed.path)) cs
        { d with manifest := some m', record := rec }).2 = { d with manifest := some m', record := rec } := by
    intro cs
    have : Eff.Respects (fun d d' : Disk => d' = d)
        (each (fun changed : ChangedFile => io.attempt (.traceback changed.path)) cs) :=
      have : Std.Refl (fun d d' : Disk => d' = d) := ⟨fun _ => rfl⟩
      have : IsTrans Disk (fun d d' : Disk => d' = d) := ⟨fun _ _ _ h₁ h₂ => h₂.trans h₁⟩
      Eff.Respects.each fun c _ => respects_check _ _
    exact this _
  refine post_bind (fun e s' h => ?_) fun a s' h => ?_
  · have := heach (detectChangedFileEvents m.changedFiles m'.changedFiles)
    rw [h] at this
    rw [show s' = _ from this]
    exact hdone _ _ hwr fun a h => by cases h
  · have := heach (detectChangedFileEvents m.changedFiles m'.changedFiles)
    rw [h] at this
    rw [show s' = _ from this]
    exact post_attempt (fun _ => hdone _ _ hwr fun a h => by cases h) fun _ =>
      hdone _ _ hwr fun a h => by cases h; rfl

/-- The calls of the operating system in a refresh. -/
def refreshPoints (previous current : TaskManifest) : List IoPoint :=
  [.indexOriginal, .indexWorkspace, .fullDiff, .refreshManifest, .refreshStatus, .refreshTimeline] ++
    (detectChangedFileEvents previous.changedFiles current.changedFiles).map fun c => .traceback c.path

def refreshed (host : Host) (now : Nat) (d : Disk) (m : TaskManifest) : Disk :=
  let m' := refreshedManifest host now d.original d.workspaceTree m
  { d with manifest := some m', record := d.record.map fun r => r.withStatus now m'.status }

theorem refreshChanges_ok (host : Host) (now : Nat) {io : IoPlan} {d : Disk}
    (hio : ∀ pt ∈ refreshPoints m (refreshedManifest host now d.original d.workspaceTree m), io pt = none)
    (hm : d.manifest = some m) (hws : d.workspace.isSome = true) : refreshChanges host io now d =
      (.ok (refreshedManifest host now d.original d.workspaceTree m), refreshed host now d m) := by
  have hread : readManifest d = (.ok m, d) := by simp [readManifest, hm]
  simp only [refreshPoints, forall_mem_append, forall_mem_cons, forall_mem_map] at hio
  obtain ⟨⟨hiorig, hiws, hidiff, himan, hista, hiline, -⟩, hitrace⟩ := hio
  unfold refreshChanges
  rw [bind_of_ok hread]
  simp only [attempt_of_none hiorig, attempt_of_none hiws, attempt_of_none hidiff, attempt_of_none hiline,
    attempt_of_none hista, writeManifest_of_none himan, writeTaskStatus, pure_bind, read_bind_apply, hws,
    check_true_bind, modify_bind_apply]
  exact bind_of_ok (congrFun (each_eq_pure fun c hc => attempt_of_none (hitrace c hc)) _)

theorem attempt_eq_ok {io : IoPlan} {pt : IoPoint} {d : Disk} {u : Unit}
    (h : io.attempt pt d = (.ok u, d')) : io pt = none := by
  by_contra hio
  obtain ⟨fault, hf⟩ := Option.ne_none_iff_exists'.mp hio
  rw [attempt_of_some hf] at h
  cases h

theorem refreshPoints_of_ok {host : Host} {now : Nat} {io : IoPlan} {d : Disk} {m' : TaskManifest}
    (h : refreshChanges host io now d = (.ok m', d')) (hm : d.manifest = some m) :
    ∀ pt ∈ refreshPoints m m', io pt = none := by
  suffices hpost : Eff.Post d (refreshChanges host io now) fun r _ => ∀ m', r = .ok m' →
      ∀ pt ∈ refreshPoints m m', io pt = none from post_iff.mp hpost _ _ h m' rfl
  have hstop : ∀ {e : CodexNewError} (m' : TaskManifest), Except.error e = .ok m' →
      ∀ pt ∈ refreshPoints m m', io pt = none := fun _ h => by cases h
  unfold refreshChanges
  refine post_readManifest (fun _ => hstop) fun m₁ hm₁ => ?_
  cases hm.symm.trans hm₁
  refine post_attempt (fun _ => hstop) fun hiorig => ?_
  refine post_attempt (fun _ => hstop) fun hiws => ?_
  refine post_read ?_
  refine post_check (fun _ => hstop) fun _ => ?_
  refine post_attempt (fun _ => hstop) fun hidiff => ?_
  refine post_writeManifest (fun _ _ _ => hstop) fun himan => ?_
  refine post_writeTaskStatus (fun _ => hstop) fun hista => ?_
  refine post_bind (fun _ _ _ => hstop) fun us s hloop => ?_
  refine post_attempt (fun _ => hstop) fun hiline m' hm' => ?_
  cases hm'
  simp only [refreshPoints, forall_mem_append, forall_mem_cons, forall_mem_map]
  exact ⟨⟨hiorig, hiws, hidiff, himan, hista, hiline, forall_mem_nil _⟩,
    each_forall (fun _ _ _ _ => attempt_eq_ok) hloop⟩

end CodexStudy.NewCore
