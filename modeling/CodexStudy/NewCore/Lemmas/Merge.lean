import CodexStudy.NewCore.Lemmas.Refresh

/-!
# What a merge does to the original root
-/

namespace CodexStudy.NewCore

open CodexStudy.Lib Eff List ChangedFile

variable {host : Host} {io : IoPlan} {now : Nat} {selection : MergeSelection} {d d' : Disk}

/-! ## The conflict check -/

def chosen (manifest : TaskManifest) (selection : MergeSelection) : List ChangedFile :=
  manifest.changedFiles.filter fun c => (selectedPaths manifest.changedFiles selection).contains c.path

/-- The file of an entry still has the content that it had before the change. -/
def Unchanged (host : Host) (t : Tree) (c : ChangedFile) : Prop :=
  ".." ∉ c.path ∧ t.passable c.path.dropLast = true ∧ hashText host.sha256 (t.file? c.path) = c.beforeHash

instance (host : Host) (t : Tree) (c : ChangedFile) : Decidable (Unchanged host t c) :=
  inferInstanceAs (Decidable (_ ∧ _ ∧ _))

structure SamePaths (m m' : TaskManifest) : Prop where
  originalRoot : m'.originalRoot = m.originalRoot
  workspaceRoot : m'.workspaceRoot = m.workspaceRoot
  paths : m'.changedFiles.map path = m.changedFiles.map path

def StillLists (m : TaskManifest) (d : Disk) : Prop := ∀ m', d.manifest = some m' → SamePaths m m'

variable {m : TaskManifest} {cs : List ChangedFile} {c c' : ChangedFile} {S : Set RelPath} {pt : IoPoint}
    {name held : Text} {α : Type} {body : Op α} {hunks : List HunkSelection} {accepted : List RelPath}

theorem StillLists.of_some {m' : TaskManifest} (h : d.manifest = some m') (hp : SamePaths m m') : StillLists m d := by
  intro m'' hm''
  cases h.symm.trans hm''
  exact hp

theorem StillLists.self (h : d.manifest = some m) : StillLists m d := .of_some h ⟨rfl, rfl, rfl⟩

theorem StillLists.of_failed (h : StillLists m d) {old : Option TaskManifest}
    (hold : old = d.manifest ∨ old = none) : StillLists m { d with manifest := old } := by
  rcases hold with rfl | rfl
  · exact h
  · intro m' hm'; cases hm'

theorem filesKept_refl (d : Disk) : FilesKept d d := Std.Refl.refl d

theorem checkConflict_spec (host : Host) (io : IoPlan) (now : Nat) (m : TaskManifest) (c : ChangedFile) (d : Disk) :
    Eff.Post d (checkConflict host io now m c) fun r d' =>
      FilesKept d d' ∧ ∀ u, r = .ok u → d' = d ∧ Unchanged host d.original c := by
  have hstop : ∀ d' e, FilesKept d d' → FilesKept d d' ∧
      ∀ u : Unit, Except.error (ε := CodexNewError) e = .ok u → d' = d ∧ Unchanged host d.original c :=
    fun d' e h => ⟨h, fun u hu => by cases hu⟩
  unfold checkConflict
  refine post_lift (fun e _ => hstop d e (filesKept_refl d)) fun path hpath => ?_
  obtain ⟨hdots, rfl⟩ := checkedJoin_eq_ok.mp hpath
  refine post_attempt (fun _ => hstop d _ (filesKept_refl d)) fun _ => ?_
  refine post_read ?_
  refine post_lift (fun e _ => hstop d e (filesKept_refl d)) fun hash hhash => ?_
  obtain ⟨hpass, rfl⟩ := fileHash_eq_ok.mp hhash
  split
  · rename_i heq
    exact ⟨filesKept_refl d, fun u _ => ⟨rfl, hdots, hpass, heq⟩⟩
  · refine post_writeManifest (fun old _ _ => hstop _ _ ⟨rfl, rfl, rfl, rfl, rfl⟩) fun _ => ?_
    refine post_writeTaskStatus (fun _ => hstop _ _ ⟨rfl, rfl, rfl, rfl, rfl⟩) fun _ => ?_
    exact hstop _ _ ⟨rfl, rfl, rfl, rfl, rfl⟩

theorem checkConflicts_spec (host : Host) (io : IoPlan) (now : Nat) (m : TaskManifest) (cs : List ChangedFile)
    (d : Disk) : Eff.Post d (each (checkConflict host io now m) cs) fun r d' =>
      FilesKept d d' ∧ ∀ us, r = .ok us → d' = d ∧ ∀ c ∈ cs, Unchanged host d.original c := by
  induction cs with
  | nil => exact ⟨filesKept_refl d, fun _ _ => ⟨rfl, fun c hc => by cases hc⟩⟩
  | cons c cs ih =>
      have hc := post_iff.mp (checkConflict_spec host io now m c d)
      have hcs := post_iff.mp ih
      refine post_bind (fun e s' h => ⟨(hc _ _ h).1, fun u hu => by cases hu⟩) fun u s' h => ?_
      obtain ⟨rfl, hun⟩ := (hc _ _ h).2 u rfl
      refine post_bind (fun e s'' h' => ⟨(hcs _ _ h').1, fun u hu => by cases hu⟩) fun us s'' h' => ?_
      obtain ⟨rfl, huns⟩ := (hcs _ _ h').2 us rfl
      refine ⟨filesKept_refl _, fun _ _ => ⟨rfl, fun c' hc' => ?_⟩⟩
      rcases mem_cons.mp hc' with rfl | hc'
      · exact hun
      · exact huns c' hc'

variable (host io now) in
theorem checkConflict_manifest {m : TaskManifest} {c : ChangedFile} (hm : d.manifest = some m) :
    Eff.Post d (checkConflict host io now m c) fun _ d' => StillLists m d' := by
  have hkept : StillLists m d := .self hm
  unfold checkConflict
  refine post_lift (fun e _ => hkept) fun path _ => ?_
  refine post_attempt (fun _ => hkept) fun _ => ?_
  refine post_read ?_
  refine post_lift (fun e _ => hkept) fun hash _ => ?_
  split
  · exact hkept
  · refine post_writeManifest (fun old _ hold => hkept.of_failed hold) fun _ => ?_
    exact post_writeTaskStatus (fun _ => .of_some rfl ⟨rfl, rfl, rfl⟩) fun _ => .of_some rfl ⟨rfl, rfl, rfl⟩

theorem checkConflicts_manifest (hm : d.manifest = some m) :
    Eff.Post d (each (checkConflict host io now m) cs) fun _ d' => StillLists m d' := by
  induction cs with
  | nil => exact StillLists.self hm
  | cons c cs ih =>
      have hc := post_iff.mp (checkConflict_manifest host io now (c := c) hm)
      have hspec := post_iff.mp (checkConflict_spec host io now m c d)
      refine post_bind (fun e s h => hc _ _ h) fun u s h => ?_
      obtain ⟨rfl, -⟩ := (hspec _ _ h).2 u rfl
      have hcs := post_iff.mp ih
      exact post_bind (fun e s h => hcs _ _ h) fun us s h => hcs _ _ h

theorem checkConflict_of_unchanged (hio : io (.conflictHash c.path) = none)
    (h : Unchanged host d.original c) : checkConflict host io now m c d = (.ok (), d) := by
  obtain ⟨hdots, hpass, heq⟩ := h
  have hj : checkedJoin c.path = .ok c.path := checkedJoin_eq_ok.mpr ⟨hdots, rfl⟩
  have hh : fileHash host.sha256 (.conflictHash c.path) d.original c.path = .ok c.beforeHash :=
    fileHash_eq_ok.mpr ⟨hpass, heq.symm⟩
  simp only [checkConflict, hj, IoPlan.attempt_of_none hio, lift_ok_bind, pure_bind,
    read_bind_apply, hh, ↓reduceIte, pure_apply]

theorem checkConflicts_of_unchanged (hio : ∀ c ∈ cs, io (.conflictHash c.path) = none)
    (h : ∀ c ∈ cs, Unchanged host d.original c) :
    each (checkConflict host io now m) cs d = (.ok (cs.map fun _ => ()), d) := by
  induction cs with
  | nil => rfl
  | cons c cs ih =>
      rw [each, bind_of_ok (checkConflict_of_unchanged (hio c mem_cons_self) (h c mem_cons_self)),
        bind_of_ok (ih (fun c' hc' => hio c' (mem_cons_of_mem _ hc'))
          fun c' hc' => h c' (mem_cons_of_mem _ hc'))]
      rfl

/-- The hash of the file of an entry can be taken. -/
def Readable (t : Tree) (c : ChangedFile) : Prop := ".." ∉ c.path ∧ t.passable c.path.dropLast = true

variable (now) in
theorem checkConflict_of_changed {m : TaskManifest} {c : ChangedFile} (hio : ∀ pt, io pt = none)
    (hread : Readable d.original c) (h : ¬ Unchanged host d.original c) : ∃ d', checkConflict host io now m c d =
      (.error (.mergeConflict c.path c.beforeHash (hashText host.sha256 (d.original.file? c.path))), d') := by
  have hj : checkedJoin c.path = .ok c.path := checkedJoin_eq_ok.mpr ⟨hread.1, rfl⟩
  have hh : fileHash host.sha256 (.conflictHash c.path) d.original c.path =
      .ok (hashText host.sha256 (d.original.file? c.path)) := fileHash_eq_ok.mpr ⟨hread.2, rfl⟩
  have hne : hashText host.sha256 (d.original.file? c.path) ≠ c.beforeHash :=
    fun heq => h ⟨hread.1, hread.2, heq⟩
  simp only [checkConflict, hj, IoPlan.attempt_of_none (hio _), lift_ok_bind, pure_bind,
    read_bind_apply, hh, hne, ↓reduceIte, writeManifest_of_none (hio _), writeTaskStatus,
    modify_bind_apply, fail_apply]
  exact ⟨_, rfl⟩

variable (now) in
theorem checkConflicts_of_changed {m : TaskManifest} {cs : List ChangedFile} (hio : ∀ pt, io pt = none)
    (hread : ∀ c ∈ cs, Readable d.original c) (h : ∃ c ∈ cs, ¬ Unchanged host d.original c) :
    ∃ c ∈ cs, ¬ Unchanged host d.original c ∧ ∃ d', each (checkConflict host io now m) cs d =
      (.error (.mergeConflict c.path c.beforeHash (hashText host.sha256 (d.original.file? c.path))), d') := by
  induction cs with
  | nil => obtain ⟨c, hc, -⟩ := h; cases hc
  | cons c cs ih =>
      by_cases hc : Unchanged host d.original c
      · have hrest : ∃ c ∈ cs, ¬ Unchanged host d.original c := by
          obtain ⟨c', hc', hch⟩ := h
          rcases mem_cons.mp hc' with rfl | hc'
          · exact absurd hc hch
          · exact ⟨c', hc', hch⟩
        obtain ⟨c', hc', hch, d', hd'⟩ := ih (fun c' hc' => hread c' (mem_cons_of_mem _ hc')) hrest
        refine ⟨c', mem_cons_of_mem _ hc', hch, d', ?_⟩
        rw [each, bind_of_ok (checkConflict_of_unchanged (hio _) hc), bind_of_error hd']
      · obtain ⟨d', hd'⟩ := checkConflict_of_changed now (m := m) hio (hread c mem_cons_self) hc
        refine ⟨c, mem_cons_self, hc, d', ?_⟩
        rw [each, bind_of_error hd']

/-! ## The apply loop writes the chosen files only -/

structure WritesOnly (S : Set RelPath) (d d' : Disk) : Prop where
  files : ∀ p, p ∉ S → d'.original.file? p = d.original.file? p
  workspace : d'.workspace = d.workspace
  manifest : d'.manifest = d.manifest
  record : d'.record = d.record

instance (S : Set RelPath) : Std.Refl (WritesOnly S) := ⟨fun _ => ⟨fun _ _ => rfl, rfl, rfl, rfl⟩⟩

instance (S : Set RelPath) : IsTrans Disk (WritesOnly S) :=
  ⟨fun _ _ _ h₁ h₂ =>
    ⟨fun p hp => (h₂.1 p hp).trans (h₁.1 p hp), h₂.2.trans h₁.2, h₂.3.trans h₁.3, h₂.4.trans h₁.4⟩⟩

theorem WritesOnly.of_original_eq (h : d'.original = d.original) (hw : d'.workspace = d.workspace)
    (hm : d'.manifest = d.manifest) (hr : d'.record = d.record) : WritesOnly S d d' :=
  ⟨fun p _ => by rw [h], hw, hm, hr⟩

theorem writeOriginal_cases (io : IoPlan) (pt : IoPoint) (path : RelPath) (t : Tree) (d : Disk) :
    (io pt = none ∧ writeOriginal io pt path t d = (.ok (), { d with original := t })) ∨
      ∃ t', (t' = d.original ∨ ∃ left, d.original.writeAll path left = some t') ∧
        writeOriginal io pt path t d = (.error (.io pt), { d with original := t' }) := by
  unfold writeOriginal
  rw [file?_tree]
  rcases hio : io pt with _ | _ | left
  · exact .inl ⟨rfl, rfl⟩
  · exact .inr ⟨d.original, .inl rfl, rfl⟩
  · right
    rcases hf : t.file? path with _ | c
    · exact ⟨d.original, .inl rfl, rfl⟩
    · rcases hw : d.original.writeAll path left with _ | t'
      · exact ⟨d.original, .inl rfl, by simp [hw]⟩
      · exact ⟨t', .inr ⟨left, hw⟩, by simp [hw]⟩

theorem writesOnly_writeOriginal {path : RelPath} {t : Tree} (hS : path ∈ S)
    (h : ∀ q, q ≠ path → t.file? q = d.original.file? q) : WritesOnly S d (writeOriginal io pt path t d).2 := by
  have hne : ∀ p, p ∉ S → p ≠ path := by rintro p hp rfl; exact hp hS
  obtain ⟨-, heq⟩ | ⟨t', ht', heq⟩ := writeOriginal_cases io pt path t d
  · rw [heq]; exact ⟨fun p hp => h p (hne p hp), rfl, rfl, rfl⟩
  · rw [heq]
    rcases ht' with rfl | ⟨left, hw⟩
    · exact ⟨fun _ _ => rfl, rfl, rfl, rfl⟩
    · exact ⟨fun p hp => (ChangesAt.of_writeAll hw).frame p (hne p hp), rfl, rfl, rfl⟩

theorem writesOnly_withLock
    (h : Eff.Respects (WritesOnly S) body) : Eff.Respects (WritesOnly S) (withLock io pt name held body) := by
  have hlocked : Eff.Respects (WritesOnly S) (modify fun d => d.locked name : Op Unit) :=
    respects_modify fun d => .of_original_eq rfl rfl rfl rfl
  unfold withLock
  refine Eff.Respects.bind respects_read fun d => ?_
  refine Eff.Respects.bind (respects_check _ _) fun _ => ?_
  split
  · refine Eff.Respects.bind hlocked fun _ => ?_
    exact h.ensuring fun d => .of_original_eq rfl rfl rfl rfl
  · exact respects_fail _
  · exact Eff.Respects.bind hlocked fun _ => respects_fail _

theorem writesOnly_applyChanged (hS : c.path ∈ S) : Eff.Respects (WritesOnly S) (applyChanged host io hunks c) := by
  intro d
  change Eff.Post d (applyChanged host io hunks c) fun _ d' => WritesOnly S d d'
  unfold applyChanged
  refine post_attempt (fun _ => Std.Refl.refl d) fun _ => ?_
  refine post_modify ?_
  refine post_read ?_
  refine post_lift (fun e _ => .of_original_eq rfl rfl rfl rfl) fun t ht => ?_
  generalize hd₁ : ({ d with before := _ } : Disk) = d₁ at ht ⊢
  have h₁ : WritesOnly S d d₁ := by subst hd₁; exact .of_original_eq rfl rfl rfl rfl
  have h₂ : WritesOnly S d₁ (writeOriginal io (.apply c.path) c.path t d₁).2 :=
    writesOnly_writeOriginal hS (mergedTree_changesAt ht).frame
  have hrest : ∀ d₂, WritesOnly S d₁ d₂ → ∀ d₃, WritesOnly S d₂ d₃ → WritesOnly S d d₃ :=
    fun d₂ h₂ d₃ h₃ => IsTrans.trans _ _ _ h₁ (IsTrans.trans _ _ _ h₂ h₃)
  refine post_bind (fun e d₂ h => ?_) fun _ d₂ h => ?_
  · rw [h] at h₂; exact hrest d₂ h₂ d₂ (Std.Refl.refl d₂)
  rw [h] at h₂
  refine post_attempt (fun _ => hrest d₂ h₂ d₂ (Std.Refl.refl d₂)) fun _ => ?_
  refine post_modify ?_
  generalize hd₃ : ({ d₂ with afterMerge := _ } : Disk) = d₃
  have h₃ : WritesOnly S d₂ d₃ := by subst hd₃; exact .of_original_eq rfl rfl rfl rfl
  have hend := hrest d₂ h₂ d₃ h₃
  refine post_attempt (fun _ => hend) fun _ => ?_
  refine post_read ?_
  exact post_lift (fun e _ => hend) fun _ _ => hend

theorem writesOnly_mergeChanged (hS : accepted.contains c.path = true → c.path ∈ S) :
    Eff.Respects (WritesOnly S) (mergeChanged host io accepted hunks c) := by
  unfold mergeChanged
  split
  · rename_i hc
    exact writesOnly_withLock (writesOnly_applyChanged (hS hc))
  · exact respects_pure c

/-! ## The whole merge -/

theorem post_withLock {Q : Except CodexNewError α → Disk → Prop} (hheld : name ∈ d.locks → Q (.error (.other held)) d)
    (hfault : io pt ≠ none → ∀ locks, Q (.error (.io pt)) { d with locks })
    (hbody : name ∉ d.locks → io pt = none → ∀ r d', body (d.locked name) = (r, d') → Q r (d'.released name)) :
    Eff.Post d (withLock io pt name held body) Q := by
  unfold withLock
  refine post_read ?_
  refine post_check (fun h => hheld (by simpa using h)) fun h => ?_
  have hfree : name ∉ d.locks := by simpa using h
  rcases hio : io pt with _ | _ | left
  · exact hbody hfree hio _ _ rfl
  · exact hfault (by rw [hio]; simp) d.locks
  · exact hfault (by rw [hio]; simp) (name :: d.locks)

def MergesChosen (host : Host) (now : Nat) (selection : MergeSelection) (d : Disk) (failed : Bool) (d' : Disk) : Prop :=
  d'.workspace = d.workspace ∧
    ((d'.original = d.original ∧ failed = true) ∨ ∃ m, d.manifest = some m ∧
      (∀ c ∈ chosen (refreshedManifest host now d.original d.workspaceTree m) selection,
        Unchanged host d.original c) ∧
      ∀ p, (∀ c ∈ chosen (refreshedManifest host now d.original d.workspaceTree m) selection, c.path ≠ p) →
        d'.original.file? p = d.original.file? p)

def failed {α : Type} : Except CodexNewError α → Bool
  | .ok _ => false
  | .error _ => true

theorem exists_ok_of_not_failed {r : Except CodexNewError α} (h : failed r = false) : ∃ a, r = .ok a := by
  cases r with
  | error e => cases h
  | ok a => exact ⟨a, rfl⟩

variable (host io now selection) in
theorem mergeLocked_spec (m : TaskManifest) (d : Disk) : Eff.Post d (mergeLocked host io now selection m) fun r d' =>
      d'.workspace = d.workspace ∧ ((d'.original = d.original ∧ failed r = true) ∨
          (∀ c ∈ chosen m selection, Unchanged host d.original c) ∧
          ∀ p, (∀ c ∈ chosen m selection, c.path ≠ p) → d'.original.file? p = d.original.file? p) := by
  unfold mergeLocked
  refine post_attempt (fun _ => ⟨rfl, .inl ⟨rfl, rfl⟩⟩) fun _ => ?_
  have hcheck := post_iff.mp (checkConflicts_spec host io now m (chosen m selection) d)
  refine post_bind (fun e s h => ?_) fun us s h => ?_
  · have hs := (hcheck _ _ h).1
    exact ⟨hs.workspace, .inl ⟨hs.original, rfl⟩⟩
  obtain ⟨hd, hun⟩ := (hcheck _ _ h).2 us rfl
  rw [hd]
  generalize hS : {p | ∃ c ∈ chosen m selection, c.path = p} = S
  have hloop : Eff.Respects (WritesOnly S)
      (each (mergeChanged host io (selectedPaths m.changedFiles selection) (hunkSelections selection))
        m.changedFiles) := by
    refine Eff.Respects.each fun c hc => writesOnly_mergeChanged fun hsel => ?_
    rw [← hS]
    exact ⟨c, mem_filter.mpr ⟨hc, hsel⟩, rfl⟩
  -- Once the loop has started, the records are written and the original root is left alone.
  have hend : ∀ d₁ : Disk, WritesOnly S d d₁ → ∀ (r : Except CodexNewError MergeOutcome) (d₂ : Disk),
      d₂.original = d₁.original → d₂.workspace = d₁.workspace → d₂.workspace = d.workspace ∧
        ((d₂.original = d.original ∧ failed r = true) ∨ (∀ c ∈ chosen m selection, Unchanged host d.original c) ∧
          ∀ p, (∀ c ∈ chosen m selection, c.path ≠ p) → d₂.original.file? p = d.original.file? p) := by
    intro d₁ h₁ r d₂ ho hw
    refine ⟨hw.trans h₁.workspace, .inr ⟨hun, fun p hp => ?_⟩⟩
    rw [ho]
    refine h₁.files p ?_
    rw [← hS]
    rintro ⟨c, hc, hcp⟩
    exact hp c hc hcp
  refine post_bind (fun e d₁ h₁ => ?_) fun cs d₁ h₁ => ?_
  · have hl := hloop d
    rw [h₁] at hl
    exact hend d₁ hl _ d₁ rfl rfl
  have hl := hloop d
  rw [h₁] at hl
  refine post_attempt (fun _ => hend d₁ hl _ d₁ rfl rfl) fun _ => ?_
  refine post_writeManifest (fun old _ _ => hend d₁ hl _ _ rfl rfl) fun _ => ?_
  refine post_writeTaskStatus (fun _ => hend d₁ hl _ _ rfl rfl) fun _ => ?_
  exact post_attempt (fun _ => hend d₁ hl _ _ rfl rfl) fun _ => hend d₁ hl _ _ rfl rfl

theorem merge_spec (host : Host) (io : IoPlan) (now : Nat) (selection : MergeSelection) (d : Disk) :
    Eff.Post d (merge host io now selection) fun r d' => MergesChosen host now selection d (failed r) d' := by
  unfold merge
  have hrfr := post_iff.mp (refreshChanges_spec host io now d)
  refine post_bind (fun e s h => ?_) fun m' s h => ?_
  · have hs := (hrfr _ _ h).files
    exact ⟨hs.workspace, .inl ⟨hs.original, rfl⟩⟩
  obtain ⟨hfs, -, -, hret⟩ := hrfr _ _ h
  obtain ⟨-, -, m, hm, rfl⟩ := hret m' rfl
  refine post_withLock (fun _ => ⟨hfs.workspace, .inl ⟨hfs.original, rfl⟩⟩)
    (fun _ _ => ⟨hfs.workspace, .inl ⟨hfs.original, rfl⟩⟩) fun _ _ r d' hbody => ?_
  obtain ⟨hw, hcases⟩ := post_iff.mp (mergeLocked_spec host io now selection _ _) _ _ hbody
  refine ⟨hw.trans hfs.workspace, ?_⟩
  rw [show ∀ name, (s.locked name).original = d.original from fun _ => hfs.original] at hcases
  rcases hcases with hkept | ⟨hun, hframe⟩
  · exact .inl hkept
  · exact .inr ⟨m, hm, hun, hframe⟩

/-! ## The manifest after a merge -/

def applied (d : Disk) (c : ChangedFile) (t : Tree) : Disk :=
  { d with
    original := t
    before := d.before.snapshotFile c.path (d.original.file? c.path)
    afterMerge := d.afterMerge.snapshotFile c.path (t.file? c.path) }

theorem applyChanged_eq_ok (h : applyChanged host io hunks c d = (.ok c', d')) :
    ∃ t, mergedTree host hunks d.workspaceTree d.original c.path = .ok t ∧ t.passable c.path.dropLast = true ∧
      d' = applied d c t ∧ c' = c.merged hunks (hashText host.sha256 (t.file? c.path)) := by
  suffices hpost : Eff.Post d (applyChanged host io hunks c) fun r d' => ∀ c', r = .ok c' →
      ∃ t, mergedTree host hunks d.workspaceTree d.original c.path = .ok t ∧ t.passable c.path.dropLast = true ∧
        d' = applied d c t ∧ c' = c.merged hunks (hashText host.sha256 (t.file? c.path)) from
    post_iff.mp hpost _ _ h c' rfl
  unfold applyChanged
  refine post_attempt (fun _ c' hc' => by cases hc') fun _ => ?_
  refine post_modify ?_
  refine post_read ?_
  refine post_lift (fun e _ c' hc' => by cases hc') fun t ht => ?_
  refine post_bind (fun e d₁ _ c' hc' => by cases hc') fun _ d₁ hd₁ => ?_
  obtain ⟨-, hw⟩ | ⟨t', -, hw⟩ := writeOriginal_cases io (.apply c.path) c.path t
    { d with before := d.before.snapshotFile c.path (Root.file? d.original c.path) }
  · rw [hw] at hd₁
    cases hd₁
    refine post_attempt (fun _ c' hc' => by cases hc') fun _ => ?_
    refine post_modify ?_
    refine post_attempt (fun _ c' hc' => by cases hc') fun _ => ?_
    refine post_read ?_
    refine post_lift (fun e _ c' hc' => by cases hc') fun hash hhash c' hc' => ?_
    obtain ⟨hpass, rfl⟩ := fileHash_eq_ok.mp hhash
    cases hc'
    exact ⟨t, ht, hpass, rfl, rfl⟩
  · rw [hw] at hd₁
    cases hd₁

theorem mergeChanged_eq_ok (h : mergeChanged host io accepted hunks c d = (.ok c', d')) :
    (c.path ∉ accepted ∧ c' = c ∧ d' = d) ∨
      c.path ∈ accepted ∧ ∃ t, mergedTree host hunks d.workspaceTree d.original c.path = .ok t ∧
        t.passable c.path.dropLast = true ∧ d' = applied d c t ∧
        c' = c.merged hunks (hashText host.sha256 (t.file? c.path)) := by
  unfold mergeChanged at h
  split at h
  · rename_i hacc
    right
    refine ⟨by simpa using hacc, ?_⟩
    suffices hpost : Eff.Post d (withLock io (.pathLock c.path) (pathLockName c.path)
        ("path lock already held for " ++ c.path.render) (applyChanged host io hunks c)) fun r d' =>
          ∀ c', r = .ok c' → ∃ t, mergedTree host hunks d.workspaceTree d.original c.path = .ok t ∧
            t.passable c.path.dropLast = true ∧ d' = applied d c t ∧
            c' = c.merged hunks (hashText host.sha256 (t.file? c.path)) from
      post_iff.mp hpost _ _ h c' rfl
    refine post_withLock (fun _ c' hc' => by cases hc') (fun _ _ c' hc' => by cases hc')
      fun hfree _ r d₁ hbody c' hc' => ?_
    subst hc'
    obtain ⟨t, ht, hpass, rfl, hc'⟩ := applyChanged_eq_ok hbody
    refine ⟨t, ht, hpass, ?_, hc'⟩
    have hlocks : (pathLockName c.path :: d.locks).filter (· ≠ pathLockName c.path) = d.locks := by
      rw [filter_cons_of_neg (by simp), filter_eq_self]
      intro name hname
      simpa using fun heq : name = pathLockName c.path => hfree (heq ▸ hname)
    simp only [DiskOf.released, applied, DiskOf.locked, hlocks]
  · rename_i hacc
    cases h
    exact .inl ⟨by simpa using hacc, rfl, rfl⟩

theorem mergeChanged_path (h : mergeChanged host io accepted hunks c d = (.ok c', d')) : c'.path = c.path := by
  rcases mergeChanged_eq_ok h with ⟨-, rfl, -⟩ | ⟨-, t, -, -, -, rfl⟩
  · rfl
  · rfl

theorem mergeChanged_paths {cs' : List ChangedFile}
    (h : each (mergeChanged host io accepted hunks) cs d = (.ok cs', d')) : cs'.map path = cs.map path :=
  each_map_eq (fun _ _ _ _ => mergeChanged_path) h

theorem mergeLocked_manifest (hm : d.manifest = some m) :
    Eff.Post d (mergeLocked host io now selection m) fun _ d' => StillLists m d' := by
  unfold mergeLocked
  refine post_attempt (fun _ => .self hm) fun _ => ?_
  have hck := post_iff.mp (checkConflicts_spec host io now m (chosen m selection) d)
  refine post_bind (fun e s h => post_iff.mp (checkConflicts_manifest hm) _ _ h) fun us s h => ?_
  obtain ⟨hd, -⟩ := (hck _ _ h).2 us rfl
  rw [hd]
  have hloop : Eff.Respects (WritesOnly Set.univ)
      (each (mergeChanged host io (selectedPaths m.changedFiles selection) (hunkSelections selection))
        m.changedFiles) :=
    Eff.Respects.each fun c _ => writesOnly_mergeChanged fun _ => Set.mem_univ _
  have hl := hloop d
  refine post_bind (fun e d₁ h₁ => ?_) fun cs d₁ h₁ => ?_
  · rw [h₁] at hl
    exact .self (hl.manifest.trans hm)
  rw [h₁] at hl
  have hkept : StillLists m d₁ := .self (hl.manifest.trans hm)
  have hps : SamePaths m { m with status := .rollbackAvailable, updatedAt := now, changedFiles := cs } :=
    ⟨rfl, rfl, mergeChanged_paths h₁⟩
  refine post_attempt (fun _ => hkept) fun _ => ?_
  refine post_writeManifest (fun old _ hold => hkept.of_failed hold) fun _ => ?_
  refine post_writeTaskStatus (fun _ => .of_some rfl hps) fun _ => ?_
  exact post_attempt (fun _ => .of_some rfl hps) fun _ => .of_some rfl hps

theorem merge_manifest {m' : TaskManifest} (h : (merge host io now selection d).2.manifest = some m') :
    ∃ m, d.manifest = some m ∧
      (SamePaths m m' ∨ SamePaths (refreshedManifest host now d.original d.workspaceTree m) m') := by
  revert h
  change Eff.Post d (merge host io now selection) fun _ d' => d'.manifest = some m' → _
  have hrfr := post_iff.mp (refreshChanges_spec host io now d)
  refine post_bind (fun e s h hm' => ?_) fun m₁ s h => ?_
  · rcases (hrfr _ _ h).manifest with heq | heq | ⟨m, hm, -, heq⟩
    · exact ⟨m', heq ▸ hm', .inl ⟨rfl, rfl, rfl⟩⟩
    · rw [heq] at hm'; cases hm'
    · cases heq.symm.trans hm'
      exact ⟨m, hm, .inr ⟨rfl, rfl, rfl⟩⟩
  obtain ⟨-, hs, m, hm, rfl⟩ := (hrfr _ _ h).returns m₁ rfl
  have hlists : ∀ d₁ : Disk, StillLists (refreshedManifest host now d.original d.workspaceTree m) d₁ →
      d₁.manifest = some m' → ∃ m, d.manifest = some m ∧
        (SamePaths m m' ∨ SamePaths (refreshedManifest host now d.original d.workspaceTree m) m') :=
    fun d₁ h₁ hm' => ⟨m, hm, .inr (h₁ m' hm')⟩
  refine post_withLock (fun _ => hlists s (.self hs)) (fun _ _ => hlists _ (.self hs)) fun _ _ r d₁ hbody => ?_
  have hs' : (s.locked (mergeLockName (refreshedManifest host now d.original d.workspaceTree m).taskId)).manifest =
      some (refreshedManifest host now d.original d.workspaceTree m) := hs
  exact hlists d₁ (post_iff.mp (mergeLocked_manifest hs') r d₁ hbody)

theorem withLock_apply (hio : io pt = none) (hfree : name ∉ d.locks) : withLock io pt name held body d =
      ((body (d.locked name)).1, (body (d.locked name)).2.released name) := by
  simp [withLock, hio, hfree, ensuring]

theorem mergeLocked_of_changed (hio : ∀ pt, io pt = none) (hread : ∀ c ∈ chosen m selection, Readable d.original c)
    (h : ∃ c ∈ chosen m selection, ¬ Unchanged host d.original c) :
    ∃ c ∈ chosen m selection, ¬ Unchanged host d.original c ∧ (mergeLocked host io now selection m d).1 =
      .error (.mergeConflict c.path c.beforeHash (hashText host.sha256 (d.original.file? c.path))) := by
  obtain ⟨c, hc, hch, d', hd'⟩ := checkConflicts_of_changed now (m := m) hio hread h
  refine ⟨c, hc, hch, ?_⟩
  unfold mergeLocked
  rw [IoPlan.attempt_of_none (hio _), pure_bind]
  change ((each (checkConflict host io now m) (chosen m selection) >>= _) d).1 = _
  rw [bind_of_error hd']

theorem merge_of_changed (hio : ∀ pt, io pt = none) (hm : d.manifest = some m) (hws : d.workspace.isSome = true)
    (hlock : mergeLockName m.taskId ∉ d.locks)
    (hread : ∀ c ∈ chosen (refreshedManifest host now d.original d.workspaceTree m) selection,
      Readable d.original c) (h : ∃ c ∈ chosen (refreshedManifest host now d.original d.workspaceTree m) selection,
      ¬ Unchanged host d.original c) : ∃ c ∈ chosen (refreshedManifest host now d.original d.workspaceTree m) selection,
      ¬ Unchanged host d.original c ∧ (merge host io now selection d).1 =
        .error (.mergeConflict c.path c.beforeHash (hashText host.sha256 (d.original.file? c.path))) := by
  have hfree : mergeLockName (refreshedManifest host now d.original d.workspaceTree m).taskId ∉
      (refreshed host now d m).locks := hlock
  unfold merge
  rw [bind_of_ok (refreshChanges_ok _ _ (fun pt _ => hio pt) hm hws), withLock_apply (hio _) hfree]
  exact mergeLocked_of_changed (d := (refreshed host now d m).locked _) hio hread h

end CodexStudy.NewCore
