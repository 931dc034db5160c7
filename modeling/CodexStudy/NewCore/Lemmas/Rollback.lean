import CodexStudy.NewCore.Lemmas.Merge

/-!
# What a rollback does to the original root
-/

namespace CodexStudy.NewCore

open CodexStudy.Lib Eff List

variable {host : Host} {io : IoPlan} {now : Nat} {selection : RollbackSelection} {d d' : Disk}

def chosenToUndo (m : TaskManifest) (selection : RollbackSelection) : List ChangedFile :=
  m.changedFiles.filter fun c =>
    c.accepted && (selectedRollbackPaths m.changedFiles selection).contains c.path

theorem checkRollback_spec (host : Host) (io : IoPlan) (now : Nat) (m : TaskManifest) (c : ChangedFile) (d : Disk)
    (hm : d.manifest = some m) : Eff.Post d (checkRollback host io now m c) fun r d' =>
      FilesKept d d' ∧ StillLists m d' ∧ ∀ u, r = .ok u → d' = d := by
  have hstop : ∀ e, FilesKept d d ∧ StillLists m d ∧
      ∀ u : Unit, Except.error (ε := CodexNewError) e = .ok u → d = d :=
    fun e => ⟨filesKept_refl d, .self hm, fun u hu => rfl⟩
  unfold checkRollback
  refine post_lift (fun e _ => hstop e) fun path _ => ?_
  refine post_attempt (fun _ => hstop _) fun _ => ?_
  refine post_read ?_
  refine post_lift (fun e _ => hstop e) fun hash _ => ?_
  split
  · exact ⟨filesKept_refl d, .self hm, fun _ _ => rfl⟩
  · refine post_writeManifest (fun old _ hold => ⟨⟨rfl, rfl, rfl, rfl, rfl⟩, ?_, fun u hu => by cases hu⟩) fun _ => ?_
    · exact (StillLists.self hm).of_failed hold
    · refine post_writeTaskStatus (fun _ => ?_) fun _ => ?_
      · exact ⟨⟨rfl, rfl, rfl, rfl, rfl⟩, .of_some rfl ⟨rfl, rfl, rfl⟩, fun u hu => by cases hu⟩
      · exact ⟨⟨rfl, rfl, rfl, rfl, rfl⟩, .of_some rfl ⟨rfl, rfl, rfl⟩, fun u hu => by cases hu⟩

theorem checkRollbacks_spec (host : Host) (io : IoPlan) (now : Nat) (m : TaskManifest) (cs : List ChangedFile)
    (d : Disk) (hm : d.manifest = some m) : Eff.Post d (each (checkRollback host io now m) cs) fun r d' =>
      FilesKept d d' ∧ StillLists m d' ∧ ∀ us, r = .ok us → d' = d := by
  induction cs with
  | nil => exact ⟨filesKept_refl d, .self hm, fun _ _ => rfl⟩
  | cons c cs ih =>
      have hc := post_iff.mp (checkRollback_spec host io now m c d hm)
      have hcs := post_iff.mp ih
      refine post_bind (fun e s h => ?_) fun u s h => ?_
      · exact ⟨(hc _ _ h).1, (hc _ _ h).2.1, fun u hu => by cases hu⟩
      obtain rfl := (hc _ _ h).2.2 u rfl
      refine post_bind (fun e s' h' => ?_) fun us s' h' => ?_
      · exact ⟨(hcs _ _ h').1, (hcs _ _ h').2.1, fun u hu => by cases hu⟩
      obtain rfl := (hcs _ _ h').2.2 us rfl
      exact ⟨filesKept_refl _, .self hm, fun _ _ => rfl⟩

variable {hunks : List HunkSelection} {c c' : ChangedFile} {paths : List RelPath} {cs' cs : List ChangedFile}

theorem writesOnly_rollbackChanged {S : Set RelPath} (hS : c.accepted = true → c.path ∈ S) :
    Eff.Respects (WritesOnly S) (rollbackChanged host io paths hunks c) := by
  intro d
  change Eff.Post d (rollbackChanged host io paths hunks c) fun _ d' => WritesOnly S d d'
  have hrefl : WritesOnly S d d := Std.Refl.refl d
  unfold rollbackChanged
  split
  · rename_i hacc
    have hmem : c.path ∈ S := hS (Bool.and_eq_true_iff.mp hacc).1
    refine post_read ?_
    refine post_lift (fun e _ => hrefl) fun t ht => ?_
    have hrestore : WritesOnly S d (writeOriginal io (.restore c.path) c.path t d).2 :=
      writesOnly_writeOriginal hmem (SnapshotDir.restoreSnapshot_changesAt ht).frame
    refine post_bind (fun e d₁ h₁ => by rw [h₁] at hrestore; exact hrestore) fun _ d₁ h₁ => ?_
    rw [h₁] at hrestore
    split
    · exact hrestore
    · rename_i hne
      refine post_read ?_
      refine post_lift (fun e _ => hrestore) fun t₂ ht₂ => ?_
      have hany : ((remainingHunks c (pathHunks hunks c.path)).map fun hunkIndex =>
          ({ path := c.path, hunkIndex } : HunkSelection)).any (fun s => s.path = c.path) = true := by
        obtain ⟨i, rest, hi⟩ := exists_cons_of_ne_nil hne
        simp [hi]
      have hreapply : WritesOnly S d₁ (writeOriginal io (.reapply c.path) c.path t₂ d₁).2 :=
        writesOnly_writeOriginal hmem (applySelectedHunks_changesAt hany ht₂).frame
      refine post_bind (fun e d₂ h₂ => ?_) fun _ d₂ h₂ => ?_
      · rw [h₂] at hreapply; exact IsTrans.trans _ _ _ hrestore hreapply
      rw [h₂] at hreapply
      have hend : WritesOnly S d d₂ := IsTrans.trans _ _ _ hrestore hreapply
      refine post_attempt (fun _ => hend) fun _ => ?_
      refine post_read ?_
      exact post_lift (fun e _ => hend) fun _ _ => hend
  · exact hrefl

theorem rollbackChanged_path (h : rollbackChanged host io paths hunks c d = (.ok c', d')) : c'.path = c.path := by
  suffices hpost : Eff.Post d (rollbackChanged host io paths hunks c) fun r _ =>
      ∀ c', r = .ok c' → c'.path = c.path from post_iff.mp hpost _ _ h c' rfl
  unfold rollbackChanged
  split
  · refine post_read ?_
    refine post_lift (fun e _ c' hc' => by cases hc') fun t _ => ?_
    refine post_bind (fun e d₁ _ c' hc' => by cases hc') fun _ d₁ _ => ?_
    split
    · rintro c' hc'; cases hc'; rfl
    · refine post_read ?_
      refine post_lift (fun e _ c' hc' => by cases hc') fun t₂ _ => ?_
      refine post_bind (fun e d₂ _ c' hc' => by cases hc') fun _ d₂ _ => ?_
      refine post_attempt (fun _ c' hc' => by cases hc') fun _ => ?_
      refine post_read ?_
      refine post_lift (fun e _ c' hc' => by cases hc') fun _ _ c' hc' => ?_
      cases hc'; rfl
  · rintro c' hc'; cases hc'; rfl

variable (h : each (rollbackChanged host io paths hunks) cs d = (.ok cs', d'))

include h in
theorem rollbackChanged_paths :
    cs'.map ChangedFile.path = cs.map ChangedFile.path :=
  each_map_eq (fun _ _ _ _ => rollbackChanged_path) h

theorem rollback_spec (host : Host) (io : IoPlan) (now : Nat) (selection : RollbackSelection) (d : Disk) :
    Eff.Post d (rollback host io now selection) fun _ d' => d'.workspace = d.workspace ∧
        ((d'.original = d.original ∧ d'.manifest = d.manifest) ∨ ∃ m, d.manifest = some m ∧ StillLists m d' ∧
          ∀ p, (∀ c ∈ m.changedFiles, c.path ≠ p) → d'.original.file? p = d.original.file? p) := by
  unfold rollback
  refine post_readManifest (fun _ => ⟨rfl, .inl ⟨rfl, rfl⟩⟩) fun m hm => ?_
  refine post_check (fun _ => ⟨rfl, .inl ⟨rfl, rfl⟩⟩) fun _ => ?_
  generalize selectedRollbackPaths m.changedFiles selection = paths
  have hck := post_iff.mp (checkRollbacks_spec host io now m
    (m.changedFiles.filter fun c => c.accepted && paths.contains c.path) d hm)
  refine post_bind (fun e s h => ?_) fun us s h => ?_
  · obtain ⟨hfs, hlists, -⟩ := hck _ _ h
    exact ⟨hfs.workspace, .inr ⟨m, hm, hlists, fun p _ => by rw [hfs.original]⟩⟩
  rw [(hck _ _ h).2.2 us rfl]
  generalize hS : {p | ∃ c ∈ m.changedFiles, c.path = p} = S
  have hl : WritesOnly S d (each (rollbackChanged host io paths (rollbackHunkSelections selection))
      m.changedFiles d).2 :=
    Eff.Respects.each (fun c hc => writesOnly_rollbackChanged fun _ => by rw [← hS]; exact ⟨c, hc, rfl⟩) d
  have hend : ∀ d₁ : Disk, WritesOnly S d d₁ → ∀ d₂ : Disk, d₂.original = d₁.original → d₂.workspace = d₁.workspace →
      StillLists m d₂ → d₂.workspace = d.workspace ∧
        ((d₂.original = d.original ∧ d₂.manifest = d.manifest) ∨ ∃ m, d.manifest = some m ∧ StillLists m d₂ ∧
          ∀ p, (∀ c ∈ m.changedFiles, c.path ≠ p) → d₂.original.file? p = d.original.file? p) := by
    intro d₁ h₁ d₂ ho hw hlists
    refine ⟨hw.trans h₁.workspace, .inr ⟨m, hm, hlists, fun p hp => ?_⟩⟩
    rw [ho]
    refine h₁.files p ?_
    rw [← hS]
    rintro ⟨c, hc, hcp⟩
    exact hp c hc hcp
  refine post_bind (fun e d₁ h₁ => ?_) fun cs d₁ h₁ => ?_
  · rw [h₁] at hl
    exact hend d₁ hl d₁ rfl rfl (.self (hl.manifest.trans hm))
  rw [h₁] at hl
  have hkept : StillLists m d₁ := .self (hl.manifest.trans hm)
  have hps : ∀ status, SamePaths m { m with status, updatedAt := now, changedFiles := cs } :=
    fun _ => ⟨rfl, rfl, rollbackChanged_paths h₁⟩
  refine post_writeManifest (fun old _ hold => hend d₁ hl _ rfl rfl (hkept.of_failed hold)) fun _ => ?_
  refine post_writeTaskStatus (fun _ => hend d₁ hl _ rfl rfl (.of_some rfl (hps _))) fun _ => ?_
  exact post_attempt (fun _ => hend d₁ hl _ rfl rfl (.of_some rfl (hps _)))
    fun _ => hend d₁ hl _ rfl rfl (.of_some rfl (hps _))

/-! ## A rollback that returns -/

def reselected (path : RelPath) (remaining : List Nat) : List HunkSelection :=
  remaining.map fun hunkIndex => { path, hunkIndex }

/-- What a round does to the file of an accepted entry: the tree that it leaves and the entry that it returns. -/
structure RolledBack (host : Host) (hunks : List HunkSelection) (c : ChangedFile) (d : Disk) (t : Tree)
    (c' : ChangedFile) : Prop where
  path : c'.path = c.path
  restored : ∃ t₁, d.before.restoreSnapshot (.restore c.path) d.original c.path = .ok t₁ ∧
    ((remainingHunks c (pathHunks hunks c.path) = [] ∧ t = t₁ ∧ c'.accepted = false ∧ c'.mergedHunks = none) ∨
      (remainingHunks c (pathHunks hunks c.path) ≠ [] ∧
        applySelectedHunks host (.reapply c.path) d.workspaceTree t₁ c.path
          (reselected c.path (remainingHunks c (pathHunks hunks c.path))) = .ok t ∧
        c'.accepted = c.accepted ∧ c'.mergedHunks = some (remainingHunks c (pathHunks hunks c.path))))

theorem reselected_any {path : RelPath} {remaining : List Nat} (h : remaining ≠ []) :
    (reselected path remaining).any (fun s => s.path = path) = true := by
  obtain ⟨i, rest, hi⟩ := exists_cons_of_ne_nil h
  simp [reselected, hi]

theorem RolledBack.changesAt {t : Tree}
    (h : RolledBack host hunks c d t c') : ∀ q, q ≠ c.path → t.file? q = d.original.file? q := by
  obtain ⟨t₁, ht₁, ⟨-, rfl, -⟩ | ⟨hne, ht, -⟩⟩ := h.restored
  · exact (SnapshotDir.restoreSnapshot_changesAt ht₁).frame
  · intro q hq
    rw [(applySelectedHunks_changesAt (reselected_any hne) ht).frame q hq]
    exact (SnapshotDir.restoreSnapshot_changesAt ht₁).frame q hq

theorem rollbackChanged_eq_ok (h : rollbackChanged host io paths hunks c d = (.ok c', d')) :
    (¬ (c.accepted = true ∧ c.path ∈ paths) ∧ c' = c ∧ d' = d) ∨ (c.accepted = true ∧ c.path ∈ paths) ∧
        ∃ t, d' = { d with original := t } ∧ RolledBack host hunks c d t c' := by
  unfold rollbackChanged at h
  split at h
  · rename_i hc
    obtain ⟨hacc, hpath⟩ := Bool.and_eq_true_iff.mp hc
    refine .inr ⟨⟨hacc, by simpa using hpath⟩, ?_⟩
    rw [read_bind_apply] at h
    obtain ⟨t₁, d₁, h₁, h⟩ := bind_eq_ok.mp h
    obtain ⟨ht₁, rfl⟩ := Prod.mk.inj h₁
    obtain ⟨_, d₂, h₂, h⟩ := bind_eq_ok.mp h
    obtain ⟨-, hw⟩ | ⟨t', -, hw⟩ := writeOriginal_cases io (.restore c.path) c.path t₁ d
    · rw [hw] at h₂
      cases h₂
      split at h
      · rename_i hremaining
        cases h
        exact ⟨t₁, rfl, rfl, t₁, ht₁, .inl ⟨hremaining, rfl, rfl, rfl⟩⟩
      · rename_i hremaining
        have hne : pathHunks hunks c.path ≠ [] := fun hnil => hremaining (if_pos hnil)
        rw [read_bind_apply] at h
        obtain ⟨t₂, d₃, h₃, h⟩ := bind_eq_ok.mp h
        obtain ⟨ht₂, rfl⟩ := Prod.mk.inj h₃
        obtain ⟨_, d₄, h₄, h⟩ := bind_eq_ok.mp h
        obtain ⟨-, hw₂⟩ | ⟨t', -, hw₂⟩ := writeOriginal_cases io (.reapply c.path) c.path t₂ { d with original := t₁ }
        · rw [hw₂] at h₄
          cases h₄
          obtain ⟨_, d₅, h₅, h⟩ := bind_eq_ok.mp h
          have hd₅ : d₅ = { d with original := t₂ } := by
            cases hio : io (.restoreHash c.path) with
            | none =>
                rw [IoPlan.attempt_of_none hio] at h₅
                cases h₅
                rfl
            | some fault =>
                rw [IoPlan.attempt_of_some hio] at h₅
                cases h₅
          rw [hd₅, read_bind_apply] at h
          obtain ⟨hash, d₆, h₆, h⟩ := bind_eq_ok.mp h
          obtain ⟨-, rfl⟩ := Prod.mk.inj h₆
          cases h
          refine ⟨t₂, rfl, rfl, t₁, ht₁, .inr ⟨hremaining, ht₂, rfl, ?_⟩⟩
          exact congrArg some (if_neg hne).symm
        · rw [hw₂] at h₄
          cases h₄
    · rw [hw] at h₂
      cases h₂
  · rename_i hc
    cases h
    refine .inl ⟨fun ⟨hacc, hpath⟩ => hc ?_, rfl, rfl⟩
    simp [hacc, hpath]

include h in
theorem rollbackLoop_frame :
    ∃ t, d' = { d with original := t } ∧ ∀ q, (∀ c ∈ cs, c.path ≠ q) → t.file? q = d.original.file? q := by
  induction cs generalizing d cs' with
  | nil =>
      cases h
      exact ⟨_, rfl, fun _ _ => rfl⟩
  | cons c cs ih =>
      obtain ⟨c₁, d₁, h₁, h⟩ := bind_eq_ok.mp h
      obtain ⟨cs₁, d₂, h₂, h⟩ := bind_eq_ok.mp h
      cases h
      obtain ⟨t, rfl, hframe⟩ := ih h₂
      rcases rollbackChanged_eq_ok h₁ with ⟨-, -, rfl⟩ | ⟨-, t₁, rfl, hrol⟩
      · exact ⟨t, rfl, fun q hq => hframe q fun c hc => hq c (mem_cons_of_mem _ hc)⟩
      · refine ⟨t, rfl, fun q hq => ?_⟩
        rw [hframe q fun c hc => hq c (mem_cons_of_mem _ hc)]
        exact hrol.changesAt q (hq c mem_cons_self).symm

include h in
theorem rollbackLoop_entry (hnd : (cs.map ChangedFile.path).Nodup) (hc : c ∈ cs) :
    ∃ c' ∈ cs', (¬ (c.accepted = true ∧ c.path ∈ paths) ∧ c' = c ∧ d'.original.file? c.path = d.original.file? c.path) ∨
      (c.accepted = true ∧ c.path ∈ paths) ∧ ∃ s t, s.before = d.before ∧ s.workspace = d.workspace ∧
        s.original.file? c.path = d.original.file? c.path ∧ d'.original.file? c.path = t.file? c.path ∧
        RolledBack host hunks c s t c' := by
  induction cs generalizing d cs' with
  | nil => cases hc
  | cons b cs ih =>
      obtain ⟨c₁, d₁, h₁, h⟩ := bind_eq_ok.mp h
      obtain ⟨cs₁, d₂, h₂, h⟩ := bind_eq_ok.mp h
      cases h
      obtain ⟨hhead, htail⟩ := nodup_cons.mp hnd
      rcases mem_cons.mp hc with rfl | hc
      · obtain ⟨t, rfl, hframe⟩ := rollbackLoop_frame h₂
        have hkept := hframe c.path fun b hb heq => hhead (heq ▸ mem_map_of_mem hb)
        refine ⟨c₁, mem_cons_self, ?_⟩
        rcases rollbackChanged_eq_ok h₁ with ⟨hno, rfl, rfl⟩ | ⟨hyes, t₁, rfl, hrol⟩
        · exact .inl ⟨hno, rfl, hkept⟩
        · exact .inr ⟨hyes, d, t₁, rfl, rfl, rfl, hkept, hrol⟩
      · have hne : c.path ≠ b.path := fun heq => hhead (heq ▸ mem_map_of_mem hc)
        have hstep : d₁.before = d.before ∧ d₁.workspace = d.workspace ∧
            d₁.original.file? c.path = d.original.file? c.path := by
          rcases rollbackChanged_eq_ok h₁ with ⟨-, -, rfl⟩ | ⟨-, t₁, rfl, hrol⟩
          · exact ⟨rfl, rfl, rfl⟩
          · exact ⟨rfl, rfl, hrol.changesAt _ hne⟩
        obtain ⟨c', hc', hcase⟩ := ih h₂ htail hc
        refine ⟨c', mem_cons_of_mem _ hc', ?_⟩
        rcases hcase with ⟨hno, heq, hfile⟩ | ⟨hyes, s, t, hbef, hws, hs, hfile, hrol⟩
        · exact .inl ⟨hno, heq, hfile.trans hstep.2.2⟩
        · exact .inr ⟨hyes, s, t, hbef.trans hstep.1, hws.trans hstep.2.1, hs.trans hstep.2.2, hfile, hrol⟩

theorem rollback_eq_ok {o : RollbackOutcome} (h : rollback host io now selection d = (.ok o, d')) :
    ∃ m cs d₁, d.manifest = some m ∧ each (rollbackChanged host io (selectedRollbackPaths m.changedFiles selection)
        (rollbackHunkSelections selection)) m.changedFiles d = (.ok cs, d₁) ∧
      d'.original = d₁.original ∧ ∃ m', d'.manifest = some m' ∧ m'.changedFiles = cs := by
  suffices hpost : Eff.Post d (rollback host io now selection) fun r d' => ∀ o, r = .ok o →
      ∃ m cs d₁, d.manifest = some m ∧
        each (rollbackChanged host io (selectedRollbackPaths m.changedFiles selection)
          (rollbackHunkSelections selection)) m.changedFiles d = (.ok cs, d₁) ∧
        d'.original = d₁.original ∧ ∃ m', d'.manifest = some m' ∧ m'.changedFiles = cs from
    post_iff.mp hpost _ _ h o rfl
  unfold rollback
  refine post_readManifest (fun _ o ho => by cases ho) fun m hm => ?_
  refine post_check (fun _ o ho => by cases ho) fun _ => ?_
  have hck := post_iff.mp (checkRollbacks_spec host io now m (m.changedFiles.filter fun c =>
    c.accepted && (selectedRollbackPaths m.changedFiles selection).contains c.path) d hm)
  refine post_bind (fun e s _ o ho => by cases ho) fun us s hs => ?_
  rw [(hck _ _ hs).2.2 us rfl]
  refine post_bind (fun e s _ o ho => by cases ho) fun cs d₁ h₁ => ?_
  refine post_writeManifest (fun old _ _ o ho => by cases ho) fun _ => ?_
  refine post_writeTaskStatus (fun _ o ho => by cases ho) fun _ => ?_
  exact post_attempt (fun _ o ho => by cases ho) fun _ o ho => ⟨m, cs, d₁, hm, h₁, rfl, _, rfl, rfl⟩

end CodexStudy.NewCore
