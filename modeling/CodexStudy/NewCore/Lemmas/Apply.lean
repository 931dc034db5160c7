import CodexStudy.NewCore.Lemmas.Merge

/-!
# A merge that returns
-/

namespace CodexStudy.NewCore

open CodexStudy.Lib List Eff

variable {host : Host} {io : IoPlan} {now : Nat} {selection : MergeSelection} {d d' : Disk}
variable {accepted : List RelPath} {hunks : List HunkSelection} {cs cs' : List ChangedFile}

inductive Applied (host : Host) (accepted : List RelPath) (hunks : List HunkSelection) :
    List ChangedFile → Disk → List ChangedFile → Disk → Prop where
  | nil (d : Disk) : Applied host accepted hunks [] d [] d
  | skip {c : ChangedFile} {cs cs' : List ChangedFile} {d d' : Disk} : c.path ∉ accepted →
      Applied host accepted hunks cs d cs' d' → Applied host accepted hunks (c :: cs) d (c :: cs') d'
  | apply {c : ChangedFile} {cs cs' : List ChangedFile} {d d' : Disk} {t : Tree} : c.path ∈ accepted →
      mergedTree host hunks d.workspaceTree d.original c.path = .ok t → t.passable c.path.dropLast = true →
      Applied host accepted hunks cs (applied d c t) cs' d' →
      Applied host accepted hunks (c :: cs) d
        (c.merged hunks (hashText host.sha256 (t.file? c.path)) :: cs') d'

theorem applied_of_each (h : each (mergeChanged host io accepted hunks) cs d = (.ok cs', d')) :
    Applied host accepted hunks cs d cs' d' := by
  induction cs generalizing d cs' with
  | nil => cases h; exact .nil _
  | cons c cs ih =>
      obtain ⟨c₁, d₁, h₁, h⟩ := bind_eq_ok.mp h
      obtain ⟨cs₁, d₂, h₂, h⟩ := bind_eq_ok.mp h
      cases h
      rcases mergeChanged_eq_ok h₁ with ⟨hacc, rfl, rfl⟩ | ⟨hacc, t, ht, hpass, rfl, rfl⟩
      · exact .skip hacc (ih h₂)
      · exact .apply hacc ht hpass (ih h₂)

variable {q : RelPath} {c : ChangedFile} {o : MergeOutcome}

namespace Applied

variable (h : Applied host accepted hunks cs d cs' d')

include h in
theorem keepDir (hq : d.original.node? q = some .dir) :
    d'.original.node? q = some .dir ∧ ∀ c ∈ cs, c.path ∈ accepted → c.path ≠ q := by
  induction h with
  | nil d => exact ⟨hq, fun c hc => by cases hc⟩
  | skip hacc _ ih =>
      obtain ⟨hdir, hne⟩ := ih hq
      refine ⟨hdir, fun c hc hc' => ?_⟩
      rcases mem_cons.mp hc with rfl | hc
      · exact absurd hc' hacc
      · exact hne c hc hc'
  | apply _ ht _ _ ih =>
      have hat := mergedTree_changesAt ht
      obtain ⟨hdir, hne⟩ := ih (hat.keepDir q hq)
      refine ⟨hdir, fun c hc hc' => ?_⟩
      rcases mem_cons.mp hc with rfl | hc
      · rintro rfl; exact hat.source hq
      · exact hne c hc hc'

include h in
theorem newDir (hq : d'.original.node? q = some .dir) :
    d.original.node? q = some .dir ∨ ∃ c ∈ cs, c.path ∈ accepted ∧ q <+: c.path := by
  induction h with
  | nil d => exact .inl hq
  | skip _ _ ih =>
      rcases ih hq with hdir | ⟨c, hc, hacc, hpre⟩
      · exact .inl hdir
      · exact .inr ⟨c, mem_cons_of_mem _ hc, hacc, hpre⟩
  | apply hacc ht _ _ ih =>
      rcases ih hq with hdir | ⟨c, hc, hacc', hpre⟩
      · rcases (mergedTree_changesAt ht).newDir q hdir with hdir | hpre
        · exact .inl hdir
        · exact .inr ⟨_, mem_cons_self, hacc, hpre⟩
      · exact .inr ⟨c, mem_cons_of_mem _ hc, hacc', hpre⟩

include h in
theorem frame (hq : ∀ c ∈ cs, c.path ∈ accepted → c.path ≠ q) : d'.original.file? q = d.original.file? q := by
  induction h with
  | nil d => rfl
  | skip _ _ ih => exact ih fun c hc => hq c (mem_cons_of_mem _ hc)
  | apply hacc ht _ _ ih =>
      rw [ih fun c hc => hq c (mem_cons_of_mem _ hc)]
      exact (mergedTree_changesAt ht).frame q (hq _ mem_cons_self hacc).symm

include h in
theorem saved_of_ne
    (hq : ∀ c ∈ cs, c.path ∈ accepted → encodePath q ≠ encodePath c.path) : d'.before.saved q = d.before.saved q := by
  induction h with
  | nil d => rfl
  | skip _ _ ih => exact ih fun c hc => hq c (mem_cons_of_mem _ hc)
  | apply hacc _ _ _ ih =>
      rw [ih fun c hc => hq c (mem_cons_of_mem _ hc)]
      exact SnapshotDir.saved_snapshotFile_of_ne _ (hq _ mem_cons_self hacc)

include h in
theorem paths_eq :
    cs'.map ChangedFile.path = cs.map ChangedFile.path := by
  induction h with
  | nil d => rfl
  | skip _ _ ih => rw [map_cons, map_cons, ih]
  | apply _ _ _ _ ih => rw [map_cons, map_cons, ih]; rfl

include h in
theorem path_mem {c' : ChangedFile} (hc' : c' ∈ cs') :
    ∃ c ∈ cs, c.path = c'.path := by
  have hmem : c'.path ∈ cs'.map ChangedFile.path := mem_map_of_mem hc'
  rw [h.paths_eq] at hmem
  exact mem_map.mp hmem

/-- The paths of the accepted entries are distinct, also as names of snapshots, and none lies above another. -/
structure Apart (accepted : List RelPath) (cs : List ChangedFile) : Prop where
  encoded : (cs.filter fun c => accepted.contains c.path).Pairwise fun a b => encodePath a.path ≠ encodePath b.path
  chain : ∀ a ∈ cs, ∀ b ∈ cs, a.path ∈ accepted → b.path ∈ accepted → a.path <+: b.path → a.path = b.path

theorem Apart.tail (h : Apart accepted (c :: cs)) : Apart accepted cs where
  encoded := by
    have h₁ := h.encoded
    rw [filter_cons] at h₁
    split at h₁
    · exact (pairwise_cons.mp h₁).2
    · exact h₁
  chain a ha b hb := h.chain a (mem_cons_of_mem _ ha) b (mem_cons_of_mem _ hb)

theorem Apart.head (h : Apart accepted (c :: cs)) (hc : c.path ∈ accepted) :
    ∀ b ∈ cs, b.path ∈ accepted → encodePath c.path ≠ encodePath b.path := by
  intro b hb hacc
  have h₁ := h.encoded
  rw [filter_cons, if_pos (by simpa using hc)] at h₁
  exact (pairwise_cons.mp h₁).1 b (mem_filter.mpr ⟨hb, by simpa using hacc⟩)

/-- What the loop leaves of an accepted entry: the snapshot of the file before, the hash of the file after, and a place
where the snapshot can be put back. -/
structure Undo (host : Host) (d d' : Disk) (c' : ChangedFile) : Prop where
  saved : d'.before.saved c'.path = d.original.file? c'.path
  hash : c'.afterMergeHash = hashText host.sha256 (d'.original.file? c'.path)
  notDir : d'.original.node? c'.path ≠ some .dir
  passable : d'.original.passable c'.path.dropLast = true

include h in
theorem undo (hap : Apart accepted cs) (hfr : ∀ c ∈ cs, c.accepted = false) :
    ∀ c' ∈ cs', (c'.accepted = true ↔ c'.path ∈ accepted) ∧ (c'.accepted = true → Undo host d d' c') := by
  induction h with
  | nil d => intro c' hc'; cases hc'
  | @skip c cs cs' d d' hacc hrest ih =>
      intro c' hc'
      rcases mem_cons.mp hc' with rfl | hc'
      · have hno := hfr c' mem_cons_self
        exact ⟨by simp [hno, hacc], by simp [hno]⟩
      · exact ih hap.tail (fun c hc => hfr c (mem_cons_of_mem _ hc)) c' hc'
  | @apply c cs cs' d d' t hacc ht hpass hrest ih =>
      have hat := mergedTree_changesAt ht
      have hhead := hap.head hacc
      -- Neither a later write nor a directory for it touches the path of `c`.
      have hoth : ∀ b ∈ cs, b.path ∈ accepted → b.path ≠ c.path :=
        fun b hb hb' heq => hhead b hb hb' (by rw [heq])
      have hnotUnder : ∀ b ∈ cs, b.path ∈ accepted → ¬ c.path <+: b.path := fun b hb hb' hpre =>
        hoth b hb hb' (hap.chain c mem_cons_self b (mem_cons_of_mem _ hb) hacc hb' hpre).symm
      have hnotOver : ∀ b ∈ cs, b.path ∈ accepted → ¬ b.path <+: c.path := fun b hb hb' hpre =>
        hoth b hb hb' (hap.chain b (mem_cons_of_mem _ hb) c mem_cons_self hb' hacc hpre)
      intro c' hc'
      rcases mem_cons.mp hc' with rfl | hc'
      · refine ⟨⟨fun _ => hacc, fun _ => rfl⟩, fun _ => ⟨?_, ?_, ?_, ?_⟩⟩
        · change d'.before.saved c.path = _
          rw [hrest.saved_of_ne hhead]
          exact SnapshotDir.saved_snapshotFile _ _
        · change hashText host.sha256 (t.file? c.path) = hashText host.sha256 (d'.original.file? c.path)
          rw [hrest.frame hoth]
          rfl
        · intro hdir
          rcases hrest.newDir hdir with hdir | ⟨b, hb, hb', hpre⟩
          · exact hat.target hdir
          · exact hnotUnder b hb hb' hpre
        · refine FileTree.passable_iff.mpr fun q hq => ?_
          have hqc : q <+: c.path := hq.trans ( dropLast_prefix _)
          rw [hrest.frame fun b hb hb' heq => hnotOver b hb hb' (heq ▸ hqc)]
          exact FileTree.passable_iff.mp hpass q hq
      · obtain ⟨hiff, hundo⟩ := ih hap.tail (fun c hc => hfr c (mem_cons_of_mem _ hc)) c' hc'
        refine ⟨hiff, fun hacc' => ?_⟩
        obtain ⟨hsav, hhash, hnot, hpass'⟩ := hundo hacc'
        refine ⟨?_, hhash, hnot, hpass'⟩
        rw [hsav]
        -- The file of a later entry is still the one before the loop.
        obtain ⟨b, hb, hbp⟩ := hrest.path_mem hc'
        refine hat.frame _ ?_
        rw [← hbp]
        exact hoth b hb (by rw [hbp]; exact hiff.mp hacc')

end Applied

/-! ## The disk after a merge that returns -/

def mergedDisk (now : Nat) (m : TaskManifest) (cs : List ChangedFile) (d : Disk) : Disk :=
  DiskOf.released
    { d with
      manifest := some { m with status := .rollbackAvailable, updatedAt := now, changedFiles := cs }
      record := d.record.map fun r => r.withStatus now .rollbackAvailable }
    (mergeLockName m.taskId)

theorem mergeLocked_eq_ok {m : TaskManifest} (h : mergeLocked host io now selection m d = (.ok o, d')) :
    (∀ c ∈ chosen m selection, Unchanged host d.original c) ∧
      ∃ cs d₁, Applied host (selectedPaths m.changedFiles selection) (hunkSelections selection) m.changedFiles d cs d₁ ∧
        d'.released (mergeLockName m.taskId) = mergedDisk now m cs d₁ := by
  suffices hpost : Eff.Post d (mergeLocked host io now selection m) fun r d' => ∀ o, r = .ok o →
      (∀ c ∈ chosen m selection, Unchanged host d.original c) ∧
        ∃ cs d₁, Applied host (selectedPaths m.changedFiles selection) (hunkSelections selection)
          m.changedFiles d cs d₁ ∧ d'.released (mergeLockName m.taskId) = mergedDisk now m cs d₁ from
    post_iff.mp hpost _ _ h o rfl
  unfold mergeLocked
  refine post_attempt (fun _ o ho => by cases ho) fun _ => ?_
  have hck := post_iff.mp (checkConflicts_spec host io now m (chosen m selection) d)
  refine post_bind (fun e s _ o ho => by cases ho) fun us s hs => ?_
  obtain ⟨hd, hun⟩ := (hck _ _ hs).2 us rfl
  rw [hd]
  refine post_bind (fun e s _ o ho => by cases ho) fun cs d₁ h₁ => ?_
  refine post_attempt (fun _ o ho => by cases ho) fun _ => ?_
  refine post_writeManifest (fun old _ _ o ho => by cases ho) fun _ => ?_
  refine post_writeTaskStatus (fun _ o ho => by cases ho) fun _ => ?_
  exact post_attempt (fun _ o ho => by cases ho) fun _ o ho => ⟨hun, cs, d₁, applied_of_each h₁, rfl⟩

theorem merge_eq_ok (h : merge host io now selection d = (.ok o, d')) :
    ∃ m m' s cs d₁, d.manifest = some m ∧ m' = refreshedManifest host now d.original d.workspaceTree m ∧
      FilesKept d s ∧ (∀ c ∈ chosen m' selection, Unchanged host d.original c) ∧
      Applied host (selectedPaths m'.changedFiles selection) (hunkSelections selection) m'.changedFiles
        (s.locked (mergeLockName m'.taskId)) cs d₁ ∧ d' = mergedDisk now m' cs d₁ := by
  obtain ⟨m', s, hrfr, hlock⟩ := bind_eq_ok.mp h
  obtain ⟨hfs, -, -, hret⟩ := post_iff.mp (refreshChanges_spec host io now d) _ _ hrfr
  obtain ⟨-, -, m, hm, hm'⟩ := hret m' rfl
  suffices hpost : Eff.Post s (withLock io .mergeLock (mergeLockName m'.taskId)
      ("merge lock already held for task " ++ m'.taskId.toList)
      (mergeLocked host io now selection m')) fun r d' => ∀ o, r = .ok o →
        (∀ c ∈ chosen m' selection, Unchanged host d.original c) ∧
          ∃ cs d₁, Applied host (selectedPaths m'.changedFiles selection) (hunkSelections selection) m'.changedFiles
            (s.locked (mergeLockName m'.taskId)) cs d₁ ∧ d' = mergedDisk now m' cs d₁ by
    obtain ⟨hun, cs, d₁, happ, hd'⟩ := post_iff.mp hpost _ _ hlock o rfl
    exact ⟨m, m', s, cs, d₁, hm, hm', hfs, hun, happ, hd'⟩
  refine post_withLock (fun _ o ho => by cases ho) (fun _ _ o ho => by cases ho) fun _ _ r d₁ hbody o ho => ?_
  subst ho
  obtain ⟨hun, cs, d₂, happ, hd⟩ := mergeLocked_eq_ok hbody
  refine ⟨fun c hc => ?_, cs, d₂, happ, hd⟩
  rw [← hfs.original]
  exact hun c hc

end CodexStudy.NewCore
