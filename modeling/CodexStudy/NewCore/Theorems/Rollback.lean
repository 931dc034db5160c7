import CodexStudy.NewCore.Lemmas.Apply
import CodexStudy.NewCore.Lemmas.Links

/-!
# A rollback undoes a merge

A rollback trusts the entries that the manifest marks as accepted.
-/

namespace CodexStudy.NewCore

open CodexStudy.Lib List Eff ChangedFile FileTree

variable {host : Host} {σ : Setting} {base : Tree} {d d' : Disk}

def acceptedFiles {τ : Type} (d : DiskOf τ) : List ChangedFile :=
  match d.manifest with
  | some m => m.changedFiles.filter accepted
  | none => []

/-- The steps of a run of merges: edits of the agent, refreshes and merges that return. -/
def MergeRun {τ : Type} [Root τ] (host : Host) (d : DiskOf τ) : ActionOn τ → Prop
  | .editWorkspace _ | .refresh _ _ => True
  | .merge io now selection => ∃ o, (merge host io now selection d).1 = .ok o
  | _ => False

/-- A refresh or a merge finds the files as in `base`, and the chosen files have snapshots of different names. -/
def UndoSafe {τ : Type} [Root τ] (host : Host) (base : Tree) (d : DiskOf τ) : ActionOn τ → Prop
  | .refresh _ _ => ∀ p, (Root.walk d.original).file? p = base.file? p
  | .merge _ now selection => (∀ p, (Root.walk d.original).file? p = base.file? p) ∧ ∀ m, d.manifest = some m →
      (chosen (refreshedManifest host now (Root.walk d.original) d.workspaceTree m) selection).Pairwise
        fun a b => encodePath a.path ≠ encodePath b.path
  | _ => True

/-- What a rollback needs of a merged entry. -/
structure Restorable (host : Host) (base : Tree) (d : Disk) (c : ChangedFile) : Prop where
  dots : ".." ∉ c.path
  saved : d.before.saved c.path = base.file? c.path
  hash : c.afterMergeHash = hashText host.sha256 (d.original.file? c.path)
  notDir : d.original.node? c.path ≠ some .dir
  passable : d.original.passable c.path.dropLast = true

structure Undoable (host : Host) (base : Tree) (d : Disk) : Prop where
  entries : ∀ c ∈ acceptedFiles d, Restorable host base d c
  chain : ∀ a ∈ acceptedFiles d, ∀ b ∈ acceptedFiles d, a.path <+: b.path → a.path = b.path
  nodup : ((acceptedFiles d).map path).Nodup
  others : ∀ p, (∀ c ∈ acceptedFiles d, c.path ≠ p) → d.original.file? p = base.file? p

theorem Undoable.of_none (h : acceptedFiles d = []) (hbase : ∀ p, d.original.file? p = base.file? p) :
    Undoable host base d where
  entries c hc := by rw [h] at hc; cases hc
  chain a ha := by rw [h] at ha; cases ha
  nodup := by rw [h]; exact nodup_nil
  others p _ := hbase p

/-! ## A merge leaves what a rollback needs -/

variable {m : TaskManifest} {selection : MergeSelection}

theorem chosen_chain {now : Nat}
    (hun : ∀ c ∈ chosen (refreshedManifest host now d.original d.workspaceTree m) selection, Unchanged host d.original c)
    (hdir : ∀ c ∈ chosen (refreshedManifest host now d.original d.workspaceTree m) selection,
      d.original.node? c.path ≠ some .dir) :
    ∀ a ∈ chosen (refreshedManifest host now d.original d.workspaceTree m) selection,
      ∀ b ∈ chosen (refreshedManifest host now d.original d.workspaceTree m) selection,
        a.path <+: b.path → a.path = b.path := by
  intro a ha b hb hpre
  by_contra hne
  obtain ⟨hnea, -, haft, -⟩ := refreshed_entry (mem_of_mem_filter ha)
  obtain ⟨hneb, -, hafterb, -⟩ := refreshed_entry (mem_of_mem_filter hb)
  -- No file stands at `a`, for `b` can be read below it; so the workspace has a file at `a`.
  have ha₀ : d.original.file? a.path = none := by
    refine passable_iff.mp (hun b hb).2.1 a.path ?_
    obtain ⟨rest, hrest⟩ := hpre
    have hr : rest ≠ [] := by rintro rfl; rw [append_nil] at hrest; exact hne hrest
    rw [← hrest, dropLast_append_of_ne_nil hr]
    exact prefix_append _ _
  have hwa : d.workspaceTree.tree.node? a.path ≠ some .dir := by
    intro hd
    have hbef : a.beforeHash = none := by rw [← (hun a ha).2.2, ha₀]; rfl
    rw [hbef, haft, workspaceHash, indexed, file?_eq_none_of_dir hd, ite_self] at hnea
    exact hnea rfl
  -- So the workspace has nothing below `a`, and the original root has a file at `b`.
  have hwb : d.workspaceTree.tree.file? b.path = none := by
    by_contra hsome
    have hnode : d.workspaceTree.tree.node? b.path ≠ none :=
      fun hn => hsome (file?_eq_none_of_none hn)
    exact hwa ( dir_of_prefix _ hnode hpre hne)
  have hb₀ : d.original.file? b.path ≠ none := by
    intro hnone
    have hbef : b.beforeHash = none := by rw [← (hun b hb).2.2, hnone]; rfl
    rw [hbef, hafterb, workspaceHash, indexed, hwb, ite_self] at hneb
    exact hneb rfl
  refine hdir a ha ( dir_of_prefix _ (fun hn => hb₀ ?_) hpre hne)
  exact file?_eq_none_of_none hn

theorem acceptedFiles_mergedDisk (now : Nat) (m : TaskManifest) (cs : List ChangedFile) (d : Disk) :
    acceptedFiles (mergedDisk now m cs d) = cs.filter accepted := rfl

theorem undoable_merge {io : IoPlan} {now : Nat} {o : MergeOutcome}
    (h : merge host io now selection d = (.ok o, d')) (hbase : ∀ p, d.original.file? p = base.file? p)
    (hencode : ∀ m, d.manifest = some m →
      (chosen (refreshedManifest host now d.original d.workspaceTree m) selection).Pairwise
        fun a b => encodePath a.path ≠ encodePath b.path) : Undoable host base d' := by
  obtain ⟨m, m', s, cs, d₁, hm, hm', hfs, hun, happ, rfl⟩ := merge_eq_ok h
  have hs : (s.locked (mergeLockName m'.taskId)).original = d.original := hfs.original
  have hmem : ∀ c ∈ m'.changedFiles, c.path ∈ selectedPaths m'.changedFiles selection → c ∈ chosen m' selection :=
    fun c hc hsel => mem_filter.mpr ⟨hc, by simpa using hsel⟩
  have hdir : ∀ c ∈ chosen m' selection, d.original.node? c.path ≠ some .dir := by
    intro c hc hd
    obtain ⟨hc, hsel⟩ := mem_filter.mp hc
    exact (happ.keepDir (q := c.path) (by rw [hs]; exact hd)).2 c hc (by simpa using hsel) rfl
  have hchain : ∀ a ∈ chosen m' selection, ∀ b ∈ chosen m' selection, a.path <+: b.path → a.path = b.path := by
    subst hm'
    exact chosen_chain hun hdir
  have hapart : Applied.Apart (selectedPaths m'.changedFiles selection) m'.changedFiles := by
    refine ⟨by subst hm'; exact hencode m hm, fun a ha b hb hsa hsb => ?_⟩
    exact hchain a (hmem a ha hsa) b (hmem b hb hsb)
  have hundo := happ.undo hapart (fun c hc => by subst hm'; exact (refreshed_entry hc).2.2.2)
  -- Every merged entry comes from a chosen one.
  have horigin : ∀ c' ∈ cs.filter accepted, ∃ c ∈ chosen m' selection, c.path = c'.path := by
    intro c' hc'
    obtain ⟨hc', hacc⟩ := mem_filter.mp hc'
    obtain ⟨c, hc, hcp⟩ := happ.path_mem hc'
    exact ⟨c, hmem c hc (by rw [hcp]; exact (hundo c' hc').1.mp hacc), hcp⟩
  refine ⟨?_, ?_, ?_, ?_⟩ <;> rw [acceptedFiles_mergedDisk]
  · intro c' hc'
    obtain ⟨c, hc, hcp⟩ := horigin c' hc'
    obtain ⟨hc'₁, hacc⟩ := mem_filter.mp hc'
    obtain ⟨hsav, hhash, hnot, hpass⟩ := (hundo c' hc'₁).2 hacc
    refine ⟨by rw [← hcp]; exact (hun c hc).1, ?_, hhash, hnot, hpass⟩
    exact hsav.trans (by rw [hs]; exact hbase _)
  · intro a ha b hb hpre
    obtain ⟨a₀, ha₀, hap⟩ := horigin a ha
    obtain ⟨b₀, hb₀, hbp⟩ := horigin b hb
    rw [← hap, ← hbp] at hpre ⊢
    exact hchain a₀ ha₀ b₀ hb₀ hpre
  · refine List.Sublist.nodup (List.Sublist.map _ filter_sublist) ?_
    rw [happ.paths_eq]
    subst hm'
    exact nodup_refreshed
  · intro p hp
    refine Eq.trans ?_ (hbase p)
    change d₁.original.file? p = _
    rw [← hs]
    refine happ.frame fun c hc hsel hcp => ?_
    have hcs : p ∈ cs.map path := by
      rw [happ.paths_eq, ← hcp]; exact mem_map_of_mem hc
    obtain ⟨c', hc', hcp'⟩ := mem_map.mp hcs
    refine hp c' (mem_filter.mpr ⟨hc', (hundo c' hc').1.mpr ?_⟩) hcp'
    rw [hcp', ← hcp]
    exact hsel

theorem Undoable.step {a : Action} (h : Undoable σ.host base d) (hrun : MergeRun σ.host d a)
    (hsafe : UndoSafe σ.host base d a) (hstep : TaskStep σ d a d') : Undoable σ.host base d' := by
  subst hstep
  cases a with
  | editWorkspace ws => exact ⟨fun c hc => ⟨(h.entries c hc).1, (h.entries c hc).2, (h.entries c hc).3,
      (h.entries c hc).4, (h.entries c hc).5⟩, h.chain, h.nodup, h.others⟩
  | refresh io now =>
      obtain ⟨hfs, hman, -, -⟩ :=
        post_iff.mp (refreshChanges_spec σ.host io now d) _ (refreshChanges σ.host io now d).2 rfl
      change Undoable σ.host base (refreshChanges σ.host io now d).2
      generalize (refreshChanges σ.host io now d).2 = d' at hfs hman ⊢
      have hbase : ∀ p, d'.original.file? p = base.file? p := fun p => by rw [hfs.original]; exact hsafe p
      rcases hman with heq | heq | ⟨m, hm, -, heq⟩
      · have hacc : acceptedFiles d' = acceptedFiles d := by rw [acceptedFiles, heq]; rfl
        refine ⟨?_, ?_, ?_, ?_⟩ <;> rw [hacc]
        · intro c hc
          obtain ⟨hdots, hsav, hhash, hnot, hpass⟩ := h.entries c hc
          exact ⟨hdots, by rw [hfs.before]; exact hsav, by rw [hfs.original]; exact hhash,
            by rw [hfs.original]; exact hnot, by rw [hfs.original]; exact hpass⟩
        · exact h.chain
        · exact h.nodup
        · exact fun p _ => hbase p
      · exact .of_none (by rw [acceptedFiles, heq]) hbase
      · refine .of_none ?_ hbase
        rw [acceptedFiles, heq]
        refine filter_eq_nil_iff.mpr fun c hc => ?_
        rw [(refreshed_entry hc).2.2.2]
        simp
  | merge io now selection =>
      obtain ⟨o, ho⟩ := hrun
      exact undoable_merge (Prod.ext ho rfl) hsafe.1 hsafe.2
  | editOriginal tree | rollback io now selection | runTest io now command | review io now
  | summarize io now | resume io now | archive io now taskId => exact hrun.elim

/-! ## A rollback of all merged files -/

section

variable {io : IoPlan} {now : Nat}

theorem selectedRollbackPaths_all (cs : List ChangedFile) :
    selectedRollbackPaths cs .all = (cs.filter accepted).map path := by
  refine congrArg (map path) (filter_congr fun c hc => ?_)
  cases hacc : c.accepted with
  | false => rfl
  | true =>
      simp only [Bool.true_and, contains_iff_mem]
      exact mem_map_of_mem (mem_filter.mpr ⟨hc, hacc⟩)

theorem checkRollback_of_unchanged {c : ChangedFile} (hio : ∀ pt, io pt = none)
    (h : Restorable host base d c) : checkRollback host io now m c d = (.ok (), d) := by
  have hj : checkedJoin c.path = .ok c.path := checkedJoin_eq_ok.mpr ⟨h.dots, rfl⟩
  have hh : fileHash host.sha256 (.rollbackHash c.path) d.original c.path = .ok c.afterMergeHash :=
    fileHash_eq_ok.mpr ⟨h.passable, h.hash⟩
  simp only [checkRollback, hj, IoPlan.attempt_of_none (hio _), lift_ok_bind, pure_bind,
    read_bind_apply, hh, ↓reduceIte, pure_apply]

theorem checkRollbacks_of_unchanged {cs : List ChangedFile} (hio : ∀ pt, io pt = none)
    (h : ∀ c ∈ cs, Restorable host base d c) :
    each (checkRollback host io now m) cs d = (.ok (cs.map fun _ => ()), d) := by
  induction cs with
  | nil => rfl
  | cons c cs ih =>
      rw [each, bind_of_ok (checkRollback_of_unchanged hio (h c mem_cons_self)),
        bind_of_ok (ih fun c' hc' => h c' (mem_cons_of_mem _ hc'))]
      rfl

variable (host) in
theorem rollbackChanged_restores {paths : List RelPath} {c : ChangedFile} (hio : ∀ pt, io pt = none)
    (hacc : c.accepted = true) (hpath : c.path ∈ paths) (hdots : ".." ∉ c.path)
    (hdir : d.original.node? c.path ≠ some .dir) (hpass : d.original.passable c.path.dropLast = true) :
    ∃ c' t, rollbackChanged host io paths [] c d = (.ok c', { d with original := t }) ∧
      ChangesAt c.path d.original t ∧ t.file? c.path = d.before.saved c.path := by
  obtain ⟨t, ht, hat, hfile⟩ :=
    SnapshotDir.restoreSnapshot_ok (.restore c.path) d.before hdots hdir hpass
  have hremaining : remainingHunks c (pathHunks [] c.path) = [] := if_pos rfl
  have hchosen : (c.accepted && paths.contains c.path) = true := by simp [hacc, hpath]
  refine ⟨{ c with accepted := false, afterMergeHash := none, mergedHunks := none, mergeStatus := "pending" }, t,
    ?_, hat, hfile⟩
  simp only [rollbackChanged, hchosen, ↓reduceIte, read_bind_apply, ht, lift_ok_bind, writeOriginal, hio,
    modify_bind_apply, hremaining, pure_apply]

variable (host io) in
theorem rollbackChanged_loop (paths : List RelPath) (cs : List ChangedFile) (hio : ∀ pt, io pt = none)
    (h : ∀ c ∈ cs, c.accepted = true → c.path ∈ paths ∧ ".." ∉ c.path ∧
      d.original.node? c.path ≠ some .dir ∧ d.original.passable c.path.dropLast = true)
    (hchain : ∀ a ∈ cs, ∀ b ∈ cs, a.accepted = true → b.accepted = true → a.path <+: b.path → a.path = b.path)
    (hnodup : ((cs.filter accepted).map path).Nodup) :
    ∃ cs' t, each (rollbackChanged host io paths []) cs d = (.ok cs', { d with original := t }) ∧
      ∀ p, t.file? p = if p ∈ (cs.filter accepted).map path then d.before.saved p
        else d.original.file? p := by
  induction cs generalizing d with
  | nil => exact ⟨[], d.original, rfl, fun p => rfl⟩
  | cons c cs ih =>
      have hchain' := fun a ha b hb => hchain a (mem_cons_of_mem _ ha) b (mem_cons_of_mem _ hb)
      cases hacc : c.accepted with
      | false =>
          have hskip : rollbackChanged host io paths [] c = (pure c : Op ChangedFile) := by
            simp [rollbackChanged, hacc]
          rw [filter_cons_of_neg (by simp [hacc])] at hnodup ⊢
          obtain ⟨cs', t, hrun, hfile⟩ := ih (fun b hb => h b (mem_cons_of_mem _ hb)) hchain' hnodup
          refine ⟨c :: cs', t, ?_, hfile⟩
          rw [each, hskip, pure_bind, bind_of_ok hrun]
          rfl
      | true =>
          rw [filter_cons_of_pos hacc, map_cons] at hnodup ⊢
          obtain ⟨hnew, hnodup⟩ := nodup_cons.mp hnodup
          obtain ⟨hpath, hdots, hdir, hpass⟩ := h c mem_cons_self hacc
          obtain ⟨c', t₁, hround, hat, hsaved⟩ := rollbackChanged_restores host hio hacc hpath hdots hdir hpass
          -- The restored file is neither at, above nor below a file that is still to be restored.
          have hother : ∀ b ∈ cs, b.accepted = true → b.path ≠ c.path := fun b hb hb' heq =>
            hnew (heq ▸ mem_map_of_mem (mem_filter.mpr ⟨hb, hb'⟩))
          have hstill : ∀ b ∈ cs, b.accepted = true → b.path ∈ paths ∧ ".." ∉ b.path ∧
              t₁.node? b.path ≠ some .dir ∧ t₁.passable b.path.dropLast = true := by
            intro b hb hb'
            obtain ⟨hpath, hdots, hdir, hpass⟩ := h b (mem_cons_of_mem _ hb) hb'
            refine ⟨hpath, hdots, fun hd => ?_, passable_iff.mpr fun q hq => ?_⟩
            · rcases hat.newDir _ hd with hd | hpre
              · exact hdir hd
              · exact hother b hb hb' (hchain b (mem_cons_of_mem _ hb) c mem_cons_self hb' hacc hpre)
            · have hqb : q <+: b.path := hq.trans ( dropLast_prefix _)
              rw [hat.frame q]
              · exact passable_iff.mp hpass q hq
              · rintro rfl
                exact hother b hb hb'
                  (hchain c mem_cons_self b (mem_cons_of_mem _ hb) hacc hb' hqb).symm
          obtain ⟨cs', t, hrun, hfile⟩ := ih (d := { d with original := t₁ }) hstill hchain' hnodup
          refine ⟨c' :: cs', t, ?_, fun p => ?_⟩
          · rw [each, bind_of_ok hround, bind_of_ok hrun]
            rfl
          · rw [hfile p]
            by_cases hp : p = c.path
            · subst hp
              rw [if_neg hnew, if_pos mem_cons_self]
              exact hsaved
            · by_cases hmem : p ∈ (cs.filter accepted).map path
              · rw [if_pos hmem, if_pos (mem_cons_of_mem _ hmem)]
              · rw [if_neg hmem, if_neg (by simpa [hp] using hmem)]
                exact hat.frame p hp

end

theorem Undoable.rollback (h : Undoable host base d) (now : Nat) : ((∃ p, d.original.file? p ≠ base.file? p) →
        ∃ o, (NewCore.rollback host .healthy now .all d).1 = .ok o) ∧
      ∀ p, (NewCore.rollback host .healthy now .all d).2.original.file? p = base.file? p := by
  rcases hm : d.manifest with _ | m
  · have hnone : acceptedFiles d = [] := by rw [acceptedFiles, hm]
    have hbase : ∀ p, d.original.file? p = base.file? p :=
      fun p => h.others p fun c hc => by rw [hnone] at hc; cases hc
    refine ⟨fun ⟨p, hp⟩ => absurd (hbase p) hp, fun p => ?_⟩
    have hread : readManifest d = (.error .missingFile, d) := by simp [readManifest, hm]
    rw [NewCore.rollback, bind_of_error hread]
    exact hbase p
  have hacc : acceptedFiles d = m.changedFiles.filter accepted := by rw [acceptedFiles, hm]
  have hread : readManifest d = (.ok m, d) := by simp [readManifest, hm]
  generalize hps : (m.changedFiles.filter accepted).map path = paths
  have hsel : selectedRollbackPaths m.changedFiles .all = paths := by rw [selectedRollbackPaths_all, hps]
  by_cases hemp : paths = []
  · have hnone : acceptedFiles d = [] := by rw [hacc]; exact map_eq_nil_iff.mp (hps.trans hemp)
    have hbase : ∀ p, d.original.file? p = base.file? p :=
      fun p => h.others p fun c hc => by rw [hnone] at hc; cases hc
    refine ⟨fun ⟨p, hp⟩ => absurd (hbase p) hp, fun p => ?_⟩
    rw [NewCore.rollback, bind_of_ok hread]
    simp only [hsel, hemp]
    exact hbase p
  · have hcho : (m.changedFiles.filter fun c => c.accepted && paths.contains c.path) = acceptedFiles d := by
      rw [hacc]
      refine filter_congr fun c hc => ?_
      cases hc' : c.accepted with
      | false => rfl
      | true =>
          rw [Bool.true_and, contains_iff_mem, ← hps]
          exact mem_map_of_mem (mem_filter.mpr ⟨hc, hc'⟩)
    have hck : each (checkRollback host .healthy now m) (acceptedFiles d) d = (.ok _, d) :=
      checkRollbacks_of_unchanged (fun _ => rfl) h.entries
    have hmem : ∀ c ∈ m.changedFiles, c.accepted = true → c ∈ acceptedFiles d :=
      fun c hc hc' => by rw [hacc]; exact mem_filter.mpr ⟨hc, hc'⟩
    obtain ⟨cs', t, hloop, hfile⟩ := rollbackChanged_loop host .healthy paths m.changedFiles (d := d) (fun _ => rfl)
      (fun c hc hc' => by
        obtain ⟨hdots, -, -, hdir, hpass⟩ := h.entries c (hmem c hc hc')
        refine ⟨?_, hdots, hdir, hpass⟩
        rw [← hps]; exact mem_map_of_mem (mem_filter.mpr ⟨hc, hc'⟩))
      (fun a ha b hb ha' hb' => h.chain a (hmem a ha ha') b (hmem b hb hb'))
      (by rw [← hacc]; exact h.nodup)
    have hrestored : ∀ p, t.file? p = base.file? p := by
      intro p
      rw [hfile p, ← hacc]
      split
      · rename_i hp
        obtain ⟨c, hc, rfl⟩ := mem_map.mp hp
        exact (h.entries c hc).saved
      · rename_i hp
        exact h.others p fun c hc hcp => hp (mem_map.mpr ⟨c, hc, hcp⟩)
    have hne : (!paths.isEmpty) = true := by simpa using hemp
    have hrun : ∃ o d', NewCore.rollback host .healthy now .all d = (.ok o, d') ∧ d'.original = t := by
      rw [NewCore.rollback, bind_of_ok hread]
      simp only [hsel, hne, check_true_bind, hcho, rollbackHunkSelections]
      rw [bind_of_ok hck, bind_of_ok hloop]
      exact ⟨_, _, rfl, rfl⟩
    obtain ⟨o, d', hrun, ht⟩ := hrun
    rw [hrun]
    exact ⟨fun _ => ⟨o, rfl⟩, fun p => by rw [show (d'.original) = t from ht]; exact hrestored p⟩

/-- The steps of a run that a rollback undoes. -/
def UndoableStep {τ : Type} [Root τ] [LawfulRoot τ] (host : Host) (base : Tree) (d : DiskOf τ) (a : ActionOn τ) :
    Prop :=
  MergeRun host d a ∧ UndoSafe host base d a ∧ ChoosesPlain host d a

theorem Undoable.run {τ : Type} [Root τ] [LawfulRoot τ] {d d' : DiskOf τ} {as : List (ActionOn τ)}
    (h : Undoable σ.host base d.walked) (hrun : Run (Guarded (UndoableStep σ.host base) (TaskStep σ)) d as d') :
    Undoable σ.host base d'.walked := by
  refine hrun.invariant (I := fun d => Undoable σ.host base d.walked) h
    fun d a d' hs ⟨⟨hmerges, hsafe, hplain⟩, hstep⟩ => ?_
  subst hstep
  cases a with
  | editWorkspace ws => exact hs.step (a := .editWorkspace ws) trivial trivial rfl
  | refresh io now =>
      exact hs.step (a := .refresh io now) trivial hsafe (congrArg Prod.snd (walked_refreshChanges ..).symm)
  | merge io now selection =>
      have hwalked := walked_merge hplain
      obtain ⟨o, ho⟩ := hmerges
      have ho' : (merge σ.host io now selection d.walked).1 = .ok o := (congrArg Prod.fst hwalked).trans ho
      exact hs.step (a := .merge io now selection) ⟨o, ho'⟩ hsafe (congrArg Prod.snd hwalked.symm)
  | editOriginal tree | rollback io now selection | runTest io now command | review io now
  | summarize io now | resume io now | archive io now taskId => exact hmerges.elim

/-- In every run of merges of plain paths that return, refreshes and edits of the agent in which every refresh finds
the project as it was at the start, a rollback of all merged files returns if a file differs from the start, and
leaves every file as it was at the start. -/
theorem rollback_undoes_merges {τ : Type} [Root τ] [LawfulRoot τ] (σ : Setting) (d₀ d : DiskOf τ)
    (as : List (ActionOn τ)) (now : Nat) (hstart : acceptedFiles d₀ = [])
    (hrun : Run (Guarded (UndoableStep σ.host (Root.walk d₀.original)) (TaskStep σ)) d₀ as d)
    (hplain : ChoosesPlain σ.host d (.rollback .healthy now .all)) :
    ((∃ p, (Root.walk d.original).file? p ≠ (Root.walk d₀.original).file? p) →
        ∃ o, (rollback σ.host .healthy now .all d).1 = .ok o) ∧
      ∀ p, (Root.walk (rollback σ.host .healthy now .all d).2.original).file? p =
        (Root.walk d₀.original).file? p := by
  have h₀ : Undoable σ.host (Root.walk d₀.original) d₀.walked := .of_none hstart fun _ => rfl
  have h := (h₀.run hrun).rollback now
  rw [walked_rollback hplain] at h
  exact h

/-! ## Two files, merged at once and one after the other -/

def sampleFiles (content : String) : Tree := sampleTree [(["a.txt"], content), (["b.txt"], content)]

def sampleChangedOn {τ : Type} [Root τ] (original : τ) : DiskOf τ :=
  { sampleTask original with workspace := some (.ofTree (sampleFiles "agent")) }

def sampleChanged : Disk := sampleChangedOn (sampleFiles "base")

def sampleMerges {τ : Type} [Root τ] (d : DiskOf τ) (selections : List MergeSelection) : DiskOf τ :=
  selections.foldl (fun d selection => (merge sampleSetting.host .healthy 1 selection d).2) d

/-- The two files, with a link that leads to one of them. -/
def sampleLinked : DiskOf LinkedRoot :=
  sampleChangedOn { tree := sampleFiles "base", links := [(["l.txt"], ["b.txt"])], apart := by decide +kernel }

theorem rollback_undoes_sample_merge :
    (∃ o, (rollback sampleSetting.host .healthy 2 .all (sampleMerges sampleLinked [.all])).1 = .ok o) ∧
      ∀ p, (Root.walk (rollback sampleSetting.host .healthy 2 .all (sampleMerges sampleLinked [.all])).2.original).file?
        p = sampleLinked.original.tree.file? p := by
  have hok : ∃ o, (merge sampleSetting.host .healthy 1 .all sampleLinked).1 = .ok o :=
    exists_ok_of_not_failed (by decide +kernel)
  have hps : ∀ m ∈ sampleLinked.manifest, (chosen (refreshedManifest sampleSetting.host 1 sampleLinked.original.tree
      sampleLinked.workspaceTree m) .all).Pairwise fun a b => encodePath a.path ≠ encodePath b.path := by
    decide +kernel
  have hplain : ∀ m ∈ sampleLinked.manifest, ∀ c ∈ chosen (refreshedManifest sampleSetting.host 1
      sampleLinked.original.tree sampleLinked.workspaceTree m) .all, Unlinked sampleLinked.original.links c.path := by
    decide +kernel
  have hback : ∀ m ∈ (sampleMerges sampleLinked [.all]).manifest, ∀ c ∈ chosenToUndo m .all,
      Unlinked (sampleMerges sampleLinked [.all]).original.links c.path := by decide +kernel
  have hdiff : (sampleMerges sampleLinked [.all]).original.tree.file? ["a.txt"] ≠
      sampleLinked.original.tree.file? ["a.txt"] := by decide +kernel
  have h := rollback_undoes_merges sampleSetting sampleLinked (sampleMerges sampleLinked [.all])
    [.merge .healthy 1 .all] 2 (by decide +kernel)
    (.cons ⟨⟨hok, ⟨fun _ => rfl, hps⟩, fun m hm c hc => plainAt_ofTree (hplain m hm c hc)⟩, rfl⟩ (.nil _))
    fun m hm c hc => plainAt_ofTree (hback m hm c hc)
  exact ⟨h.1 ⟨_, hdiff⟩, h.2⟩

/-- After two files are merged one after the other, a rollback of all returns and leaves the one merged first. -/
theorem rollback_forgets_first_merge :
    (∃ o, (merge sampleSetting.host .healthy 1 (.files [["a.txt"]]) sampleChanged).1 = .ok o) ∧
      (∃ o, (merge sampleSetting.host .healthy 1 (.files [["b.txt"]])
        (sampleMerges sampleChanged [.files [["a.txt"]]])).1 = .ok o) ∧
      (∃ o, (rollback sampleSetting.host .healthy 2 .all
        (sampleMerges sampleChanged [.files [["a.txt"]], .files [["b.txt"]]])).1 = .ok o) ∧
      (rollback sampleSetting.host .healthy 2 .all
        (sampleMerges sampleChanged [.files [["a.txt"]], .files [["b.txt"]]])).2.original.file? ["a.txt"] = some (.text "agent") ∧
      sampleChanged.original.file? ["a.txt"] = some (.text "base") := by
  refine ⟨exists_ok_of_not_failed ?_, exists_ok_of_not_failed ?_, exists_ok_of_not_failed ?_, ?_, ?_⟩
  · decide +kernel
  · decide +kernel
  · decide +kernel
  · decide +kernel
  · decide +kernel

end CodexStudy.NewCore
