import CodexStudy.NewCore.Links
import CodexStudy.NewCore.Lemmas.Rollback

/-!
# Merges and rollbacks of plain paths

While the paths that an operation chooses are plain, it does to the walk of a project what it does to a project without
links.
-/

namespace CodexStudy.NewCore

open CodexStudy.Lib Eff

variable {τ : Type} [Root τ] [LawfulRoot τ] {t : τ} {ws : Workspace} {path : RelPath} {pt : IoPoint}

/-! ## One write -/

/-- The result `x` on the project `t` is the result `y` on its walk, and the plain paths stay plain. -/
structure Mirrors (t : τ) (x : Except CodexNewError τ) (y : Except CodexNewError Tree) : Prop where
  walk : y = x.map Root.walk
  plain : ∀ t', x = .ok t' → ∀ p, Plain t p → Plain t' p

theorem mirrors_ok (t : τ) : Mirrors t (.ok t) (.ok (Root.walk t)) where
  walk := rfl
  plain := by rintro _ ⟨⟩ p hp; exact hp

theorem mirrors_error (t : τ) (e : CodexNewError) : Mirrors t (.error e) (.error e) where
  walk := rfl
  plain := fun _ h => by cases h

theorem mirrors_bind {α : Type} {x : Except CodexNewError α} {f : α → Except CodexNewError τ}
    {g : α → Except CodexNewError Tree} (h : ∀ a, x = .ok a → Mirrors t (f a) (g a)) :
    Mirrors t (x >>= f) (x >>= g) := by
  cases x with
  | error e => exact mirrors_error t e
  | ok a => exact h a rfl

theorem mirrors_orIo {o : Option τ} {o' : Option Tree} (hwalk : o.map Root.walk = o')
    (hplain : ∀ t', o = some t' → ∀ p, Plain t p → Plain t' p) : Mirrors t (orIo pt o) (orIo pt o') := by
  subst hwalk
  cases o with
  | none => exact mirrors_error t _
  | some t' =>
      refine ⟨rfl, ?_⟩
      rintro _ ⟨⟩
      exact hplain t' rfl

theorem mirrors_writeAll (c : Content) (h : Plain t path) :
    Mirrors t (orIo pt (Root.writeAll t path c)) (orIo pt (Root.writeAll (Root.walk t) path c)) :=
  mirrors_orIo (LawfulRoot.walk_writeAll c h) fun _ ht' _ => LawfulRoot.plain_writeAll h ht'

theorem mirrors_removeIfPresent (h : Plain t path) :
    Mirrors t (removeIfPresent pt t path) (removeIfPresent pt (Root.walk t) path) := by
  have hpresent : Root.present (Root.walk t) path = Root.present t path := (LawfulRoot.present_eq h).symm
  unfold removeIfPresent
  rw [hpresent]
  split
  · exact mirrors_orIo (LawfulRoot.walk_removeFile h) fun _ ht' _ => LawfulRoot.plain_removeFile h ht'
  · exact mirrors_ok t

theorem PlainAt.read_eq (h : PlainAt ws t path) : ws.read (Root.walk t) path = ws.read t path := by
  unfold Workspace.read
  split
  · rfl
  · rename_i q hq
    exact (LawfulRoot.file?_eq (h.2 q hq)).symm

theorem PlainAt.present_eq (h : PlainAt ws t path) : ws.present (Root.walk t) path = ws.present t path := by
  unfold Workspace.present
  split
  · rfl
  · rename_i q hq
    exact (LawfulRoot.present_eq (h.2 q hq)).symm

theorem mirrors_copyFileOrRemove (h : PlainAt ws t path) :
    Mirrors t (copyFileOrRemove pt ws t path) (copyFileOrRemove pt ws (Root.walk t) path) := by
  refine mirrors_bind fun q hq => ?_
  obtain ⟨-, rfl⟩ := checkedJoin_eq_ok.mp hq
  rw [h.read_eq]
  split
  · exact mirrors_writeAll _ h.1
  · exact mirrors_removeIfPresent h.1

theorem readFileLines_walk (h : Plain t path) : readFileLines pt (Root.walk t) path = readFileLines pt t path := by
  have hpresent : Root.present (Root.walk t) path = Root.present t path := (LawfulRoot.present_eq h).symm
  have hfile : Root.file? (Root.walk t) path = Root.file? t path := (LawfulRoot.file?_eq h).symm
  unfold readFileLines
  rw [hpresent, hfile]

theorem mirrors_applySelectedHunks (host : Host) (selections : List HunkSelection) (h : PlainAt ws t path) :
    Mirrors t (applySelectedHunks host pt ws t path selections)
      (applySelectedHunks host pt ws (Root.walk t) path selections) := by
  unfold applySelectedHunks
  dsimp only
  split
  · exact mirrors_ok t
  refine mirrors_bind fun q hq => ?_
  obtain ⟨-, rfl⟩ := checkedJoin_eq_ok.mp hq
  rw [h.present_eq, unifiedDiff_eq host ws t (Root.walk t), readFileLines_walk h.1]
  split
  · refine mirrors_bind fun unified _ => ?_
    split
    · refine mirrors_bind fun lines _ => mirrors_bind fun merged _ => ?_
      exact mirrors_writeAll _ h.1
    · exact mirrors_copyFileOrRemove h
  · exact mirrors_removeIfPresent h.1

theorem mirrors_mergedTree (host : Host) (hunks : List HunkSelection) (h : PlainAt ws t path) :
    Mirrors t (mergedTree host hunks ws t path) (mergedTree host hunks ws (Root.walk t) path) := by
  unfold mergedTree
  split
  · exact mirrors_applySelectedHunks host hunks h
  · exact mirrors_copyFileOrRemove h

theorem mirrors_restoreSnapshot (dir : SnapshotDir) (h : Plain t path) :
    Mirrors t (dir.restoreSnapshot pt t path) (dir.restoreSnapshot pt (Root.walk t) path) := by
  refine mirrors_bind fun q hq => ?_
  obtain ⟨-, rfl⟩ := checkedJoin_eq_ok.mp hq
  split
  · exact mirrors_removeIfPresent h
  · split
    · exact mirrors_writeAll _ h
    · exact mirrors_removeIfPresent h

theorem fileHash_walk (sha256 : Content → Text) (h : Plain t path) :
    fileHash sha256 pt (Root.walk t) path = fileHash sha256 pt t path := by
  have hlstat : Root.lstat? (Root.walk t) path = Root.lstat? t path := (LawfulRoot.lstat?_eq h).symm
  unfold fileHash
  rw [hlstat]

/-! ## The operations -/

def OnRoots (P : τ → Option Workspace → Prop) (d : DiskOf τ) : Prop := P d.original d.workspace

/-- From `s`, `x` does what `y` does to the disk without links, and leaves two roots with `P`. -/
abbrev Tracks {α : Type} (P : τ → Option Workspace → Prop) (s : DiskOf τ) (x : OpOn τ α) (y : Op α) : Prop :=
  Refines (OnRoots P) DiskOf.walked s x y

section

variable {α : Type} {P : τ → Option Workspace → Prop} {s : DiskOf τ} {host : Host} {io : IoPlan} {now : Nat}

omit [LawfulRoot τ]

theorem tracks_attempt (hs : OnRoots P s) : Tracks P s (io.attempt pt) (io.attempt pt) :=
  refines_check hs _ _

theorem tracks_writeManifest (hs : OnRoots P s) (m : TaskManifest) :
    Tracks P s (writeManifest io pt m) (writeManifest io pt m) := by
  unfold writeManifest
  split
  · exact refines_modify rfl hs
  · exact refines_fail hs _
  · exact Refines.bind (refines_modify rfl hs) fun _ _ _ hs => refines_fail hs _

theorem tracks_writeTaskStatus (hs : OnRoots P s) (status : TaskStatus) :
    Tracks P s (writeTaskStatus io pt now status) (writeTaskStatus io pt now status) :=
  (tracks_attempt hs).bind fun _ _ _ hs => refines_modify rfl hs

theorem tracks_readManifest_bind {f : TaskManifest → OpOn τ α} {g : TaskManifest → Op α}
    (hs : OnRoots P s) (h : ∀ m, s.manifest = some m → Tracks P s (f m) (g m)) :
    Tracks P s (readManifest >>= f) (readManifest >>= g) := by
  refine Refines.bind (x := readManifest) (y := readManifest) ?_ fun m s' hread hs' => ?_
  · refine refines_read_bind ?_
    have hwalked : s.walked.manifest = s.manifest := rfl
    rw [hwalked]
    rcases s.manifest with _ | m
    · exact refines_fail hs _
    · exact refines_pure hs m
  · rcases hm : s.manifest with _ | m₁
    · simp [readManifest, hm] at hread
    · simp only [readManifest, read_bind_apply, hm, pure_apply, Prod.mk.injEq, Except.ok.injEq] at hread
      obtain ⟨rfl, rfl⟩ := hread
      exact h _ hm

theorem tracks_withLock {name held : Text} {x : OpOn τ α} {y : Op α} (hs : OnRoots P s)
    (hbody : ∀ s, OnRoots P s → Tracks P s x y) :
    Tracks P s (withLock io pt name held x) (withLock io pt name held y) := by
  unfold withLock
  refine refines_read_bind ?_
  refine Refines.bind (refines_check hs _ _) fun _ s _ hs => ?_
  split
  · refine Refines.bind (refines_modify rfl hs) fun _ s _ hs => ?_
    exact (hbody s hs).ensuring (fun _ => rfl) fun _ hs => hs
  · exact refines_fail hs _
  · exact Refines.bind (refines_modify rfl hs) fun _ s _ hs => refines_fail hs _

theorem tracks_refreshChanges (hs : OnRoots P s) :
    Tracks P s (refreshChanges host io now) (refreshChanges host io now) := by
  unfold refreshChanges
  refine tracks_readManifest_bind hs fun m _ => ?_
  refine (tracks_attempt hs).bind fun _ s _ hs => ?_
  refine (tracks_attempt hs).bind fun _ s _ hs => ?_
  refine refines_read_bind ?_
  refine Refines.bind (refines_check hs _ _) fun _ s₁ _ hs => ?_
  refine (tracks_attempt hs).bind fun _ s₂ _ hs => ?_
  refine (tracks_writeManifest hs _).bind fun _ s₃ _ hs => ?_
  refine (tracks_writeTaskStatus hs _).bind fun _ s₄ _ hs => ?_
  refine Refines.bind (refines_each hs fun c _ s hs => tracks_attempt hs) fun _ s₅ _ hs => ?_
  exact (tracks_attempt hs).bind fun _ s₆ _ hs => refines_pure hs _

end

/-- The paths in `S` are plain. -/
def PlainOn (S : List RelPath) (original : τ) (ws : Option Workspace) : Prop :=
  ∀ p ∈ S, PlainAt (ws.getD (.ofTree .empty)) original p

section

variable {α : Type} {S : List RelPath} {s : DiskOf τ} {host : Host} {io : IoPlan} {now : Nat}
  {hunks : List HunkSelection} {c : ChangedFile} {m : TaskManifest}

theorem tracks_lift_bind {x : Except CodexNewError τ} {y : Except CodexNewError Tree} {f : τ → OpOn τ α}
    {g : Tree → Op α} (hs : OnRoots (PlainOn S) s) (h : Mirrors s.original x y)
    (hok : ∀ t, (∀ p, Plain s.original p → Plain t p) → Tracks (PlainOn S) s (f t) (g (Root.walk t))) :
    Tracks (PlainOn S) s (lift x >>= f) (lift y >>= g) := by
  refine refines_lift_bind hs (fun e he => ?_) fun t ht => ⟨Root.walk t, ?_, hok t (h.plain t ht)⟩
  · rw [h.walk, he]; rfl
  · rw [h.walk, ht]; rfl

theorem tracks_checkedJoin_bind {f : RelPath → OpOn τ α} {g : RelPath → Op α} (hs : OnRoots (PlainOn S) s)
    (h : Tracks (PlainOn S) s (f path) (g path)) :
    Tracks (PlainOn S) s (lift (checkedJoin path) >>= f) (lift (checkedJoin path) >>= g) := by
  refine refines_lift_bind hs (fun e he => he) fun q hq => ⟨q, hq, ?_⟩
  obtain ⟨-, rfl⟩ := checkedJoin_eq_ok.mp hq
  exact h

variable (hs : OnRoots (PlainOn S) s)

include hs in
theorem tracks_writeOriginal (hp : path ∈ S) (ht : ∀ p, Plain s.original p → Plain t p) :
    Tracks (PlainOn S) s (writeOriginal io pt path t) (writeOriginal io pt path (Root.walk t)) := by
  have hplain : Plain s.original path := (hs path hp).1
  have hfile : Root.file? (Root.walk t) path = Root.file? t path := (LawfulRoot.file?_eq (ht path hplain)).symm
  have hkept : ∀ {t' : τ}, (∀ p, Plain s.original p → Plain t' p) → OnRoots (PlainOn S) { s with original := t' } :=
    fun ht' p hp => ⟨ht' p (hs p hp).1, fun q hq => ht' q ((hs p hp).2 q hq)⟩
  unfold writeOriginal
  rw [hfile]
  split
  · exact refines_modify rfl (hkept ht)
  · rename_i left _ _ _
    have hwalk := LawfulRoot.walk_writeAll left hplain
    refine Refines.bind (refines_modify ?_ ?_) fun _ s' _ hs' => refines_fail hs' _
    · change DiskOf.mk .. = DiskOf.mk ..
      rw [show Root.writeAll s.walked.original path left = _ from hwalk.symm]
      cases Root.writeAll s.original path left <;> rfl
    · refine hkept fun q hq => ?_
      rcases hw : Root.writeAll s.original path left with _ | t'
      · exact hq
      · exact LawfulRoot.plain_writeAll hplain hw hq
  · exact refines_fail hs _

variable (hc : c.path ∈ S)

include hs hc in
theorem tracks_checkConflict :
    Tracks (PlainOn S) s (checkConflict host io now m c) (checkConflict host io now m c) := by
  unfold checkConflict
  refine tracks_checkedJoin_bind hs ?_
  refine (tracks_attempt hs).bind fun _ s _ hs => ?_
  refine refines_read_bind ?_
  refine Refines.bind (refines_lift hs (fileHash_walk _ (hs _ hc).1)) fun hash s _ hs => ?_
  split
  · exact refines_pure hs _
  · refine (tracks_writeManifest hs _).bind fun _ s _ hs => ?_
    exact (tracks_writeTaskStatus hs _).bind fun _ s _ hs => refines_fail hs _

include hs hc in
theorem tracks_applyChanged :
    Tracks (PlainOn S) s (applyChanged host io hunks c) (applyChanged host io hunks c) := by
  have hfile : ∀ s : DiskOf τ, OnRoots (PlainOn S) s →
      Root.file? (Root.walk s.original) c.path = Root.file? s.original c.path :=
    fun s hs => (LawfulRoot.file?_eq (hs _ hc).1).symm
  unfold applyChanged
  refine (tracks_attempt hs).bind fun _ s _ hs => ?_
  refine Refines.bind (refines_modify ?_ hs) fun _ s _ hs => ?_
  · exact congrArg (fun source => ({ s.walked with before := s.before.snapshotFile c.path source } : Disk)) (hfile s hs)
  refine refines_read_bind ?_
  refine tracks_lift_bind hs (mirrors_mergedTree host hunks (hs _ hc)) fun t ht => ?_
  refine (tracks_writeOriginal hs hc ht).bind fun _ s _ hs => ?_
  refine (tracks_attempt hs).bind fun _ s _ hs => ?_
  refine Refines.bind (refines_modify ?_ hs) fun _ s _ hs => ?_
  · exact congrArg (fun source => ({ s.walked with afterMerge := s.afterMerge.snapshotFile c.path source } : Disk))
      (hfile s hs)
  refine (tracks_attempt hs).bind fun _ s _ hs => ?_
  refine refines_read_bind ?_
  exact Refines.bind (refines_lift hs (fileHash_walk _ (hs _ hc).1)) fun hash s _ hs => refines_pure hs _

theorem tracks_mergeChanged {accepted : List RelPath} (hs : OnRoots (PlainOn S) s)
    (hc : accepted.contains c.path = true → c.path ∈ S) :
    Tracks (PlainOn S) s (mergeChanged host io accepted hunks c) (mergeChanged host io accepted hunks c) := by
  unfold mergeChanged
  split
  · rename_i hacc
    exact tracks_withLock hs fun s hs => tracks_applyChanged hs (hc hacc)
  · exact refines_pure hs c

theorem tracks_mergeLocked {selection : MergeSelection} (hs : OnRoots (PlainOn S) s)
    (hS : ∀ c ∈ chosen m selection, c.path ∈ S) :
    Tracks (PlainOn S) s (mergeLocked host io now selection m) (mergeLocked host io now selection m) := by
  unfold mergeLocked
  refine (tracks_attempt hs).bind fun _ s _ hs => ?_
  refine Refines.bind (refines_each hs fun c hc s hs => tracks_checkConflict hs (hS c hc)) fun _ s _ hs => ?_
  refine Refines.bind (refines_each hs fun c hc s hs => ?_) fun changedFiles s _ hs => ?_
  · exact tracks_mergeChanged hs fun hacc => hS c (List.mem_filter.mpr ⟨hc, hacc⟩)
  refine (tracks_attempt hs).bind fun _ s _ hs => ?_
  refine (tracks_writeManifest hs _).bind fun _ s _ hs => ?_
  refine (tracks_writeTaskStatus hs _).bind fun _ s _ hs => ?_
  exact (tracks_attempt hs).bind fun _ s _ hs => refines_pure hs _

include hs hc in
theorem tracks_checkRollback :
    Tracks (PlainOn S) s (checkRollback host io now m c) (checkRollback host io now m c) := by
  unfold checkRollback
  refine tracks_checkedJoin_bind hs ?_
  refine (tracks_attempt hs).bind fun _ s _ hs => ?_
  refine refines_read_bind ?_
  refine Refines.bind (refines_lift hs (fileHash_walk _ (hs _ hc).1)) fun hash s _ hs => ?_
  split
  · exact refines_pure hs _
  · refine (tracks_writeManifest hs _).bind fun _ s _ hs => ?_
    exact (tracks_writeTaskStatus hs _).bind fun _ s _ hs => refines_fail hs _

theorem tracks_rollbackChanged {paths : List RelPath} (hs : OnRoots (PlainOn S) s)
    (hc : (c.accepted && paths.contains c.path) = true → c.path ∈ S) :
    Tracks (PlainOn S) s (rollbackChanged host io paths hunks c) (rollbackChanged host io paths hunks c) := by
  unfold rollbackChanged
  split
  · rename_i hcho
    have hcS := hc hcho
    refine refines_read_bind ?_
    refine tracks_lift_bind hs (mirrors_restoreSnapshot s.before (hs _ hcS).1) fun t ht => ?_
    refine (tracks_writeOriginal hs hcS ht).bind fun _ s _ hs => ?_
    split
    · exact refines_pure hs _
    · refine refines_read_bind ?_
      refine tracks_lift_bind hs (mirrors_applySelectedHunks host _ (hs _ hcS)) fun t ht => ?_
      refine (tracks_writeOriginal hs hcS ht).bind fun _ s _ hs => ?_
      refine (tracks_attempt hs).bind fun _ s _ hs => ?_
      refine refines_read_bind ?_
      exact Refines.bind (refines_lift hs (fileHash_walk _ (hs _ hcS).1)) fun hash s _ hs => refines_pure hs _
  · exact refines_pure hs c

end

/-! ## Whole operations -/

section

variable {host : Host} {io : IoPlan} {now : Nat} {d : DiskOf τ}

/-- The paths that a merge or a rollback chooses are plain. -/
def ChoosesPlain (host : Host) (d : DiskOf τ) : ActionOn τ → Prop
  | .merge _ now selection => ∀ m, d.manifest = some m →
      PlainPaths d (chosen (refreshedManifest host now (Root.walk d.original) d.workspaceTree m) selection)
  | .rollback _ _ selection => ∀ m, d.manifest = some m → PlainPaths d (chosenToUndo m selection)
  | _ => True

variable (host io now d) in
omit [LawfulRoot τ] in
theorem walked_refreshChanges : refreshChanges host io now d.walked =
    ((refreshChanges host io now d).1, (refreshChanges host io now d).2.walked) :=
  (tracks_refreshChanges (P := fun _ _ => True) trivial).1

theorem PlainPaths.onRoots {cs : List ChangedFile} (h : PlainPaths d cs) :
    ∃ S, (∀ c ∈ cs, c.path ∈ S) ∧ OnRoots (PlainOn S) d := by
  refine ⟨cs.map ChangedFile.path, fun c hc => List.mem_map_of_mem hc, fun p hp => ?_⟩
  obtain ⟨c, hc, rfl⟩ := List.mem_map.mp hp
  exact h c hc

theorem walked_merge {selection : MergeSelection} (h : ChoosesPlain host d (.merge io now selection)) :
    merge host io now selection d.walked =
      ((merge host io now selection d).1, (merge host io now selection d).2.walked) := by
  rcases hm : d.manifest with _ | m
  · have hstop : refreshChanges host io now d = (.error .missingFile, d) := by
      simp [refreshChanges, bind_apply, readManifest, hm]
    have hstop' := walked_refreshChanges host io now d
    rw [hstop] at hstop'
    rw [merge, merge, bind_of_error hstop, bind_of_error hstop']
  obtain ⟨S, hS, hplain⟩ := (h m hm).onRoots
  have htracks : Tracks (PlainOn S) d (merge host io now selection) (merge host io now selection) := by
    unfold merge
    refine (tracks_refreshChanges hplain).bind fun m' s hrfr hs => ?_
    -- The manifest that the refresh returns is the one whose chosen paths are plain.
    have hwalked := walked_refreshChanges host io now d
    rw [hrfr] at hwalked
    obtain ⟨-, -, m₁, hm₁, rfl⟩ := (post_iff.mp (refreshChanges_spec host io now d.walked) _ _ hwalked).returns m' rfl
    cases hm.symm.trans hm₁
    exact tracks_withLock hs fun s hs => tracks_mergeLocked hs hS
  exact htracks.1

theorem walked_rollback {selection : RollbackSelection} (h : ChoosesPlain host d (.rollback io now selection)) :
    rollback host io now selection d.walked =
      ((rollback host io now selection d).1, (rollback host io now selection d).2.walked) := by
  rcases hm : d.manifest with _ | m
  · have hstop : readManifest d = (.error .missingFile, d) := by simp [readManifest, hm]
    have hstop' : readManifest d.walked = (.error .missingFile, d.walked) := by simp [readManifest, DiskOf.walked, hm]
    rw [rollback, rollback, bind_of_error hstop, bind_of_error hstop']
  obtain ⟨S, hS, hplain⟩ := (h m hm).onRoots
  have htracks : Tracks (PlainOn S) d (rollback host io now selection) (rollback host io now selection) := by
    unfold rollback
    refine tracks_readManifest_bind hplain fun m' hm' => ?_
    cases hm.symm.trans hm'
    refine Refines.bind (refines_check hplain _ _) fun _ s _ hs => ?_
    refine Refines.bind (refines_each hs fun c hc s hs => ?_) fun _ s _ hs => ?_
    · exact tracks_checkRollback hs (hS c hc)
    refine Refines.bind (refines_each hs fun c hc s hs => ?_) fun changedFiles s _ hs => ?_
    · exact tracks_rollbackChanged hs fun hcho => hS c (List.mem_filter.mpr ⟨hc, hcho⟩)
    refine (tracks_writeManifest hs _).bind fun _ s _ hs => ?_
    refine (tracks_writeTaskStatus hs _).bind fun _ s _ hs => ?_
    exact (tracks_attempt hs).bind fun _ s _ hs => refines_pure hs _
  exact htracks.1

end

end CodexStudy.NewCore
