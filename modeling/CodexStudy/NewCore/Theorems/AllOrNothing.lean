import CodexStudy.NewCore.Lemmas.Apply
import CodexStudy.NewCore.Lemmas.Links

/-!
# Merges that fail

The apply loop writes the original root file by file, and the manifest is written after the last one.
-/

namespace CodexStudy.NewCore

open CodexStudy.Lib Eff List

section

variable {τ : Type} [Root τ]

/-- The manifest on the disk says that the file at `p` was merged, with the hash that it has. -/
def Recorded (host : Host) (d : DiskOf τ) (p : RelPath) : Prop :=
  ∃ m c, d.manifest = some m ∧ c ∈ m.changedFiles ∧ c.path = p ∧ c.accepted = true ∧
    c.afterMergeHash = hashText host.sha256 ((Root.walk d.original).file? p)

/-- The files of the original root are as before or every changed one is recorded. -/
def AllOrNothing (host : Host) (d d' : DiskOf τ) : Prop :=
  (∀ p, (Root.walk d'.original).file? p = (Root.walk d.original).file? p) ∨
    ∀ p, (Root.walk d'.original).file? p ≠ (Root.walk d.original).file? p → Recorded host d' p

end

/-! ## Where a merge stops -/

section

variable (host : Host) (io : IoPlan) (hunks : List HunkSelection) (ws : Workspace) (locks : List Text)

/-- The round of `c` gets to merge its file. -/
def Attempted (c : ChangedFile) : Prop :=
  pathLockName c.path ∉ locks ∧ io (.pathLock c.path) = none ∧ io (.snapshotBefore c.path) = none

/-- No call of the operating system fails in the round of `c` once its file is merged. -/
def Completed (c : ChangedFile) : Prop :=
  io (.apply c.path) = none ∧ io (.snapshotAfter c.path) = none ∧ io (.afterHash c.path) = none

/-- The tree after the call that is to write the file at `path` of `t'`. -/
def written (path : RelPath) (t t' : Tree) : Tree :=
  match io (.apply path), t'.file? path with
  | none, _ => t'
  | some (.torn left), some _ => (t.writeAll path left).getD t
  | some _, _ => t

/-- In the rounds that the loop gets to, no write changes its file. -/
def NoneChanged : List ChangedFile → Tree → Prop
  | [], _ => True
  | c :: cs, t => Attempted io locks c → ∀ t', mergedTree host hunks ws t c.path = .ok t' →
      (written io c.path t t').file? c.path = t.file? c.path ∧
        (Completed io c → t'.passable c.path.dropLast = true → NoneChanged cs t')

/-- Every round returns. -/
def AllApplied : List ChangedFile → Tree → Prop
  | [], _ => True
  | c :: cs, t => Attempted io locks c ∧ Completed io c ∧ ∃ t', mergedTree host hunks ws t c.path = .ok t' ∧
      t'.passable c.path.dropLast = true ∧ AllApplied cs t'

end

section

variable (host : Host) (io : IoPlan) (now : Nat) (selection : MergeSelection) (d : Disk)

/-- The refresh returns `m`, the lock of the task is taken and every chosen file is found unchanged. -/
structure ReachesLoop (m : TaskManifest) : Prop where
  workspace : d.workspace.isSome = true
  refreshes : ∃ previous, d.manifest = some previous ∧ (∀ pt ∈ refreshPoints previous m, io pt = none) ∧
    m = refreshedManifest host now d.original d.workspaceTree previous
  free : mergeLockName m.taskId ∉ d.locks
  starts : io .mergeLock = none ∧ io .mergeStarted = none
  unchanged : ∀ c ∈ chosen m selection, io (.conflictHash c.path) = none ∧ Unchanged host d.original c

/-- No write changes its file, or every round returns and the manifest is written. -/
def StopsWell (m : TaskManifest) : Prop :=
  NoneChanged host io (hunkSelections selection) d.workspaceTree d.locks (chosen m selection) d.original ∨
    AllApplied host io (hunkSelections selection) d.workspaceTree d.locks (chosen m selection) d.original ∧
      io .acceptedDiff = none ∧ io .mergeManifest = none

end

/-! ## One round -/

variable {host : Host} {io : IoPlan} {now : Nat} {selection : MergeSelection} {d d' : Disk} {m : TaskManifest}
  {hunks : List HunkSelection} {accepted : List RelPath} {cs cs' : List ChangedFile} {c : ChangedFile}

theorem writeOriginal_written (io : IoPlan) (path : RelPath) (t : Tree) (d : Disk) :
    writeOriginal io (.apply path) path t d =
      (if io (.apply path) = none then .ok () else .error (.io (.apply path)),
        { d with original := written io path d.original t }) := by
  unfold writeOriginal written
  rw [file?_tree]
  rcases io (.apply path) with _ | _ | left <;> rcases t.file? path with _ | c <;> simp

/-- What the round of `c` leaves at its path, and when it returns. -/
structure Round (host : Host) (io : IoPlan) (hunks : List HunkSelection) (d : Disk) (c : ChangedFile)
    (r : Except CodexNewError ChangedFile) (d' : Disk) : Prop where
  kept : d'.original.file? c.path = d.original.file? c.path ↔ (Attempted io d.locks c →
    ∀ t, mergedTree host hunks d.workspaceTree d.original c.path = .ok t →
      (written io c.path d.original t).file? c.path = d.original.file? c.path)
  returns : failed r = false ↔ Attempted io d.locks c ∧ Completed io c ∧
    ∃ t, mergedTree host hunks d.workspaceTree d.original c.path = .ok t ∧ t.passable c.path.dropLast = true

theorem Round.of_not_merged {e : CodexNewError} (h : d'.original = d.original)
    (hno : ∀ t, Attempted io d.locks c → mergedTree host hunks d.workspaceTree d.original c.path ≠ .ok t) :
    Round host io hunks d c (.error e) d' where
  kept := ⟨fun _ hatt t ht => absurd ht (hno t hatt), fun _ => by rw [h]⟩
  returns := ⟨nofun, fun ⟨hatt, _, t, ht, _⟩ => absurd ht (hno t hatt)⟩

theorem Round.of_merged {t : Tree} {r : Except CodexNewError ChangedFile} (hatt : Attempted io d.locks c)
    (ht : mergedTree host hunks d.workspaceTree d.original c.path = .ok t)
    (h : d'.original = written io c.path d.original t)
    (hret : failed r = false ↔ Completed io c ∧ t.passable c.path.dropLast = true) : Round host io hunks d c r d' where
  kept := by
    rw [h]
    exact ⟨fun hkept _ t' ht' => by cases ht.symm.trans ht'; exact hkept, fun hkept => hkept hatt t ht⟩
  returns := by
    rw [hret]
    refine ⟨fun ⟨hcomp, hpass⟩ => ⟨hatt, hcomp, t, ht, hpass⟩, fun ⟨_, hcomp, t', ht', hpass⟩ => ⟨hcomp, ?_⟩⟩
    cases ht.symm.trans ht'
    exact hpass

variable (host io hunks d) in
theorem mergeChanged_round (hacc : accepted.contains c.path = true) :
    Eff.Post d (mergeChanged host io accepted hunks c) (Round host io hunks d c) := by
  unfold mergeChanged
  rw [if_pos hacc]
  refine post_withLock (fun hheld => .of_not_merged rfl fun _ h => absurd hheld h.1)
    (fun hio _ => .of_not_merged rfl fun _ h => absurd h.2.1 hio) fun hfree hlock r d' hbody => ?_
  suffices hpost : Eff.Post (d.locked (pathLockName c.path)) (applyChanged host io hunks c) fun r d' =>
      Round host io hunks d c r (d'.released (pathLockName c.path)) from post_iff.mp hpost r d' hbody
  unfold applyChanged
  refine post_attempt (fun hio => .of_not_merged rfl fun _ h => absurd h.2.2 hio) fun hsnap => ?_
  have hatt : Attempted io d.locks c := ⟨hfree, hlock, hsnap⟩
  refine post_modify (post_read (post_lift (fun e he => .of_not_merged rfl fun t _ ht => ?_) fun t ht => ?_))
  · cases he.symm.trans ht
  have hend : ∀ {d₁ : Disk} {r : Except CodexNewError ChangedFile}, d₁.original = written io c.path d.original t →
      (failed r = false ↔ Completed io c ∧ t.passable c.path.dropLast = true) → Round host io hunks d c r d₁ :=
    fun h hret => .of_merged hatt ht h hret
  have hstop : ∀ {e : CodexNewError}, ¬ Completed io c → (failed (.error e : Except _ ChangedFile) = false ↔
      Completed io c ∧ t.passable c.path.dropLast = true) := fun hno => ⟨nofun, fun h => absurd h.1 hno⟩
  refine post_bind (fun e d₁ h => ?_) fun _ d₁ h => ?_
  · rw [writeOriginal_written] at h
    split at h
    · cases h
    · rename_i hio
      cases h
      exact hend rfl (hstop fun hc => hio hc.1)
  rw [writeOriginal_written] at h
  split at h
  · rename_i hio
    have hwritten : written io c.path d.original t = t := by simp [written, hio]
    cases h
    refine post_attempt (fun hno => hend rfl (hstop fun hc => hno hc.2.1)) fun hafter => ?_
    refine post_modify (post_attempt (fun hno => hend rfl (hstop fun hc => hno hc.2.2)) fun hhash => ?_)
    refine post_read (post_lift (fun e he => hend rfl ⟨nofun, fun h => ?_⟩) fun hash hok => hend rfl ?_)
    · cases he.symm.trans (fileHash_eq_ok.mpr ⟨hwritten.symm ▸ h.2, rfl⟩)
    · exact ⟨fun _ => ⟨⟨hio, hafter, hhash⟩, hwritten ▸ (fileHash_eq_ok.mp hok).1⟩, fun _ => rfl⟩
  · cases h

/-! ## The loop -/

theorem failed_each_cons {α β : Type} {body : α → Op β} {a : α} {as : List α} {b : β} (h : body a d = (.ok b, d')) :
    failed (each body (a :: as) d).1 = failed (each body as d').1 := by
  rw [each, bind_of_ok h, bind_apply]
  rcases each body as d' with ⟨_ | bs, d₁⟩ <;> rfl

variable (host io hunks d) in
theorem mergeChanged_loop (hnodup : (cs.map ChangedFile.path).Nodup) :
    ((∀ p, (each (mergeChanged host io accepted hunks) cs d).2.original.file? p = d.original.file? p) ↔
      NoneChanged host io hunks d.workspaceTree d.locks (cs.filter fun c => accepted.contains c.path) d.original) ∧
    (failed (each (mergeChanged host io accepted hunks) cs d).1 = false ↔
      AllApplied host io hunks d.workspaceTree d.locks (cs.filter fun c => accepted.contains c.path) d.original) := by
  induction cs generalizing d with
  | nil => exact ⟨⟨fun _ => trivial, fun _ _ => rfl⟩, ⟨fun _ => trivial, fun _ => rfl⟩⟩
  | cons c cs ih =>
      obtain ⟨hc, hnodup⟩ := nodup_cons.mp hnodup
      by_cases hacc : accepted.contains c.path = true
      · rw [filter_cons, if_pos hacc]
        obtain ⟨hkept, hret⟩ : Round .. := mergeChanged_round host io d hunks hacc
        have hother : WritesOnly {c.path} d (mergeChanged host io accepted hunks c d).2 :=
          writesOnly_mergeChanged (fun _ => Set.mem_singleton _) d
        rcases h : mergeChanged host io accepted hunks c d with ⟨e | c', d₁⟩
        · rw [h] at hkept hret hother
          have hstop : ∀ t, Attempted io d.locks c → Completed io c →
              mergedTree host hunks d.workspaceTree d.original c.path = .ok t → t.passable c.path.dropLast = true →
                False := fun t hatt hcomp ht hpass => by cases hret.mpr ⟨hatt, hcomp, t, ht, hpass⟩
          rw [each, bind_of_error h]
          refine ⟨⟨fun hall hatt t ht => ⟨hkept.mp (hall _) hatt t ht, fun hcomp hpass => ?_⟩, fun hnone p => ?_⟩,
            ⟨?_, ?_⟩⟩
          · exact (hstop t hatt hcomp ht hpass).elim
          · by_cases hp : p = c.path
            · rw [hp]; exact hkept.mpr fun hatt t ht => (hnone hatt t ht).1
            · exact hother.files p hp
          · intro hdone
            cases hdone
          · rintro ⟨hatt, hcomp, t, ht, hpass, -⟩
            exact (hstop t hatt hcomp ht hpass).elim
        · rw [h] at hkept hret hother
          obtain ⟨hatt, hcomp, -⟩ := hret.mp rfl
          obtain ⟨hno, -⟩ | ⟨-, t, ht, hpass, rfl, -⟩ := mergeChanged_eq_ok h
          · exact absurd (contains_iff_mem.mp hacc) hno
          obtain ⟨hsame, hrets⟩ := ih (applied d c t) hnodup
          -- The other rounds keep the file of `c`.
          have hfile : (each (mergeChanged host io accepted hunks) cs (applied d c t)).2.original.file? c.path =
              t.file? c.path := by
            refine (Respects.each (R := WritesOnly {p | p ≠ c.path}) (fun b hb => ?_) (applied d c t)).files _ fun h => h rfl
            exact writesOnly_mergeChanged fun _ heq => hc (heq ▸ mem_map_of_mem hb)
          rw [each_state_of_ok h, failed_each_cons h]
          refine ⟨⟨fun hall _ t' ht' => ?_, fun hnone p => ?_⟩,
            hrets.trans ⟨fun hrest => ⟨hatt, hcomp, t, ht, hpass, hrest⟩, ?_⟩⟩
          · cases ht.symm.trans ht'
            have hown : t.file? c.path = d.original.file? c.path := hfile.symm.trans (hall _)
            refine ⟨hkept.mp hown hatt t ht, fun _ _ => hsame.mp fun p => ?_⟩
            by_cases hp : p = c.path
            · rw [hp]; exact hfile
            · exact (hall p).trans (hother.files p hp).symm
          · obtain ⟨hwr, hnext⟩ := hnone hatt t ht
            refine (hsame.mpr (hnext hcomp hpass) p).trans ?_
            by_cases hp : p = c.path
            · rw [hp]; exact hkept.mpr fun _ t' ht' => by cases ht.symm.trans ht'; exact hwr
            · exact hother.files p hp
          · rintro ⟨-, -, t', ht', -, hrest⟩
            cases ht.symm.trans ht'
            exact hrest
      · have hskip : mergeChanged host io accepted hunks c d = (.ok c, d) := by
          rw [mergeChanged, if_neg hacc]
          rfl
        rw [filter_cons, if_neg hacc, each_state_of_ok hskip, failed_each_cons hskip]
        exact ih d hnodup

/-! ## The manifest -/

theorem Applied.recorded (h : Applied host accepted hunks cs d cs' d') (hnodup : (cs.map ChangedFile.path).Nodup)
    {p : RelPath} (hp : d'.original.file? p ≠ d.original.file? p) : ∃ c ∈ cs', c.path = p ∧ c.accepted = true ∧
      c.afterMergeHash = hashText host.sha256 (d'.original.file? p) := by
  induction h with
  | nil d => exact absurd rfl hp
  | skip _ _ ih =>
      obtain ⟨c, hc, hrec⟩ := ih (nodup_cons.mp hnodup).2 hp
      exact ⟨c, mem_cons_of_mem _ hc, hrec⟩
  | @apply c cs cs' d d' t _ ht _ hrest ih =>
      obtain ⟨hc, hnodup⟩ := nodup_cons.mp hnodup
      by_cases hcp : c.path = p
      · have hfile : d'.original.file? p = t.file? p :=
          hrest.frame fun b hb _ heq => hc (hcp.trans heq.symm ▸ mem_map_of_mem hb)
        exact ⟨_, mem_cons_self, hcp, rfl, by rw [hfile, ← hcp]; rfl⟩
      · have hfile := (mergedTree_changesAt ht).frame p (Ne.symm hcp)
        obtain ⟨c', hc', hrec⟩ := ih hnodup (by rw [show (applied d c t).original.file? p = _ from hfile]; exact hp)
        exact ⟨c', mem_cons_of_mem _ hc', hrec⟩

variable (host io now selection) in
theorem mergeLocked_post (hm : d.manifest = some m) (hnodup : (m.changedFiles.map ChangedFile.path).Nodup)
    (hfresh : ∀ c ∈ m.changedFiles, c.accepted = false) (hstarted : io .mergeStarted = none)
    (hun : ∀ c ∈ chosen m selection, io (.conflictHash c.path) = none ∧ Unchanged host d.original c) :
    Eff.Post d (mergeLocked host io now selection m) fun _ d' =>
      (AllOrNothing host d d' ↔ StopsWell host io selection d m) := by
  generalize hacc : selectedPaths m.changedFiles selection = accepted
  have hchosen : chosen m selection = m.changedFiles.filter fun c => accepted.contains c.path := by rw [← hacc]; rfl
  obtain ⟨hkept, hret⟩ := mergeChanged_loop host io d (hunkSelections selection) hnodup
  rw [← hchosen] at hkept hret
  have hman : (each (mergeChanged host io accepted (hunkSelections selection)) m.changedFiles d).2.manifest = some m :=
    (Respects.each (R := WritesOnly Set.univ) (fun c _ => writesOnly_mergeChanged fun _ => Set.mem_univ _) d).manifest.trans hm
  unfold mergeLocked
  refine post_attempt (fun h => absurd hstarted h) fun _ => ?_
  have hcheck : each (checkConflict host io now m) (chosen m selection) d = (.ok _, d) :=
    checkConflicts_of_unchanged (fun c hc => (hun c hc).1) fun c hc => (hun c hc).2
  refine post_bind (fun e s h => by cases hcheck.symm.trans h) fun us s h => ?_
  cases hcheck.symm.trans h
  rw [hacc]
  rcases h : each (mergeChanged host io accepted (hunkSelections selection)) m.changedFiles d with ⟨r, d₁⟩
  rw [h] at hkept hret hman
  -- While the manifest is the refreshed one or torn, nothing is recorded.
  have hunsaved : ∀ {old} (d₂ : Disk), d₂.original = d₁.original → d₂.manifest = old → old = some m ∨ old = none →
      ¬ (failed r = false ∧ io .acceptedDiff = none ∧ io .mergeManifest = none) →
        (AllOrNothing host d d₂ ↔ StopsWell host io selection d m) := by
    intro old d₂ ho hm₂ hold hno
    rw [StopsWell, ← hret, or_iff_left hno, ← hkept]
    have hnone : ∀ p, ¬ Recorded host d₂ p := by
      rintro p ⟨m₂, c, hm', hc, -, hacc, -⟩
      cases hm₂.symm.trans hm'
      rcases hold with hold | hold <;> cases hold
      rw [hfresh c hc] at hacc
      cases hacc
    unfold AllOrNothing
    rw [ho]
    exact ⟨fun hall => hall.elim id fun hrec p => by_contra fun hp => hnone p (hrec p hp), .inl⟩
  refine post_bind (fun e s h' => ?_) fun cs s h' => ?_ <;> cases h.symm.trans h'
  · exact hunsaved d₁ rfl hman (.inl rfl) fun hno => by cases hno.1
  refine post_attempt (fun hio => hunsaved d₁ rfl hman (.inl rfl) fun hno => hio hno.2.1) fun hdiff => ?_
  refine post_writeManifest (fun old hio hold => ?_) fun hio => ?_
  · exact hunsaved _ rfl rfl (hold.imp_left fun h => h.trans hman) fun hno => hio hno.2.2
  have hsaved : ∀ d₂ : Disk, d₂.original = d₁.original → d₂.manifest =
      some { m with status := .rollbackAvailable, updatedAt := now, changedFiles := cs } →
        (AllOrNothing host d d₂ ↔ StopsWell host io selection d m) := by
    intro d₂ ho hm₂
    refine ⟨fun _ => .inr ⟨hret.mp rfl, hdiff, hio⟩, fun _ => .inr fun p hp => ?_⟩
    have hp' : d₁.original.file? p ≠ d.original.file? p := by rw [← ho]; exact hp
    obtain ⟨c, hc, hcp, hcacc, hhash⟩ := (applied_of_each h).recorded hnodup hp'
    exact ⟨_, c, hm₂, hc, hcp, hcacc, by rw [ho]; exact hhash⟩
  refine post_writeTaskStatus (fun _ => hsaved _ rfl rfl) fun _ => ?_
  exact post_attempt (fun _ => hsaved _ rfl rfl) fun _ => hsaved _ rfl rfl

/-! ## The whole merge -/

variable (now) in
theorem mergeLocked_unstarted (h : ¬ (io .mergeStarted = none ∧ ∀ c ∈ chosen m selection,
      io (.conflictHash c.path) = none ∧ Unchanged host d.original c)) :
    Eff.Post d (mergeLocked host io now selection m) fun _ d' => d'.original = d.original := by
  have hcheck := post_iff.mp (checkConflicts_spec host io now m (chosen m selection) d)
  unfold mergeLocked
  refine post_attempt (fun _ => rfl) fun hio => ?_
  refine post_bind (fun e s hs => (hcheck _ _ hs).1.original) fun us s hs => absurd ⟨hio, fun c hc => ⟨?_, ?_⟩⟩ h
  · refine each_forall (P := fun c => io (.conflictHash c.path) = none) (fun c u s s' hc => ?_) hs c hc
    obtain ⟨_, _, _, hc⟩ := bind_eq_ok.mp hc
    obtain ⟨_, _, hattempt, -⟩ := bind_eq_ok.mp hc
    exact attempt_eq_ok hattempt
  · exact ((hcheck _ _ hs).2 us rfl).2 c hc

variable (host io now selection d) in
theorem merge_post : Eff.Post d (merge host io now selection) fun _ d' => (AllOrNothing host d d' ↔
    ∀ m, ReachesLoop host io now selection d m → StopsWell host io selection (d.locked (mergeLockName m.taskId)) m) := by
  have hearly : ∀ d₁ : Disk, d₁.original = d.original → (∀ m, ¬ ReachesLoop host io now selection d m) →
      (AllOrNothing host d d₁ ↔ ∀ m, ReachesLoop host io now selection d m →
        StopsWell host io selection (d.locked (mergeLockName m.taskId)) m) :=
    fun d₁ h hno => ⟨fun _ m hm => absurd hm (hno m), fun _ => .inl fun p => by rw [h]⟩
  have hrefresh := post_iff.mp (refreshChanges_spec host io now d)
  unfold merge
  refine post_bind (fun e s hs => hearly s (hrefresh _ _ hs).files.original fun m hm => ?_) fun m' s hs => ?_
  · obtain ⟨previous, hprev, hpts, rfl⟩ := hm.refreshes
    cases hs.symm.trans (refreshChanges_ok host now hpts hprev hm.workspace)
  obtain ⟨hfiles, -, -, hret⟩ := hrefresh _ _ hs
  obtain ⟨hws, hm', previous, hprev, hm'eq⟩ := hret m' rfl
  have hone : ∀ m, ReachesLoop host io now selection d m → m = m' := by
    intro m hm
    obtain ⟨previous', hprev', -, rfl⟩ := hm.refreshes
    cases hprev.symm.trans hprev'
    exact hm'eq.symm
  refine post_withLock (fun hheld => hearly s hfiles.original fun m hm => ?_)
    (fun hio _ => hearly _ hfiles.original fun m hm => hio hm.starts.1) fun hfree hlock r d₁ hbody => ?_
  · rw [hfiles.locks, ← hone m hm] at hheld
    exact hm.free hheld
  have hlocks : (s.locked (mergeLockName m'.taskId)).locks = (d.locked (mergeLockName m'.taskId)).locks := by
    rw [DiskOf.locked, DiskOf.locked, hfiles.locks]
  have hws' : (s.locked (mergeLockName m'.taskId)).workspaceTree = d.workspaceTree := by
    rw [DiskOf.workspaceTree, DiskOf.workspaceTree, ← hfiles.workspace]
    rfl
  have ho : (s.locked (mergeLockName m'.taskId)).original = d.original := hfiles.original
  have hm₂ : (s.locked (mergeLockName m'.taskId)).manifest = some m' := hm'
  generalize s.locked (mergeLockName m'.taskId) = d₂ at hbody hlocks hws' ho hm₂
  by_cases hst : io .mergeStarted = none ∧ ∀ c ∈ chosen m' selection,
      io (.conflictHash c.path) = none ∧ Unchanged host d.original c
  · have hreach : ReachesLoop host io now selection d m' :=
      ⟨hws, ⟨previous, hprev, refreshPoints_of_ok hs hprev, hm'eq⟩, hfiles.locks ▸ hfree, ⟨hlock, hst.1⟩, hst.2⟩
    have hpost := post_iff.mp (mergeLocked_post host io now selection hm₂ (hm'eq ▸ nodup_refreshed)
      (fun c hc => (refreshed_entry (hm'eq ▸ hc)).2.2.2) hst.1 (by rw [ho]; exact hst.2)) _ _ hbody
    have hall : AllOrNothing host d (d₁.released (mergeLockName m'.taskId)) ↔ AllOrNothing host d₂ d₁ := by
      unfold AllOrNothing
      rw [ho]
      rfl
    have hwell : StopsWell host io selection d₂ m' ↔
        StopsWell host io selection (d.locked (mergeLockName m'.taskId)) m' := by
      unfold StopsWell
      rw [ho, hws', hlocks]
      rfl
    rw [hall, hpost, hwell]
    exact ⟨fun h m hm => hone m hm ▸ h, fun h => h m' hreach⟩
  · refine hearly _ ?_ fun m hm => hst (hone m hm ▸ ⟨hm.starts.2, hm.unchanged⟩)
    exact (post_iff.mp (mergeLocked_unstarted now (m := m') (by rw [ho]; exact hst)) _ _ hbody).trans ho

/-- The lock of the second file is held. -/
def sampleTwo : DiskOf LinkedRoot :=
  { sampleTask sampleBase with
    workspace := some (.ofTree (sampleTree [(["a.txt"], "agent"), (["b.txt"], "agent")]))
    locks := [pathLockName ["b.txt"]] }

def failFirstWrite (pt : IoPoint) : Option IoFault := if pt = .apply ["a.txt"] then some .clean else none

end CodexStudy.NewCore
