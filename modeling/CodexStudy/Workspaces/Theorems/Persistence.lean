import CodexStudy.Workspaces.Operations

/-!
# The stored workspaces

A list that is taken under the lock and written after it can be older than the map.
-/

namespace CodexStudy.Workspaces

open CodexStudy.Lib WorkspaceStore WorkspaceSystem Function

variable (s : WorkspaceSystem)

/-- The list in the storage file is the content of the map. -/
def InSync : Prop := s.shared.stored.Perm s.shared.values

def Finished : Prop := ∀ t, s.task t = .idle

/-- The operation has yet to write the list of the map, as it is now or later. -/
def Fresh (store : WorkspaceStore) : WorkspacePhase → Prop
  | .settingsUpdatesChildren _ _ | .settingsLists => True
  | .writes list => list.Perm store.values
  | _ => False

def WorkspaceStore.written (store : WorkspaceStore) : WorkspacePhase → Option (List WorkspaceEntry)
  | .inserts entry => some (store.insert entry).values
  | .removes ids => some (store.remove ids).values
  | .writes list => some list
  | _ => none

/-- No path of a written list has a Windows namespace prefix, and a list written without the lock is still that of the
map, or another operation has yet to write it. -/
def WritesCurrent (a : Nat × WorkspaceStep) : Prop :=
  a.2 = .go →
    (∀ list, s.shared.written (s.task a.1) = some list → list.map normalizeWorkspaceEntry = list) ∧
    ∀ list, s.task a.1 = .writes list → list.Perm s.shared.values ∨ ∃ u, u ≠ a.1 ∧ Fresh s.shared (s.task u)

/-- The file matches the map, or somebody will see to it. -/
def SyncAhead : Prop := InSync s ∨ ∃ t, Fresh s.shared (s.task t)

variable {before : WorkspaceStore} {next : WorkspacePhase} {a : Nat × WorkspaceStep}

section

variable {s s' : WorkspaceSystem} {store : WorkspaceStore} {phase : WorkspacePhase} {t u : Nat}

def WorkspaceSystem.moved (s : WorkspaceSystem) (t : Nat) (store : WorkspaceStore) (phase : WorkspacePhase) :
    WorkspaceSystem :=
  ⟨store, update s.task t phase⟩

theorem moved_task_self : (s.moved t store phase).task t = phase := update_self ..

theorem moved_task_of_ne (h : u ≠ t) : (s.moved t store phase).task u = s.task u := update_of_ne h ..

theorem syncAhead_of_fresh (h : Fresh store phase) : SyncAhead (s.moved t store phase) := by
  refine .inr ⟨t, ?_⟩
  rw [moved_task_self]
  exact h

theorem syncAhead_of_same (h : SyncAhead s) (hph : ¬Fresh s.shared (s.task t)) :
    SyncAhead (s.moved t s.shared phase) := by
  rcases h with h | ⟨u, hu⟩
  · exact .inl h
  · have hne : u ≠ t := by
      rintro rfl
      exact hph hu
    refine .inr ⟨u, ?_⟩
    rw [moved_task_of_ne hne]
    exact hu

theorem syncAhead_of_writeLocked (hnorm : store.values.map normalizeWorkspaceEntry = store.values) :
    SyncAhead (s.moved t store.writeLocked phase) := by
  refine .inl ?_
  have hstored : store.writeLocked.stored = store.values := hnorm
  unfold InSync moved
  rw [hstored]
  exact List.Perm.refl _

theorem syncAhead_of_write {list : List WorkspaceEntry} (hnorm : list.map normalizeWorkspaceEntry = list)
    (hcur : list.Perm s.shared.values ∨ ∃ u, u ≠ t ∧ Fresh s.shared (s.task u)) :
    SyncAhead (s.moved t (s.shared.writeWorkspaces list) .idle) := by
  rcases hcur with hlist | ⟨u, hne, hfr⟩
  · refine .inl ?_
    have hstored : (s.shared.writeWorkspaces list).stored = list := hnorm
    unfold InSync moved
    rw [hstored]
    exact hlist
  · refine .inr ⟨u, ?_⟩
    rw [moved_task_of_ne hne]
    cases hph : s.task u with
    | settingsUpdatesChildren ids script => trivial
    | settingsLists => trivial
    | writes newer =>
        rw [hph] at hfr
        exact hfr
    | _ =>
        rw [hph] at hfr
        cases hfr

/-- The phases of an operation that has changed nothing, and of which the next step only reads. -/
def WorkspacePhase.Reads : WorkspacePhase → Prop
  | .cloneReads .. | .worktreeReads .. | .removeWorktreeReads _ | .removeWorkspaceReads .. | .renameReads .. => True
  | _ => False

theorem go_reads (hph : phase.Reads) (h : before.go phase = some (store, next)) : store = before := by
  cases phase with
  | cloneReads sourceId newId copyName path =>
      unfold go at h
      dsimp only at h
      split at h <;> cases h <;> rfl
  | worktreeReads parentId branch name newId path =>
      unfold go at h
      dsimp only at h
      split at h
      next => cases h; rfl
      next => split at h <;> cases h <;> rfl
  | removeWorktreeReads worktreeId =>
      unfold go at h
      dsimp only at h
      split at h <;> cases h <;> rfl
  | removeWorkspaceReads workspaceId requireAllChildren failures =>
      unfold go at h
      dsimp only at h
      split at h
      next => cases h; rfl
      next => split at h <;> cases h <;> rfl
  | renameReads worktreeId branch finalBranch path =>
      unfold go at h
      dsimp only at h
      split at h
      next => cases h; rfl
      next =>
        split at h
        next => cases h; rfl
        next => split at h <;> cases h <;> rfl
  | _ => cases hph

theorem not_fresh_of_reads (hph : phase.Reads) : ¬Fresh store phase := by
  intro hfr
  cases phase with
  | settingsUpdatesChildren ids script => cases hph
  | settingsLists => cases hph
  | writes list => cases hph
  | _ => cases hfr

theorem syncAhead_of_reads (h : SyncAhead s) (hph : (s.task t).Reads)
    (hgo : s.shared.go (s.task t) = some (store, phase)) : SyncAhead (s.moved t store phase) := by
  rw [go_reads hph hgo]
  exact syncAhead_of_same h (not_fresh_of_reads hph)

theorem syncAhead_of_go (h : SyncAhead s) (hgd : WritesCurrent s (t, .go))
    (hgo : s.shared.go (s.task t) = some (store, phase)) : SyncAhead (s.moved t store phase) := by
  obtain ⟨hnorm, hcur⟩ := hgd rfl
  cases hph : s.task t with
  | idle =>
      rw [hph] at hgo
      cases hgo
  | inserts entry =>
      rw [hph] at hgo hnorm
      cases hgo
      exact syncAhead_of_writeLocked (hnorm _ rfl)
  | removes ids =>
      rw [hph] at hgo hnorm
      cases hgo
      exact syncAhead_of_writeLocked (hnorm _ rfl)
  | writes list =>
      rw [hph] at hgo hnorm
      cases hgo
      exact syncAhead_of_write (hnorm _ rfl) (hcur list hph)
  | settingsUpdatesChildren ids script =>
      rw [hph] at hgo
      cases hgo
      exact syncAhead_of_fresh trivial
  | settingsLists =>
      rw [hph] at hgo
      cases hgo
      exact syncAhead_of_fresh (List.Perm.refl _)
  | renames worktreeId oldBranch finalBranch path =>
      rw [hph] at hgo
      unfold go at hgo
      dsimp only at hgo
      split at hgo
      next =>
        cases hgo
        exact syncAhead_of_same h (by rw [hph]; exact fun hfr => hfr)
      next =>
        cases hgo
        exact syncAhead_of_fresh (List.Perm.refl _)
  | settingsApplies workspaceId settings =>
      rw [hph] at hgo
      unfold go at hgo
      dsimp only at hgo
      split at hgo
      next =>
        cases hgo
        exact syncAhead_of_same h (by rw [hph]; exact fun hfr => hfr)
      next =>
        split at hgo <;> cases hgo <;> exact syncAhead_of_fresh trivial
  | _ => exact syncAhead_of_reads h (by rw [hph]; trivial) hgo

theorem fail_unchanged (h : before.fail phase = some (store, next)) : store = before ∧ ¬Fresh before phase := by
  cases phase with
  | idle => cases h
  | settingsUpdatesChildren ids script => cases h
  | settingsLists => cases h
  | writes list => cases h
  | _ =>
      cases h
      exact ⟨rfl, fun hfr => hfr⟩

theorem syncAhead_of_fail (h : SyncAhead s) (hfail : s.shared.fail (s.task t) = some (store, phase)) :
    SyncAhead (s.moved t store phase) := by
  obtain ⟨rfl, hph⟩ := fail_unchanged hfail
  exact syncAhead_of_same h hph

theorem syncAhead_of_move (h : SyncAhead s) (hgd : WritesCurrent s a)
    (hmove : WorkspaceMove s a s') : SyncAhead s' := by
  obtain ⟨t, step⟩ := a
  obtain ⟨store, phase, hstep, rfl⟩ := Tasks.move_iff.mp hmove
  cases step with
  | call call =>
      simp only [step, Option.ite_none_right_eq_some, Option.some.injEq, Prod.mk.injEq] at hstep
      obtain ⟨hidle, rfl, rfl⟩ := hstep
      exact syncAhead_of_same h (by rw [hidle]; exact fun hfr => hfr)
  | go => exact syncAhead_of_go h hgd hstep
  | fail => exact syncAhead_of_fail h hstep

/-- Nobody has a list to write any more when all operations have finished. -/
theorem inSync_of_finished (h : SyncAhead s) (hfinished : Finished s) : InSync s := by
  rcases h with h | ⟨t, ht⟩
  · exact h
  · rw [hfinished t] at ht
    cases ht

end

/-! ## Whole runs -/

/-- A list written without the lock does no harm as long as the newest is written or yet to be written: when all
operations have finished, the file has what the map has. -/
theorem inSync_of_writesCurrent (workspaces : HashMap Text WorkspaceEntry) (steps : List (Nat × WorkspaceStep)) :
    StepsMeet WorkspaceMove WritesCurrent (.start workspaces) steps →
      StatesMeet WorkspaceMove (fun s => Finished s → InSync s) (.start workspaces) steps := by
  intro hsts past s hpast hrun
  have hst : SyncAhead (.start workspaces) := .inl (List.Perm.refl _)
  have hahead : StatesMeet WorkspaceMove SyncAhead (.start workspaces) steps :=
    statesMeet_of_stepsMeet hst (fun _ _ _ h hgd hmove => syncAhead_of_move h hgd hmove) hsts
  exact inSync_of_finished (hahead past s hpast hrun)

def addsAndUpdates : List (Nat × WorkspaceStep) :=
  [(0, .call (.addWorkspace ['m'] ['m'] ['/', 'm'])), (0, .go),
    (1, .call (.updateSettings ['m'] { sidebarCollapsed := true })), (1, .go), (1, .go)]

def writesList : List (Nat × WorkspaceStep) := [(1, .go)]

def addsMeanwhile : List (Nat × WorkspaceStep) :=
  [(0, .call (.addWorkspace ['n'] ['n'] ['/', 'n'])), (0, .go)]

def writesCurrent (a : Nat × WorkspaceStep) : Bool :=
  ((s.shared.written (s.task a.1)).all fun list => decide (list.map normalizeWorkspaceEntry = list)) &&
    match s.task a.1 with
    | .writes list => decide (list = s.shared.values)
    | _ => true

theorem writesCurrent_of_check {s : WorkspaceSystem} (h : writesCurrent s a = true) :
    WritesCurrent s a := by
  intro _
  obtain ⟨hnorm, hlist⟩ := Bool.and_eq_true_iff.mp h
  constructor
  · intro list hwr
    rw [hwr] at hnorm
    exact of_decide_eq_true hnorm
  · intro list hph
    rw [hph] at hlist
    exact .inl (of_decide_eq_true hlist ▸ List.Perm.refl _)

theorem inSync_after_update : StatesMeet WorkspaceMove (fun s => Finished s → InSync s) (.start ∅)
    (addsAndUpdates ++ writesList) := by
  refine inSync_of_writesCurrent ∅ (addsAndUpdates ++ writesList) ?_
  have hrun : ∃ s, (addsAndUpdates ++ writesList).foldlM
      (fun s a => if writesCurrent s a then
        s.advance (fun _ store phase step => WorkspaceStore.step store phase step) a else none)
      (WorkspaceSystem.start ∅) = some s := ⟨_, rfl⟩
  obtain ⟨s, hrun⟩ := hrun
  exact stepsMeet_of_foldlM (fun _ _ => writesCurrent_of_check) hrun

theorem task_of_notMem {s s' : WorkspaceSystem} {steps : List (Nat × WorkspaceStep)} {t : Nat}
    (hrun : Run WorkspaceMove s steps s') (ht : t ∉ steps.map Prod.fst) : s'.task t = s.task t := by
  refine hrun.invariant_of_mem (I := fun s' => s'.task t = s.task t) rfl fun s₁ a s₂ ha h hmove => ?_
  obtain ⟨store, phase, -, rfl⟩ := Tasks.move_iff.mp hmove
  have hne : t ≠ a.1 := by
    rintro rfl
    exact ht (List.mem_map_of_mem ha)
  exact (update_of_ne hne phase s₁.task).trans h

/-- The list of the update is older than the map, and is written last: the added workspace is not in the file. -/
theorem added_not_stored : ¬∀ workspaces steps,
    StatesMeet WorkspaceMove (fun s => Finished s → InSync s) (.start workspaces) steps := by
  intro h
  have hstt : ∃ s, (addsAndUpdates ++ addsMeanwhile ++ writesList).foldlM
      (Tasks.advance fun _ store phase step => WorkspaceStore.step store phase step)
      (WorkspaceSystem.start ∅) = some s ∧
      s.task 0 = .idle ∧ s.task 1 = .idle ∧ s.shared.stored.length = 1 ∧ s.shared.values.length = 2 :=
    ⟨_, rfl, rfl, rfl, rfl, rfl⟩
  obtain ⟨s, hsts, hzero, hone, hstored, hvalues⟩ := hstt
  have hrun : Run WorkspaceMove (.start ∅) (addsAndUpdates ++ addsMeanwhile ++ writesList) s := .of_foldlM hsts
  have hfinished : Finished s := by
    intro t
    by_cases ht : t = 0 ∨ t = 1
    · rcases ht with rfl | rfl
      · exact hzero
      · exact hone
    · exact task_of_notMem hrun (by simp [addsAndUpdates, addsMeanwhile, writesList]; omega)
  have hlen := (h _ _ _ s List.prefix_rfl hrun hfinished).length_eq
  rw [hstored, hvalues] at hlen
  cases hlen

end CodexStudy.Workspaces
