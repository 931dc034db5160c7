import CodexStudy.NetworkProxy.Runtime

/-!
# The record of blocked requests

A reload and an update of a list copy the record when they read the state and put the copy back when they write.
-/

namespace CodexStudy.NetworkProxy

open CodexStudy.Lib List Function

/-! ## The buffer -/

theorem evictOldest_append (blocked : List BlockedRequest) :
    (evictOldest blocked).1.map Prod.fst ++ (evictOldest blocked).2 = blocked := by
  induction blocked with
  | nil => rfl
  | cons entry later ih =>
      unfold evictOldest
      split
      · rw [map_cons, cons_append, ih]
      · rfl

theorem lt_length_of_mem_evictOldest {blocked : List BlockedRequest} {entry : BlockedRequest}
    {later : List BlockedRequest} (h : (entry, later) ∈ (evictOldest blocked).1) :
    MAX_BLOCKED_EVENTS < (entry :: later).length := by
  induction blocked with
  | nil => cases h
  | cons first rest ih =>
      unfold evictOldest at h
      split at h
      · rename_i hlong
        rcases mem_cons.mp h with heq | h
        · cases heq
          exact hlong
        · exact ih h
      · cases h

theorem saturatingSucc_eq {n : Nat} : saturatingSucc n = n + 1 ↔ n < 2 ^ 64 - 1 := by
  unfold saturatingSucc
  omega

/-! ## One step -/

inductive RecordEffect (operation : Operation) (state : ConfigState) (phase : Phase) :
    ConfigState × Phase × List Event → Prop where
  /-- The record stays. No recording and no drain comes back. -/
  | quiet (state' : ConfigState) (phase' : Phase) (hblocked : state'.blocked = state.blocked)
      (htotal : state'.blockedTotal = state.blockedTotal)
      (hrecord : ∀ entry, operation = .recordBlocked entry → (phase' = .returned .ok ↔ phase = .returned .ok))
      (hdrain : ∀ entries, phase' = .returned (.drained entries) ↔ phase = .returned (.drained entries)) :
      RecordEffect operation state phase (state', phase', [])
  | writeReload (newState : ConfigState) (hphase : phase = .writeReload newState) :
      RecordEffect operation state phase (newState, .act, [])
  | writeForced (newState : ConfigState) (hphase : phase = .writeForced newState)
      (hrecord : ∀ entry, operation ≠ .recordBlocked entry) :
      RecordEffect operation state phase ({ newState with blocked := state.blocked }, .returned .ok, [])
  | writeUpdate (newState : ConfigState) (hphase : phase = .writeUpdate newState state.config state.constraints)
      (hrecord : ∀ entry, operation ≠ .recordBlocked entry) :
      RecordEffect operation state phase (newState, .returned .ok, [])
  | recorded (entry : BlockedRequest) (hoperation : operation = .recordBlocked entry) (hphase : phase = .act) :
      RecordEffect operation state phase
        ({ state with
            blocked := (evictOldest (state.blocked ++ [entry])).2
            blockedTotal := saturatingSucc state.blockedTotal },
          .returned .ok,
          .recorded entry :: (evictOldest (state.blocked ++ [entry])).1.map fun (entry, later) => .evicted entry later)
  | drained (hoperation : operation = .drainBlocked) (hphase : phase = .act) :
      RecordEffect operation state phase
        ({ state with blocked := [] }, .returned (.drained state.blocked), [.drained state.blocked])

def PhaseFits (operation : Operation) : Phase → Prop
  | .writeForced _ => operation = .forceReload
  | .writeUpdate .. => ∃ host target, operation = .updateDomainList host target
  | .writeMode .. => ∃ mode, operation = .setNetworkMode mode
  | _ => True

section

variable {tools : ProxyTools} {outside : Outside} {operation : Operation} {state : ConfigState} {phase : Phase}

theorem RecordEffect.goTo {state' : ConfigState} {phase' : Phase} (hblocked : state'.blocked = state.blocked)
    (htot : state'.blockedTotal = state.blockedTotal)
    (hph : ∀ outcome, phase ≠ .returned outcome) (hph' : ∀ outcome, phase' = .returned outcome →
      (∃ error, outcome = .failed error) ∨ (∃ decision, outcome = .decided decision) ∨
        outcome = .ok ∧ ∀ entry, operation ≠ .recordBlocked entry) :
    RecordEffect operation state phase (NetworkProxy.goTo state' phase') := by
  refine .quiet state' phase' hblocked htot (fun entry hent => ?_) (fun entries => ?_)
  · refine iff_of_false (fun h => ?_) (hph .ok)
    rcases hph' .ok h with ⟨_, h⟩ | ⟨_, h⟩ | ⟨_, h⟩
    · cases h
    · cases h
    · exact h entry hent
  · refine iff_of_false (fun h => ?_) (hph _)
    rcases hph' _ h with ⟨_, h⟩ | ⟨_, h⟩ | ⟨h, _⟩ <;> cases h

theorem recordEffect_call : RecordEffect operation state .called (call outside state operation) := by
  unfold call
  split
  · split
    · exact .goTo rfl rfl (by simp) (by simp)
    · exact .goTo rfl rfl (by simp) (by simp)
    · exact .goTo rfl rfl (by simp) (by simp)
  · split
    · exact .goTo rfl rfl (by simp) (by simp)
    · exact .goTo rfl rfl (by simp) (by simp)
  · exact .goTo rfl rfl (by simp) (by simp)

theorem recordEffect_act : RecordEffect operation state .act (act tools outside state operation) := by
  cases operation with
  | reloadIfNeeded => exact .goTo rfl rfl (by simp) (by simp)
  | forceReload => exact .goTo rfl rfl (by simp) (by simp)
  | replaceConfigState newState => exact .goTo rfl rfl (by simp) (by simp)
  | recordBlocked entry => exact .recorded entry rfl rfl
  | drainBlocked => exact .drained rfl rfl
  | updateDomainList host target =>
      rw [act]
      split
      · exact .goTo rfl rfl (by simp) (by simp)
      · exact .goTo rfl rfl (by simp) (by simp)
      · exact .goTo rfl rfl (by simp) (by simp)
  | setNetworkMode mode =>
      rw [act]
      split
      · exact .goTo rfl rfl (by simp) (by simp)
      · exact .goTo rfl rfl (by simp) (by simp)
  | evaluateHostPolicy request => exact .goTo rfl rfl (by simp) (by simp)

theorem recordEffect_advance (hfits : PhaseFits operation phase) :
    RecordEffect operation state phase (advance tools outside operation state phase) := by
  cases phase with
  | called => exact recordEffect_call
  | checkReload =>
      rw [advance]
      split
      · exact .goTo rfl rfl (by simp) (by simp)
      · exact .goTo rfl rfl (by simp) (by simp)
      · exact .goTo rfl rfl (by simp) (by simp)
  | readRecord newState => exact .goTo rfl rfl (by simp) (by simp)
  | writeReload newState => exact .writeReload newState rfl
  | act => exact recordEffect_act
  | writeForced newState =>
      cases hfits
      exact .writeForced newState rfl (by simp)
  | writeUpdate newState previousCfg constraints =>
      obtain ⟨host, target, rfl⟩ := hfits
      rw [advance]
      split
      · exact .goTo rfl rfl (by simp) (by simp)
      · rename_i hsame
        obtain ⟨hconstraints, hconfig⟩ := not_or.mp hsame
        rw [← not_not.mp hconstraints, ← not_not.mp hconfig]
        exact .writeUpdate newState rfl (by simp)
  | writeMode mode constraints =>
      obtain ⟨_, rfl⟩ := hfits
      rw [advance]
      split
      · exact .goTo rfl rfl (by simp) (by simp)
      · exact .goTo rfl rfl (by simp) (by simp)
  | returned outcome => exact .quiet state _ rfl rfl (fun _ _ => Iff.rfl) fun _ => Iff.rfl

theorem phaseFits_advance (hfits : PhaseFits operation phase) :
    PhaseFits operation (advance tools outside operation state phase).2.1 := by
  cases phase with
  | called =>
      rw [advance]
      unfold call
      split
      · split <;> trivial
      · split <;> trivial
      · trivial
  | checkReload =>
      rw [advance]
      split <;> trivial
  | readRecord newState => trivial
  | writeReload newState => trivial
  | act =>
      rw [advance]
      unfold act
      split
      · trivial
      · trivial
      · trivial
      · trivial
      · trivial
      · split
        · trivial
        · trivial
        · exact ⟨_, _, rfl⟩
      · split
        · trivial
        · exact ⟨_, rfl⟩
      · trivial
  | writeForced newState => trivial
  | writeUpdate newState previousCfg constraints =>
      rw [advance]
      split <;> trivial
  | writeMode mode constraints =>
      rw [advance]
      split <;> trivial
  | returned outcome => trivial

end

variable {Task : Type}

/-! ## Accounts -/

def records (events : List (Task × Event)) : List (Task × BlockedRequest) :=
  events.filterMap fun
    | (task, .recorded entry) => some (task, entry)
    | _ => none

def removed (events : List (Task × Event)) : List BlockedRequest :=
  events.flatMap fun
    | (_, .evicted entry _) => [entry]
    | (_, .drained entries) => entries
    | (_, .recorded _) => []

/-- The recordings are the calls of `record_blocked` that came back, each once, the drained entries are those that a
drain returned, and an entry is evicted when the buffer takes no more. -/
structure Faithful (operations : Task → Operation) (s : ProxySystem Task) : Prop where
  completed : ∀ task, task ∈ (records s.events).map Prod.fst ↔
    (∃ entry, operations task = .recordBlocked entry) ∧ s.phases task = .returned .ok
  once : ((records s.events).map Prod.fst).Nodup
  drained : ∀ task entries, (task, .drained entries) ∈ s.events ↔ s.phases task = .returned (.drained entries)
  evicted : ∀ task entry later, (task, .evicted entry later) ∈ s.events →
    MAX_BLOCKED_EVENTS < (entry :: later).length

/-- The count is the number of completed recordings, whose entries are, in order, the drained or evicted ones and the
buffer. -/
structure Accounted (operations : Task → Operation) (s : ProxySystem Task) : Prop where
  faithful : Faithful operations s
  total : s.state.blockedTotal = (records s.events).length
  entries : (records s.events).map Prod.snd = removed s.events ++ s.state.blocked

/-- Nothing was recorded or drained since the state that the step writes was read, a forced reload finds the
count of its new state, and the count is not at its limit. -/
def Undisturbed (operations : Task → Operation) (s : ProxySystem Task) (m : Move Task) : Prop :=
  match s.phases m.task with
  | .writeReload newState =>
      newState.blocked = s.state.blocked ∧ newState.blockedTotal = s.state.blockedTotal
  | .writeForced newState => newState.blockedTotal = s.state.blockedTotal
  | .writeUpdate newState previousCfg constraints =>
      s.state.constraints = constraints → s.state.config = previousCfg →
        newState.blocked = s.state.blocked ∧ newState.blockedTotal = s.state.blockedTotal
  | .act => ∀ entry, operations m.task = .recordBlocked entry → s.state.blockedTotal < 2 ^ 64 - 1
  | _ => True

section

variable {events events' : List (Task × Event)} {task : Task} {entry : BlockedRequest}

@[simp] theorem records_append : records (events ++ events') = records events ++ records events' :=
  filterMap_append

@[simp] theorem removed_append : removed (events ++ events') = removed events ++ removed events' :=
  flatMap_append

@[simp] theorem records_nil : records ([] : List (Task × Event)) = [] := rfl

@[simp] theorem removed_nil : removed ([] : List (Task × Event)) = [] := rfl

def recordingEvents (task : Task) (entry : BlockedRequest) (blocked : List BlockedRequest) : List (Task × Event) :=
  (task, .recorded entry) ::
    (evictOldest (blocked ++ [entry])).1.map fun (entry, later) => (task, .evicted entry later)

theorem records_recordingEvents (blocked : List BlockedRequest) :
    records (recordingEvents task entry blocked) = [(task, entry)] := by
  have hevicted : ∀ l : List (BlockedRequest × List BlockedRequest),
      records (l.map fun (entry, later) => (task, Event.evicted entry later)) = [] := by
    intro l
    refine filterMap_eq_nil_iff.mpr fun e he => ?_
    obtain ⟨_, _, rfl⟩ := mem_map.mp he
    rfl
  exact congrArg _ (hevicted _)

theorem removed_recordingEvents (blocked : List BlockedRequest) :
    removed (recordingEvents task entry blocked) = (evictOldest (blocked ++ [entry])).1.map Prod.fst := by
  have hevicted : ∀ l : List (BlockedRequest × List BlockedRequest),
      removed (l.map fun (entry, later) => (task, Event.evicted entry later)) = l.map Prod.fst := by
    intro l
    induction l with
    | nil => rfl
    | cons p l ih => exact congrArg _ ih
  exact hevicted _

end

theorem mem_recordingEvents {task task' : Task} {entry : BlockedRequest} {blocked : List BlockedRequest} {event : Event}
    (h : (task', event) ∈ recordingEvents task entry blocked) : task' = task ∧ (event = .recorded entry ∨
      ∃ oldest later, event = .evicted oldest later ∧ MAX_BLOCKED_EVENTS < (oldest :: later).length) := by
  rcases mem_cons.mp h with heq | h
  · cases heq
    exact ⟨rfl, Or.inl rfl⟩
  · obtain ⟨⟨oldest, later⟩, hmem, heq⟩ := mem_map.mp h
    cases heq
    exact ⟨rfl, Or.inr ⟨oldest, later, rfl, lt_length_of_mem_evictOldest hmem⟩⟩

theorem map_recorded (task : Task) (entry : BlockedRequest) (blocked : List BlockedRequest) :
    (Event.recorded entry :: (evictOldest (blocked ++ [entry])).1.map
      fun (entry, later) => Event.evicted entry later).map (fun event => (task, event)) =
        recordingEvents task entry blocked := by
  rw [map_cons, map_map]
  rfl

/-! ## One step -/

variable {tools : ProxyTools} {operations : Task → Operation} {s s' : ProxySystem Task} {m : Move Task}

theorem Faithful.start (state : ConfigState) : Faithful operations (.start state : ProxySystem Task) where
  completed task := by simp [ProxySystem.start]
  once := nodup_nil
  drained task entries := by simp [ProxySystem.start]
  evicted task entry later h := by cases h

variable (h : Faithful operations s)

include h in
theorem Faithful.not_completed {task : Task} (hph : s.phases task = .act) :
    task ∉ (records s.events).map Prod.fst := by
  rw [h.completed, hph]
  rintro ⟨_, hreturned⟩
  cases hreturned

include h in
theorem Faithful.not_drained {task : Task} (hph : s.phases task = .act)
    (entries : List BlockedRequest) : (task, .drained entries) ∉ s.events := by
  rw [h.drained, hph]
  intro hreturned
  cases hreturned

def PhasesFit (operations : Task → Operation) (s : ProxySystem Task) : Prop :=
  ∀ task, PhaseFits (operations task) (s.phases task)

variable [DecidableEq Task]

theorem PhasesFit.step (h : PhasesFit operations s) (hstep : ProxyStep tools operations s m s') :
    PhasesFit operations s' := by
  subst hstep
  intro task
  change PhaseFits _ (update s.phases m.task _ task)
  by_cases htask : task = m.task
  · subst htask
    rw [update_self]
    exact phaseFits_advance (h m.task)
  · rw [update_of_ne htask]
    exact h task

theorem exists_recordEffect (h : PhasesFit operations s) (hstep : ProxyStep tools operations s m s') :
    ∃ state phase events, RecordEffect (operations m.task) s.state (s.phases m.task) (state, phase, events) ∧
      s' = ⟨state, update s.phases m.task phase, s.events ++ events.map fun event => (m.task, event)⟩ :=
  ⟨_, _, _, recordEffect_advance (h m.task), hstep⟩

include h in
theorem Faithful.silent (state : ConfigState) {task : Task} {phase : Phase}
    (hrecord : ∀ entry, operations task = .recordBlocked entry →
      (phase = .returned .ok ↔ s.phases task = .returned .ok))
    (hdrain : ∀ entries, phase = .returned (.drained entries) ↔ s.phases task = .returned (.drained entries)) :
    Faithful operations ⟨state, update s.phases task phase, s.events ++ []⟩ := by
  rw [append_nil]
  refine ⟨fun other => ?_, h.once, fun other entries => ?_, h.evicted⟩
  · rw [h.completed]
    refine and_congr_right fun ⟨entry, hent⟩ => ?_
    by_cases hoth : other = task
    · subst hoth
      simp only [update_self, hrecord entry hent]
    · simp only [update_of_ne hoth]
  · rw [h.drained]
    by_cases hoth : other = task
    · subst hoth
      simp only [update_self, hdrain]
    · simp only [update_of_ne hoth]

include h in
theorem Faithful.recorded (state : ConfigState) {task : Task} {entry : BlockedRequest}
    (hop : operations task = .recordBlocked entry) (hph : s.phases task = .act) (blocked : List BlockedRequest) :
    Faithful operations
      ⟨state, update s.phases task (.returned .ok), s.events ++ recordingEvents task entry blocked⟩ := by
  refine ⟨fun other => ?_, ?_, fun other entries => ?_, fun other oldest later hmem => ?_⟩
  · rw [records_append, records_recordingEvents, map_append, mem_append, h.completed]
    by_cases hoth : other = task
    · subst hoth
      simp [hop]
    · simp [hoth]
  · rw [records_append, records_recordingEvents, map_append]
    refine nodup_append.mpr ⟨h.once, by simp, fun done hdone other hoth heq => ?_⟩
    have hoth : other = task := by simpa using hoth
    rw [heq, hoth] at hdone
    exact h.not_completed hph hdone
  · have hnew : (other, Event.drained entries) ∉ recordingEvents task entry blocked := by
      intro hmem
      obtain ⟨_, heq | ⟨_, _, heq, _⟩⟩ := mem_recordingEvents hmem <;> cases heq
    rw [mem_append, or_iff_left hnew]
    by_cases hoth : other = task
    · subst hoth
      refine iff_of_false (h.not_drained hph entries) ?_
      simp
    · simp only [update_of_ne hoth]
      exact h.drained other entries
  · rcases mem_append.mp hmem with hmem | hmem
    · exact h.evicted other oldest later hmem
    · obtain ⟨_, heq | ⟨_, _, heq, hlong⟩⟩ := mem_recordingEvents hmem
      · cases heq
      · cases heq
        exact hlong

include h in
theorem Faithful.drains (state : ConfigState) {task : Task}
    (hop : operations task = .drainBlocked) (hph : s.phases task = .act) (entries : List BlockedRequest) :
    Faithful operations
      ⟨state, update s.phases task (.returned (.drained entries)), s.events ++ [(task, .drained entries)]⟩ := by
  have hrecords : records [(task, Event.drained entries)] = [] := rfl
  refine ⟨fun other => ?_, ?_, fun other entries' => ?_, fun other oldest later hmem => ?_⟩
  · rw [records_append, hrecords, append_nil, h.completed]
    by_cases hoth : other = task
    · subst hoth
      simp [hop]
    · simp [update_of_ne hoth]
  · rw [records_append, hrecords, append_nil]
    exact h.once
  · rw [mem_append]
    by_cases hoth : other = task
    · subst hoth
      simp [h.not_drained hph, eq_comm]
    · simp only [update_of_ne hoth, h.drained]
      simp [hoth]
  · rcases mem_append.mp hmem with hmem | hmem
    · exact h.evicted other oldest later hmem
    · cases mem_singleton.mp hmem

include h in
theorem Faithful.step (hfits : PhasesFit operations s)
    (hstep : ProxyStep tools operations s m s') : Faithful operations s' := by
  obtain ⟨state, phase, events, heff, rfl⟩ := exists_recordEffect hfits hstep
  cases heff with
  | quiet _ _ _ _ hrecord hdrain => exact h.silent state hrecord hdrain
  | writeReload _ hph => exact h.silent _ (by simp [hph]) (by simp [hph])
  | writeForced newState hph hrecord =>
      exact h.silent _ (fun entry hent => absurd hent (hrecord entry)) (by simp [hph])
  | writeUpdate _ hph hrecord =>
      exact h.silent _ (fun entry hent => absurd hent (hrecord entry)) (by simp [hph])
  | recorded entry hop hph =>
      rw [map_recorded]
      exact h.recorded _ hop hph s.state.blocked
  | drained hop hph => exact h.drains _ hop hph s.state.blocked

theorem Accounted.step (h : Accounted operations s) (hfits : PhasesFit operations s)
    (hund : Undisturbed operations s m) (hstep : ProxyStep tools operations s m s') : Accounted operations s' := by
  have hfaithful := h.faithful.step hfits hstep
  obtain ⟨state, phase, events, heff, rfl⟩ := exists_recordEffect hfits hstep
  unfold Undisturbed at hund
  cases heff with
  | quiet _ _ hblocked htot =>
      refine ⟨hfaithful, ?_, ?_⟩
      · simpa [htot] using h.total
      · simpa [hblocked] using h.entries
  | writeReload newState hph =>
      rw [hph] at hund
      refine ⟨hfaithful, ?_, ?_⟩
      · simpa [hund.2] using h.total
      · simpa [hund.1] using h.entries
  | writeForced newState hph =>
      rw [hph] at hund
      have htot : newState.blockedTotal = s.state.blockedTotal := hund
      refine ⟨hfaithful, ?_, ?_⟩
      · simpa [htot] using h.total
      · simpa using h.entries
  | writeUpdate newState hph =>
      rw [hph] at hund
      obtain ⟨hblocked, htot⟩ := hund rfl rfl
      refine ⟨hfaithful, ?_, ?_⟩
      · simpa [htot] using h.total
      · simpa [hblocked] using h.entries
  | recorded entry hop hph =>
      rw [hph] at hund
      rw [map_recorded] at hfaithful ⊢
      refine ⟨hfaithful, ?_, ?_⟩
      · rw [records_append, records_recordingEvents, length_append, length_singleton, ← h.total]
        exact saturatingSucc_eq.mpr (hund entry hop)
      · rw [records_append, records_recordingEvents, removed_append, removed_recordingEvents, map_append,
          h.entries, append_assoc, append_assoc, evictOldest_append]
        rfl
  | drained hop hph =>
      refine ⟨hfaithful, ?_, ?_⟩
      · rw [records_append]
        simpa [records] using h.total
      · rw [records_append, removed_append]
        simpa [records, removed] using h.entries

theorem Accounted.undisturbed (h : Accounted operations s) (hstep : ProxyStep tools operations s m s')
    (h' : Accounted operations s') : Undisturbed operations s m := by
  unfold Undisturbed
  have htot := h'.total
  have hents := h'.entries
  subst hstep
  unfold ProxySystem.move at htot hents
  split
  · rename_i newState hph
    rw [hph] at htot hents
    simp only [advance, goTo, map_nil, append_nil] at htot hents
    rw [h.entries] at hents
    exact ⟨(append_cancel_left hents).symm, htot.trans h.total.symm⟩
  · rename_i newState hph
    rw [hph] at htot
    simp only [advance, goTo, map_nil, append_nil] at htot
    exact htot.trans h.total.symm
  · rename_i newState previousCfg constraints hph
    intro hconstraints hconfig
    rw [hph] at htot hents
    simp only [advance, goTo, hconstraints, hconfig, ne_eq, not_true_eq_false, or_self, if_false, map_nil,
      append_nil] at htot hents
    rw [h.entries] at hents
    exact ⟨(append_cancel_left hents).symm, htot.trans h.total.symm⟩
  · rename_i hph
    intro entry hop
    rw [hph, hop] at htot
    simp only [advance, act, map_recorded] at htot
    rw [records_append, records_recordingEvents, length_append, length_singleton, ← h.total] at htot
    exact saturatingSucc_eq.mp htot
  · trivial

/-! ## Runs -/

/-- In a run of any number of tasks every entry is accounted for and the count never falls exactly when every step meets
the condition. -/
theorem record_accounted_iff (tools : ProxyTools) (operations : Task → Operation) (state : ConfigState)
    (hblocked : state.blocked = []) (htotal : state.blockedTotal = 0) (ms : List (Move Task)) :
    (StatesMeet (ProxyStep tools operations) (Accounted operations) (.start state) ms ∧
      StepsMeet (ProxyStep tools operations)
        (fun s m => s.state.blockedTotal ≤ (s.move tools operations m).state.blockedTotal) (.start state) ms) ↔
      StepsMeet (ProxyStep tools operations) (Undisturbed operations) (.start state) ms := by
  have hfits : PhasesFit operations (.start state : ProxySystem Task) := fun _ => trivial
  have hst : Accounted operations (.start state : ProxySystem Task) :=
    ⟨Faithful.start state, htotal, by simp [ProxySystem.start, hblocked]⟩
  have hiff : StatesMeet (ProxyStep tools operations) (Accounted operations) (.start state) ms ↔
      StepsMeet (ProxyStep tools operations) (Undisturbed operations) (.start state) ms :=
    statesMeet_iff_stepsMeet (I := fun s => Accounted operations s ∧ PhasesFit operations s)
      (J := PhasesFit operations) ms ⟨hst, hfits⟩
      (fun _ _ _ hs hund hstep => ⟨hs.1.step hs.2 hund hstep, hs.2.step hstep⟩) (fun _ hs => hs.1)
      hfits (fun _ _ _ hs hstep => hs.step hstep) fun _ _ _ _ hs hstep hs' => hs.undisturbed hstep hs'
  refine ⟨fun h => hiff.mp h.1, fun h => ⟨hiff.mpr h, ?_⟩⟩
  intro ms₁ m s₁ s₂ hpre hrun hstep
  have hs₁ := hiff.mpr h ms₁ s₁ ((prefix_append ms₁ [m]).trans hpre) hrun
  have hs₂ := hiff.mpr h (ms₁ ++ [m]) s₂ hpre (hrun.append (.single hstep))
  obtain ⟨state, phase, events, _, rfl⟩ :=
    exists_recordEffect (hrun.invariant hfits fun _ _ _ hs hstep => hs.step hstep) hstep
  rw [← hstep, hs₁.total, hs₂.total, records_append, length_append]
  exact Nat.le_add_right _ _

/-! ## A reload while a request is recorded -/

def exampleTools : ProxyTools := ⟨fun _ => none, fun _ => none, fun _ => .ok ()⟩

def emptyState : ConfigState := ⟨{}, [], [], none, {}, [], 0⟩

def exampleRequest : BlockedRequest :=
  ⟨"evil.com", "not_allowed", none, some "GET", some .full, "http", none, none, some 80, 0⟩

def recordAndReload : Bool → Operation
  | true => .recordBlocked exampleRequest
  | false => .reloadIfNeeded

/-- The request comes while the configuration is reloaded, and is recorded after the reload. -/
def recordMoves : List (Move Bool) :=
  [⟨false, {}⟩, ⟨true, {}⟩, ⟨false, { reload := .fresh emptyState }⟩, ⟨false, {}⟩, ⟨false, {}⟩, ⟨true, {}⟩, ⟨true, {}⟩]

theorem record_after_reload_accounted :
    StatesMeet (ProxyStep exampleTools recordAndReload) (Accounted recordAndReload) (.start emptyState) recordMoves ∧
      StepsMeet (ProxyStep exampleTools recordAndReload)
        (fun s m => s.state.blockedTotal ≤ (s.move exampleTools recordAndReload m).state.blockedTotal)
        (.start emptyState) recordMoves := by
  refine (record_accounted_iff exampleTools recordAndReload emptyState rfl rfl recordMoves).mpr ?_
  refine stepsMeet_cons fun s₁ h₁ => ⟨trivial, stepsMeet_cons fun s₂ h₂ => ⟨?_, stepsMeet_cons fun s₃ h₃ => ⟨?_,
    stepsMeet_cons fun s₄ h₄ => ⟨?_, stepsMeet_cons fun s₅ h₅ => ⟨?_, stepsMeet_cons fun s₆ h₆ => ⟨?_,
      stepsMeet_cons fun s₇ h₇ => ⟨?_, stepsMeet_nil⟩⟩⟩⟩⟩⟩⟩ <;> subst_vars
  · trivial
  · trivial
  · trivial
  · exact ⟨rfl, rfl⟩
  · trivial
  · intro _ _
    decide

/-- The reload reads the record before the request is recorded, and writes it back afterwards. -/
def racingMoves : List (Move Bool) :=
  [⟨false, {}⟩, ⟨false, { reload := .fresh emptyState }⟩, ⟨false, {}⟩, ⟨true, {}⟩, ⟨true, {}⟩, ⟨true, {}⟩, ⟨false, {}⟩]

theorem reload_loses_request :
    ¬ ∀ (tools : ProxyTools) (operations : Bool → Operation) (state : ConfigState), state.blocked = [] →
      state.blockedTotal = 0 → ∀ ms : List (Move Bool),
        StatesMeet (ProxyStep tools operations) (Accounted operations) (.start state) ms ∧
          StepsMeet (ProxyStep tools operations)
            (fun s m => s.state.blockedTotal ≤ (s.move tools operations m).state.blockedTotal) (.start state) ms := by
  intro h
  have hrun : ∃ s : ProxySystem Bool,
      Run (ProxyStep exampleTools recordAndReload) (.start emptyState) racingMoves s ∧ s.state.blockedTotal = 0 ∧
        (records s.events).length = 1 :=
    ⟨_, .cons rfl (.cons rfl (.cons rfl (.cons rfl (.cons rfl (.cons rfl (.cons rfl (.nil _))))))), rfl, rfl⟩
  obtain ⟨s, hrun, htot, hlen⟩ := hrun
  have haccounted := (h exampleTools recordAndReload emptyState rfl rfl racingMoves).1 racingMoves s prefix_rfl hrun
  rw [haccounted.total, hlen] at htot
  cases htot

end CodexStudy.NetworkProxy
