import CodexStudy.Readiness.Lemmas.Flag

/-!
# Who is woken

The one send of a flag is lost on a task that has seen the flag unset and has not yet subscribed to the channel.
-/

namespace CodexStudy.Readiness

open CodexStudy.Lib ReadinessFlag Function Phase

/-- A task waits on the channel, though the flag is set and nobody has a send to perform. -/
def LostWakeup (s : ReadinessSystem) : Prop :=
  s.shared.ready = true ∧ (∀ t, (s.task t).sends = false) ∧ ∃ t, s.task t = .waitChanges s.shared.tx.version

/-- Nobody waits in vain, and a flag is marked at most once, with a token that was subscribed. -/
structure WakesUp (s : ReadinessSystem) : Prop where
  woken : ¬LostWakeup s
  once : MarkedOnce s.shared.log

/-- Where a value is sent and nobody listens, no task is between its look at the flag and its subscription. -/
def SendIsHeard (s : ReadinessSystem) (a : Nat × ReadinessStep) : Prop :=
  a.2 = .go → (s.task a.1).sends = true → s.shared.tx.receivers = ∅ → ∀ u, s.task u ≠ .waitSubscribes

/-- The flag is set, and its send is over and was not stored. -/
structure Unheard (s : ReadinessSystem) : Prop where
  ready : s.shared.ready = true
  value : s.shared.tx.value = false
  sends : ∀ t, (s.task t).sends = false

/-- The task listens, or will listen without another look at the flag. -/
def Phase.listens (phase : Phase) : Prop := phase.seen ≠ none ∨ phase = .waitSubscribes

section

variable {s s' : ReadinessSystem} {t : Nat} {old flag : ReadinessFlag} {p phase : Phase} {a : Nat × ReadinessStep}

theorem not_listens_idle : ¬idle.listens := by
  rintro (h | h)
  · exact h rfl
  · cases h

/-- What a step that is not a send changes of the flag, and who listens after it. -/
structure Silent (old flag : ReadinessFlag) (p phase : Phase) : Prop where
  ready : flag.ready = old.ready
  value : flag.tx.value = old.tx.value
  listens : old.ready = true → phase.listens → p.listens

theorem Silent.of_not (hrdy : flag.ready = old.ready) (hval : flag.tx.value = old.tx.value)
    (hseen : phase.seen = none) (hph : phase ≠ .waitSubscribes) : Silent old flag p phase :=
  ⟨hrdy, hval, fun _ h => h.elim (absurd hseen) fun h => absurd h hph⟩

theorem silent_go (hgo : old.go t p = some (flag, phase)) (hp : p.sends = false) (hph : phase.sends = false) :
    Silent old flag p phase := by
  unfold go at hgo
  cases p with
  | idle => cases hgo
  | markSends | readySends => cases hp
  | subscribeLoads | markLoads token =>
      cases hgo
      split <;> exact .of_not rfl rfl rfl (by intro h; cases h)
  | readyLoads inWait =>
      cases hgo
      split
      next => exact answered_true inWait ▸ .of_not rfl rfl rfl (by intro h; cases h)
      next => exact .of_not rfl rfl rfl (by intro h; cases h)
  | subscribeLocks | markLocks | readyTries | subscribeChecks | subscribeDraws =>
      dsimp only at hgo
      split at hgo
      all_goals cases hgo
      all_goals exact .of_not rfl rfl rfl (by intro h; cases h)
  | markRemoves token =>
      dsimp only at hgo
      split at hgo
      next =>
        cases hgo
        cases hph
      next =>
        cases hgo
        exact .of_not rfl rfl rfl (by intro h; cases h)
  | readyLooks inWait =>
      dsimp only at hgo
      split at hgo
      next =>
        cases hgo
        split at hph
        next hset =>
          rw [if_pos hset, answered_true]
          exact .of_not hset.symm rfl rfl (by intro h; cases h)
        next => cases hph
      next =>
        cases hgo
        exact .of_not rfl rfl rfl (by intro h; cases h)
  | readyReloads inWait =>
      cases hgo
      refine ⟨rfl, rfl, fun hrdy h => ?_⟩
      rw [hrdy, answered_true] at h
      exact absurd h not_listens_idle
  | waitSubscribes =>
      cases hgo
      exact ⟨rfl, rfl, fun _ _ => .inr rfl⟩
  | waitBorrows seen =>
      dsimp only at hgo
      split at hgo
      next =>
        cases hgo
        exact .of_not rfl rfl rfl (by intro h; cases h)
      next =>
        cases hgo
        exact ⟨rfl, rfl, fun _ _ => .inl fun h => by cases h⟩
  | waitChanges seen =>
      dsimp only at hgo
      split at hgo
      next => cases hgo
      next =>
        cases hgo
        exact ⟨rfl, rfl, fun _ _ => .inl fun h => by cases h⟩

theorem silent_step {step : ReadinessStep} (h : old.step t p step = some (flag, phase))
    (hsend : step = .go → p.sends = false) (hph : phase.sends = false) : Silent old flag p phase := by
  cases step with
  | call call =>
      unfold step at h
      dsimp only at h
      split at h
      next =>
        cases h
        cases call <;> exact .of_not rfl rfl rfl (by intro h; cases h)
      next => cases h
  | go => exact silent_go h (hsend rfl) hph
  | leave =>
      unfold step leave at h
      dsimp only at h
      split at h
      all_goals cases h
      all_goals exact .of_not rfl rfl rfl (by intro h; cases h)

theorem eq_go_of_sends {step : ReadinessStep} (h : old.step t p step = some (flag, phase)) (hp : p.sends = true) :
    step = .go := by
  cases step with
  | call call =>
      unfold step at h
      dsimp only at h
      split at h
      next hidle =>
        rw [hidle] at hp
        cases hp
      next => cases h
  | go => rfl
  | leave =>
      unfold step leave at h
      dsimp only at h
      split at h
      all_goals first | cases hp | cases h

theorem go_of_sends (h : old.go t p = some (flag, phase)) (hp : p.sends = true) :
    flag.ready = old.ready ∧ flag.tx = old.tx.send true ∧ phase = .idle := by
  unfold go at h
  cases p with
  | markSends token =>
      cases h
      exact ⟨rfl, rfl, rfl⟩
  | readySends inWait =>
      cases h
      exact ⟨rfl, rfl, answered_true inWait⟩
  | _ => cases hp

/-! ## Where the send is heard -/

/-- Once the send is over and was not stored, nobody listens. -/
structure HeardSound (s : ReadinessSystem) : Prop where
  sound : ReadinessSound s
  heard : Unheard s → ∀ u, ¬(s.task u).listens

theorem heardSound_new : HeardSound .new :=
  ⟨readinessSound_new, fun h => by cases h.ready⟩

theorem heard_move (h : HeardSound s) (hgd : SendIsHeard s a) (hmove : ReadinessMove s a s') : HeardSound s' := by
  refine ⟨sound_readinessMove h.sound hmove, fun hunheard => ?_⟩
  obtain ⟨t, step⟩ := a
  obtain ⟨flag, phase, hstep, rfl⟩ := Tasks.move_iff.mp hmove
  have hph : phase.sends = false := by simpa only [update_self] using hunheard.sends t
  cases hsend : (s.task t).sends with
  | true =>
    -- The send: nobody has a receiver, or the value would be stored.
    obtain rfl := eq_go_of_sends hstep hsend
    obtain ⟨-, htx, rfl⟩ := go_of_sends hstep hsend
    have hnobody : s.shared.tx.receivers = ∅ := by
      rcases send_cases s.shared.tx with ⟨hnobody, -⟩ | ⟨hval, -⟩
      · exact hnobody
      · exact absurd (hval.symm.trans (htx ▸ hunheard.value)) (by decide)
    intro u
    by_cases hu : u = t
    · subst hu
      simpa only [update_self] using not_listens_idle
    · simp only [update_of_ne hu]
      rintro (hseen | hwait)
      · obtain ⟨seen, hseen⟩ := Option.ne_none_iff_exists'.mp hseen
        have hmem := ((h.sound.own u).listens seen hseen).1
        rw [hnobody] at hmem
        exact Finset.notMem_empty _ hmem
      · exact hgd rfl hsend hnobody u hwait
  | false =>
    obtain ⟨hrdy, hval, hlst⟩ := silent_step hstep (fun _ => hsend) hph
    have hset : s.shared.ready = true := hrdy.symm.trans hunheard.ready
    have hbef : Unheard s := by
      refine ⟨hset, hval.symm.trans hunheard.value, fun u => ?_⟩
      by_cases hu : u = t
      · exact hu ▸ hsend
      · simpa only [update_of_ne hu] using hunheard.sends u
    intro u
    by_cases hu : u = t
    · subst hu
      simp only [update_self]
      exact fun h' => h.heard hbef u (hlst hset h')
    · simpa only [update_of_ne hu] using h.heard hbef u

theorem HeardSound.wakesUp (h : HeardSound s) : WakesUp s := by
  refine ⟨?_, h.sound.shared.once⟩
  rintro ⟨hrdy, hsnd, t, hwaits⟩
  cases hval : s.shared.tx.value with
  | true => exact Nat.lt_irrefl _ ((h.sound.own t).changes _ hwaits hval)
  | false =>
      refine h.heard ⟨hrdy, hval, hsnd⟩ t (.inl ?_)
      rw [hwaits]
      exact Option.some_ne_none _

theorem falls_asleep (hunheard : Unheard s) {u : Nat} (hu : s.task u = .waitSubscribes) :
    ∃ more s', Run ReadinessMove s more s' ∧ LostWakeup s' := by
  obtain ⟨hrdy, hval, hsnd⟩ := hunheard
  have hsubscribe : ReadinessMove s (u, .go)
      ⟨{ s.shared with tx := s.shared.tx.subscribe u },
        update s.task u (.waitBorrows s.shared.tx.version)⟩ := Tasks.move_of_eq hu rfl
  have hborrow : ReadinessMove
      ⟨{ s.shared with tx := s.shared.tx.subscribe u },
        update s.task u (.waitBorrows s.shared.tx.version)⟩ (u, .go)
      ⟨{ s.shared with tx := s.shared.tx.subscribe u },
        update (update s.task u (.waitBorrows s.shared.tx.version)) u
          (.waitChanges s.shared.tx.version)⟩ :=
    Tasks.move_of_eq (update_self ..) (if_neg fun h => absurd (hval.symm.trans h) (by decide))
  refine ⟨_, _, .cons hsubscribe (.single hborrow), hrdy, fun t => ?_, u, update_self ..⟩
  by_cases ht : t = u
  · subst ht
    simp only [update_self, sends]
  · simpa only [update_of_ne ht] using hsnd t

/-- A send that nobody hears leaves a task that was about to subscribe asleep. -/
theorem lost_of_unheard (h : ReadinessSound s) (hmove : ReadinessMove s a s') (hgd : ¬SendIsHeard s a) :
    ∃ more s'', Run ReadinessMove s' more s'' ∧ LostWakeup s'' := by
  unfold SendIsHeard at hgd
  push Not at hgd
  obtain ⟨hgo, hsnd, hnobody, u, hu⟩ := hgd
  obtain ⟨t, step⟩ := a
  obtain ⟨flag, phase, hstep, rfl⟩ := Tasks.move_iff.mp hmove
  cases hgo
  dsimp only at hstep hsnd
  obtain ⟨hrdy, htx, rfl⟩ := go_of_sends hstep hsnd
  obtain ⟨hset, hval⟩ := (h.own t).sends hsnd
  have hne : u ≠ t := by
    rintro rfl
    rw [hu] at hsnd
    cases hsnd
  have hunsent : s.shared.tx.send true = s.shared.tx := if_pos hnobody
  refine falls_asleep ⟨hrdy.trans hset, ?_, fun v => ?_⟩ ((update_of_ne hne ..).trans hu)
  · exact (congrArg Watch.value (htx.trans hunsent)).trans hval
  · by_cases hv : v = t
    · subst hv
      simp only [update_self, sends]
    · simpa only [update_of_ne hv] using (h.apart t v (Ne.symm hv)).send hsnd

end

/-- In a run in which the send is heard, or nobody is between its look at the flag and its subscription, nobody waits in
vain; and a flag is marked at most once, with a subscribed token. A run up to another send can be continued so that a
task waits in vain. -/
theorem wakesUp_of_sendIsHeard (steps : List (Nat × ReadinessStep)) :
    (StepsMeet ReadinessMove SendIsHeard .new steps → StatesMeet ReadinessMove WakesUp .new steps) ∧
    StatesMeet ReadinessMove (fun s => MarkedOnce s.shared.log) .new steps ∧
    ∀ s a s', Run ReadinessMove .new steps s → ReadinessMove s a s' → ¬SendIsHeard s a →
      ∃ more s'', Run ReadinessMove s' more s'' ∧ LostWakeup s'' := by
  have hsnd : ∀ steps s, Run ReadinessMove .new steps s → ReadinessSound s := fun steps s hrun =>
    hrun.invariant readinessSound_new fun _ _ _ h hmove => sound_readinessMove h hmove
  refine ⟨fun h past s hpast hrun => ?_, fun past s _ hrun => ?_, fun s a s' hrun => ?_⟩
  · have hstep : ∀ s a s', HeardSound s → SendIsHeard s a → ReadinessMove s a s' → HeardSound s' :=
      fun _ _ _ hs hgd hmove => heard_move hs hgd hmove
    exact (statesMeet_of_stepsMeet heardSound_new hstep h past s hpast hrun).wakesUp
  · exact (hsnd past s hrun).shared.once
  · exact lost_of_unheard (hsnd steps s hrun)

/-! ## Two runs -/

/-- The first task subscribes with the token 1. -/
def subscribes : List (Nat × ReadinessStep) := [(0, .call .subscribe), (0, .go), (0, .go), (0, .go), (0, .go)]

def looks : List (Nat × ReadinessStep) := [(1, .call .waitReady), (1, .go), (1, .go), (1, .go), (1, .go)]

/-- The first task marks the flag, and has only the send to perform. -/
def marks : List (Nat × ReadinessStep) := [(0, .call (.markReady 1)), (0, .go), (0, .go), (0, .go)]

def listens : List (Nat × ReadinessStep) := [(1, .go), (1, .go)]

/-- The first task sends, and the second one finds the new version and the value. -/
def wakes : List (Nat × ReadinessStep) := [(0, .go), (1, .go), (1, .go)]

/-- The flag is marked while the task that waits has looked at the flag and has not subscribed. -/
theorem waits_in_vain : ¬∀ steps, StatesMeet ReadinessMove WakesUp .new steps := by
  intro h
  have hstt : ∃ s s', (subscribes ++ looks ++ marks).foldlM (Tasks.advance step)
      ReadinessSystem.new = some s ∧
      s.advance step (0, .go) = some s' ∧ (s.task 0).sends = true ∧ s.shared.tx.receivers = ∅ ∧
      s.task 1 = .waitSubscribes := ⟨_, _, rfl, rfl, rfl, rfl, rfl⟩
  obtain ⟨s, s', hsts, hmove, hsnd, hnobody, hwaits⟩ := hstt
  have hrun : Run ReadinessMove .new (subscribes ++ looks ++ marks) s := .of_foldlM hsts
  have hsound : ReadinessSound s := hrun.invariant readinessSound_new fun _ _ _ h hmove => sound_readinessMove h hmove
  obtain ⟨more, s'', hmore, hlost⟩ :=
    lost_of_unheard hsound hmove fun hgd => hgd rfl hsnd hnobody 1 hwaits
  exact (h _ _ s'' List.prefix_rfl ((hrun.append (.single hmove)).append hmore)).woken hlost

/-- The task that waits subscribes before the flag is marked, and is woken. -/
theorem woken_after_listening :
    StatesMeet ReadinessMove WakesUp .new (subscribes ++ looks ++ listens ++ marks ++ wakes) := by
  refine (wakesUp_of_sendIsHeard _).1 ?_
  have hrun : ∃ s, (subscribes ++ looks ++ listens ++ marks ++ wakes).foldlM
      (fun s a => if !(s.task a.1).sends || s.shared.tx.receivers ≠ ∅ then s.advance step a else none)
      ReadinessSystem.new = some s := ⟨_, rfl⟩
  obtain ⟨s, hrun⟩ := hrun
  refine stepsMeet_of_foldlM (fun s a hck _ hsnd hnobody => ?_) hrun
  rw [hsnd, hnobody] at hck
  cases hck

end CodexStudy.Readiness
