import CodexStudy.Readiness.Flag

/-!
# What is known of the flag and of the tasks that use it
-/

namespace CodexStudy.Readiness

open CodexStudy.Lib List Phase ReadinessFlag

/-! ## What is known in every state -/

namespace Phase

def holdsLock : Phase → Bool
  | subscribeChecks | subscribeDraws | markRemoves _ | readyLooks _ => true
  | _ => false

def sends : Phase → Bool
  | markSends _ | readySends _ => true
  | _ => false

/-- The version that the receiver of the task has seen. -/
def seen : Phase → Option Nat
  | waitBorrows seen | waitChanges seen => some seen
  | _ => none

theorem of_sends {phase : Phase} (h : phase.sends = true) : phase.holdsLock = false ∧ phase.seen = none := by
  cases phase with
  | markSends | readySends => exact ⟨rfl, rfl⟩
  | _ => cases h

end Phase

/-- A token that `mark_ready` has returned `true` for was subscribed before, and it was the first. -/
def MarkedOnce (log : List ReadinessEvent) : Prop :=
  ∀ before token after, log = before ++ .marked token :: after →
    .subscribed token ∈ before ∧ ∀ other, .marked other ∉ before

structure FlagSound (flag : ReadinessFlag) : Prop where
  tokens : flag.ready = true → flag.tokens = ∅
  value : flag.tx.value = true → flag.ready = true
  subscribed : ∀ token ∈ flag.tokens, .subscribed token ∈ flag.log
  marked : ∀ token, .marked token ∈ flag.log → flag.ready = true
  once : MarkedOnce flag.log

structure PhaseSound (t : Nat) (flag : ReadinessFlag) (phase : Phase) : Prop where
  locked : phase.holdsLock = true → flag.locked = true
  draws : phase = .subscribeDraws → flag.ready = false
  sends : phase.sends = true → flag.ready = true ∧ flag.tx.value = false
  marks : ∀ token, phase = .markSends token → .subscribed token ∈ flag.log ∧ ∀ other, .marked other ∉ flag.log
  listens : ∀ seen, phase.seen = some seen → t ∈ flag.tx.receivers ∧ seen ≤ flag.tx.version
  changes : ∀ seen, phase = .waitChanges seen → flag.tx.value = true → seen < flag.tx.version

theorem PhaseSound.plain {t : Nat} {flag : ReadinessFlag} {phase : Phase} (hlock : phase.holdsLock = false)
    (hsend : phase.sends = false) (hseen : phase.seen = none) : PhaseSound t flag phase := by
  constructor
  · intro hp
    rw [hlock] at hp
    cases hp
  · rintro rfl
    cases hlock
  · intro hp
    rw [hsend] at hp
    cases hp
  · rintro token rfl
    cases hsend
  · intro seen hp
    rw [hseen] at hp
    cases hp
  · rintro seen rfl
    cases hseen

structure PhasesApart (p q : Phase) : Prop where
  lock : p.holdsLock = true → q.holdsLock = false
  send : p.sends = true → q.sends = false

theorem PhasesApart.symm {p q : Phase} (h : PhasesApart p q) : PhasesApart q p := by
  constructor
  · intro hq
    by_contra hp
    rw [h.lock (by simpa using hp)] at hq
    cases hq
  · intro hq
    by_contra hp
    rw [h.send (by simpa using hp)] at hq
    cases hq

abbrev ReadinessSound (s : ReadinessSystem) : Prop := Tasks.Keeps FlagSound PhaseSound PhasesApart s

theorem readinessSound_new : ReadinessSound .new := by
  constructor
  · constructor
    · exact fun _ => rfl
    · exact fun h => by cases h
    · exact fun token h => absurd h (Finset.notMem_empty token)
    · exact fun token h => absurd h not_mem_nil
    · intro before token after h
      exact absurd h (by simp [ReadinessSystem.new])
  · exact fun t => .plain rfl rfl rfl
  · exact fun t u _ => ⟨fun _ => rfl, fun _ => rfl⟩

theorem MarkedOnce.append {log : List ReadinessEvent} (h : MarkedOnce log) (event : ReadinessEvent)
    (hevent : ∀ token, event = .marked token → .subscribed token ∈ log ∧ ∀ other, .marked other ∉ log) :
    MarkedOnce (log ++ [event]) := by
  intro before token after heq
  rcases eq_nil_or_concat after with rfl | ⟨after, last, rfl⟩
  · obtain ⟨rfl, hlast⟩ := append_inj' heq rfl
    exact hevent token (singleton_inj.mp hlast)
  · have heq' : log ++ [event] = (before ++ .marked token :: after) ++ [last] := by
      rw [heq, append_assoc, cons_append, concat_eq_append]
    exact h before token after (append_inj' heq' rfl).1

/-! ## What a step keeps -/

section

variable {s : ReadinessSystem} {t : Nat} {flag : ReadinessFlag} {phase : Phase}

/-- What is known holds again when the task `t` has moved. -/
structure Kept (s : ReadinessSystem) (t : Nat) (flag : ReadinessFlag) (phase : Phase) : Prop where
  shared : FlagSound flag
  own : PhaseSound t flag phase
  other : ∀ u, u ≠ t → PhaseSound u flag (s.task u) ∧ PhasesApart phase (s.task u)

variable (h : ReadinessSound s)

include h in
theorem kept_phase (hown : PhaseSound t s.shared phase) (hlock : phase.holdsLock = true → (s.task t).holdsLock = true)
    (hsend : phase.sends = true → (s.task t).sends = true) : Kept s t s.shared phase := by
  refine ⟨h.shared, hown, fun u hu => ⟨h.own u, ?_⟩⟩
  have hap := h.apart t u (Ne.symm hu)
  exact ⟨fun hp => hap.lock (hlock hp), fun hp => hap.send (hsend hp)⟩

include h in
theorem holdsLock_of_free (hfree : ¬s.shared.locked = true) (u : Nat) :
    (s.task u).holdsLock = false := by
  by_contra hhld
  exact hfree ((h.own u).locked (by simpa using hhld))

include h in
theorem kept_lock (hfree : ¬s.shared.locked = true) (hdraws : phase ≠ .subscribeDraws)
    (hsend : phase.sends = false) (hseen : phase.seen = none) : Kept s t s.shared.lock phase := by
  have hfree' := holdsLock_of_free h hfree
  constructor
  · obtain ⟨htks, hval, hsub, hmkd, honce⟩ := h.shared
    exact ⟨htks, hval, hsub, hmkd, honce⟩
  · constructor
    · exact fun _ => rfl
    · exact fun hp => absurd hp hdraws
    · intro hp
      rw [hsend] at hp
      cases hp
    · rintro token rfl
      cases hsend
    · intro seen hp
      rw [hseen] at hp
      cases hp
    · rintro seen rfl
      cases hseen
  · intro u hu
    obtain ⟨-, hdraws, hsnd, hmarks, hlst, hchgs⟩ := h.own u
    refine ⟨⟨fun _ => rfl, hdraws, hsnd, hmarks, hlst, hchgs⟩, fun _ => hfree' u, fun hp => ?_⟩
    rw [hsend] at hp
    cases hp

theorem other_of_unlock (flag : ReadinessFlag) (h : ReadinessSound s) (hhld : (s.task t).holdsLock = true)
    (hrdy : s.shared.ready = true → flag.ready = true) (hlog : ∀ e, e ∈ s.shared.log → e ∈ flag.log)
    (hmkd : ∀ token, .marked token ∈ flag.log → .marked token ∈ s.shared.log) (htx : flag.tx = s.shared.tx)
    {u : Nat} (hu : u ≠ t) : PhaseSound u flag (s.task u) := by
  obtain ⟨hlocked, hdraws, hsnd, hmarks, hlst, hchgs⟩ := h.own u
  have hnot : (s.task u).holdsLock = false := (h.apart t u (Ne.symm hu)).lock hhld
  constructor
  · intro hp
    rw [hnot] at hp
    cases hp
  · intro hp
    rw [hp] at hnot
    cases hnot
  · exact fun hp => ⟨hrdy (hsnd hp).1, htx ▸ (hsnd hp).2⟩
  · intro token hp
    obtain ⟨hsub, hnone⟩ := hmarks token hp
    exact ⟨hlog _ hsub, fun other hoth => hnone other (hmkd other hoth)⟩
  · rw [htx]
    exact hlst
  · rw [htx]
    exact hchgs

include h in
theorem kept_unlock (hhld : (s.task t).holdsLock = true) (hlock : phase.holdsLock = false)
    (hsend : phase.sends = false) (hseen : phase.seen = none) : Kept s t s.shared.unlock phase := by
  constructor
  · obtain ⟨htks, hval, hsub, hmkd, honce⟩ := h.shared
    exact ⟨htks, hval, hsub, hmkd, honce⟩
  · exact .plain hlock hsend hseen
  · intro u hu
    refine ⟨other_of_unlock _ h hhld ?_ ?_ ?_ ?_ hu, fun hp => ?_, fun hp => ?_⟩
    · exact id
    · exact fun _ => id
    · exact fun _ => id
    · rfl
    · rw [hlock] at hp
      cases hp
    · rw [hsend] at hp
      cases hp

include h in
theorem kept_drawAgain (hph : s.task t = .subscribeDraws) (nextId : Int32) :
    Kept s t { s.shared with nextId } .subscribeDraws := by
  have hown := h.own t
  rw [hph] at hown
  constructor
  · obtain ⟨htks, hval, hsub, hmkd, honce⟩ := h.shared
    exact ⟨htks, hval, hsub, hmkd, honce⟩
  · obtain ⟨hlocked, hdraws, hsnd, hmarks, hlst, hchgs⟩ := hown
    exact ⟨hlocked, hdraws, hsnd, hmarks, hlst, hchgs⟩
  · intro u hu
    obtain ⟨hlocked, hdraws, hsnd, hmarks, hlst, hchgs⟩ := h.own u
    exact ⟨⟨hlocked, hdraws, hsnd, hmarks, hlst, hchgs⟩, hph ▸ h.apart t u (Ne.symm hu)⟩

include h in
theorem kept_subscribed (hph : s.task t = .subscribeDraws) (nextId : Int32) (token : Token) :
    Kept s t { s.shared.unlock with
        nextId, tokens := insert token s.shared.tokens, log := s.shared.log ++ [.subscribed token] } .idle := by
  have hunset : s.shared.ready = false := (h.own t).draws hph
  constructor
  · obtain ⟨htks, hval, hsub, hmkd, honce⟩ := h.shared
    constructor
    · intro hrdy
      exact absurd (hunset.symm.trans hrdy) (by decide)
    · exact hval
    · intro other hoth
      rcases Finset.mem_insert.mp hoth with rfl | hoth
      · exact mem_append_right _ (mem_singleton_self _)
      · exact mem_append_left _ (hsub other hoth)
    · intro other hoth
      rcases mem_append.mp hoth with hoth | hoth
      · exact hmkd other hoth
      · cases mem_singleton.mp hoth
    · exact honce.append _ fun _ h => by cases h
  · exact .plain rfl rfl rfl
  · intro u hu
    refine ⟨other_of_unlock _ h (by rw [hph]; rfl) ?_ ?_ ?_ ?_ hu, fun hp => (by cases hp),
      fun hp => (by cases hp)⟩
    · exact id
    · exact fun e he => mem_append_left _ he
    · intro other hoth
      rcases mem_append.mp hoth with hoth | hoth
      · exact hoth
      · cases mem_singleton.mp hoth
    · rfl

include h in
theorem sends_of_unset (hunset : s.shared.ready = false) (u : Nat) :
    (s.task u).sends = false := by
  by_contra hsnd
  have hrdy := ((h.own u).sends (by simpa using hsnd)).1
  rw [hunset] at hrdy
  cases hrdy

include h in
theorem kept_set (hhld : (s.task t).holdsLock = true) (hunset : s.shared.ready = false)
    (hsnd : phase.sends = true) (hmarks : ∀ token, phase = .markSends token → token ∈ s.shared.tokens) :
    Kept s t { s.shared.unlock with ready := true, tokens := ∅ } phase := by
  have hval : s.shared.tx.value = false := by
    by_contra hval
    have hrdy := h.shared.value (by simpa using hval)
    rw [hunset] at hrdy
    cases hrdy
  have hnone : ∀ token, .marked token ∉ s.shared.log := by
    intro token hmkd
    have hrdy := h.shared.marked token hmkd
    rw [hunset] at hrdy
    cases hrdy
  constructor
  · obtain ⟨htks, hval, hsub, hmkd, honce⟩ := h.shared
    exact ⟨fun _ => rfl, fun _ => rfl, fun token h => absurd h (Finset.notMem_empty token), fun _ _ => rfl, honce⟩
  · obtain ⟨hlock, hseen⟩ := of_sends hsnd
    constructor
    · intro hp
      rw [hlock] at hp
      cases hp
    · rintro rfl
      cases hsnd
    · exact fun _ => ⟨rfl, hval⟩
    · exact fun token hp => ⟨h.shared.subscribed token (hmarks token hp), hnone⟩
    · intro seen hp
      rw [hseen] at hp
      cases hp
    · rintro seen rfl
      cases hsnd
  · intro u hu
    refine ⟨other_of_unlock _ h hhld ?_ ?_ ?_ ?_ hu, fun _ => (h.apart t u (Ne.symm hu)).lock hhld,
      fun _ => sends_of_unset h hunset u⟩
    · exact fun _ => rfl
    · exact fun _ => id
    · exact fun _ => id
    · rfl

theorem send_cases (tx : Watch) : tx.receivers = ∅ ∧ tx.send true = tx ∨
      (tx.send true).value = true ∧ (tx.send true).version = tx.version + 1 ∧
        (tx.send true).receivers = tx.receivers := by
  unfold Watch.send
  split
  next h => exact .inl ⟨h, rfl⟩
  next => exact .inr ⟨rfl, rfl, rfl⟩

include h in
theorem kept_send (hsnd : (s.task t).sends = true) {log : List ReadinessEvent}
    (hlog : ∀ e, e ∈ s.shared.log → e ∈ log) (honce : MarkedOnce log) :
    Kept s t { s.shared with tx := s.shared.tx.send true, log } .idle := by
  have hrdy : s.shared.ready = true := ((h.own t).sends hsnd).1
  have hversion : s.shared.tx.version ≤ (s.shared.tx.send true).version ∧
      (s.shared.tx.send true).receivers = s.shared.tx.receivers := by
    rcases send_cases s.shared.tx with ⟨-, hsend⟩ | ⟨-, hsend, hreceivers⟩
    · rw [hsend]
      exact ⟨Nat.le_refl _, rfl⟩
    · exact ⟨hsend ▸ Nat.le_succ _, hreceivers⟩
  constructor
  · obtain ⟨htks, hval, hsub, hmkd, -⟩ := h.shared
    exact ⟨htks, fun _ => hrdy, fun token ht => hlog _ (hsub token ht), fun _ _ => hrdy, honce⟩
  · exact .plain rfl rfl rfl
  · intro u hu
    obtain ⟨hlocked, hdraws, -, hmarks, hlst, hchgs⟩ := h.own u
    have hnot : (s.task u).sends = false := (h.apart t u (Ne.symm hu)).send hsnd
    refine ⟨⟨hlocked, hdraws, ?_, ?_, ?_, ?_⟩, fun hp => (by cases hp), fun hp => (by cases hp)⟩
    · intro hp
      rw [hnot] at hp
      cases hp
    · intro token hp
      rw [hp] at hnot
      cases hnot
    · intro seen hp
      obtain ⟨hmem, hle⟩ := hlst seen hp
      exact ⟨hversion.2 ▸ hmem, hle.trans hversion.1⟩
    · intro seen hp hval
      obtain ⟨-, hle⟩ := hlst seen (hp ▸ rfl)
      rcases send_cases s.shared.tx with ⟨-, hsend⟩ | ⟨-, hsend, -⟩
      · rw [hsend] at hval ⊢
        exact hchgs seen hp hval
      · exact hsend ▸ Nat.lt_succ_of_le hle

include h in
theorem kept_listen :
    Kept s t { s.shared with tx := s.shared.tx.subscribe t } (.waitBorrows s.shared.tx.version) := by
  constructor
  · obtain ⟨htks, hval, hsub, hmkd, honce⟩ := h.shared
    exact ⟨htks, hval, hsub, hmkd, honce⟩
  · refine ⟨fun hp => (by cases hp), fun hp => (by cases hp), fun hp => (by cases hp), fun _ hp => (by cases hp),
      ?_, fun _ hp => (by cases hp)⟩
    intro seen hp
    cases hp
    exact ⟨Finset.mem_insert_self _ _, Nat.le_refl _⟩
  · intro u hu
    obtain ⟨hlocked, hdraws, hsnd, hmarks, hlst, hchgs⟩ := h.own u
    refine ⟨⟨hlocked, hdraws, hsnd, hmarks, fun seen hp => ?_, hchgs⟩, fun hp => (by cases hp),
      fun hp => (by cases hp)⟩
    exact ⟨Finset.mem_insert_of_mem (hlst seen hp).1, (hlst seen hp).2⟩

include h in
theorem kept_close : Kept s t { s.shared with tx := s.shared.tx.close t } .idle := by
  constructor
  · obtain ⟨htks, hval, hsub, hmkd, honce⟩ := h.shared
    exact ⟨htks, hval, hsub, hmkd, honce⟩
  · exact .plain rfl rfl rfl
  · intro u hu
    obtain ⟨hlocked, hdraws, hsnd, hmarks, hlst, hchgs⟩ := h.own u
    refine ⟨⟨hlocked, hdraws, hsnd, hmarks, fun seen hp => ?_, hchgs⟩, fun hp => (by cases hp),
      fun hp => (by cases hp)⟩
    exact ⟨Finset.mem_erase.mpr ⟨hu, (hlst seen hp).1⟩, (hlst seen hp).2⟩

theorem Phase.answered_true (inWait : Bool) : answered inWait true = .idle := by
  cases inWait <;> rfl

theorem Phase.answered_plain (inWait answer : Bool) :
    (answered inWait answer).holdsLock = false ∧ (answered inWait answer).sends = false ∧
      (answered inWait answer).seen = none := by
  cases inWait <;> cases answer <;> exact ⟨rfl, rfl, rfl⟩

include h in
theorem kept_plain (hlock : phase.holdsLock = false) (hsend : phase.sends = false)
    (hseen : phase.seen = none) : Kept s t s.shared phase :=
  kept_phase h (.plain hlock hsend hseen) (fun hp => absurd (hlock.symm.trans hp) (by decide))
    (fun hp => absurd (hsend.symm.trans hp) (by decide))

include h in
theorem kept_go (hgo : s.shared.go t (s.task t) = some (flag, phase)) : Kept s t flag phase := by
  cases hph : s.task t with
  | idle =>
      rw [hph] at hgo
      cases hgo
  | subscribeLoads | markLoads token =>
      rw [hph] at hgo
      cases hgo
      split
      next => exact kept_plain h rfl rfl rfl
      next => exact kept_plain h rfl rfl rfl
  | subscribeLocks | markLocks token =>
      rw [hph] at hgo
      unfold go at hgo
      dsimp only at hgo
      split at hgo
      next => cases hgo
      next hfree =>
        cases hgo
        exact kept_lock h hfree (by intro hp; cases hp) rfl rfl
  | subscribeChecks =>
      rw [hph] at hgo
      unfold go at hgo
      dsimp only at hgo
      split at hgo
      next =>
        cases hgo
        exact kept_unlock h (by rw [hph]; rfl) rfl rfl rfl
      next hunset =>
        cases hgo
        refine kept_phase h ?_ (fun _ => by rw [hph]; rfl) fun hp => by cases hp
        refine ⟨fun _ => (h.own t).locked (by rw [hph]; rfl), fun _ => by simpa using hunset,
          fun hp => (by cases hp), fun _ hp => (by cases hp), fun _ hp => (by cases hp), fun _ hp => (by cases hp)⟩
  | subscribeDraws =>
      rw [hph] at hgo
      unfold go at hgo
      dsimp only at hgo
      split at hgo
      next =>
        cases hgo
        exact kept_subscribed h hph _ _
      next =>
        cases hgo
        exact kept_drawAgain h hph _
  | markRemoves token =>
      rw [hph] at hgo
      unfold go at hgo
      dsimp only at hgo
      have hhld : (s.task t).holdsLock = true := by rw [hph]; rfl
      split at hgo
      next hmem =>
        cases hgo
        refine kept_set h hhld ?_ rfl fun other hp => ?_
        · by_contra hset
          rw [h.shared.tokens (by simpa using hset)] at hmem
          exact Finset.notMem_empty _ hmem
        · cases hp
          exact hmem
      next =>
        cases hgo
        exact kept_unlock h hhld rfl rfl rfl
  | markSends token =>
      rw [hph] at hgo
      cases hgo
      obtain ⟨hsub, hnone⟩ := (h.own t).marks token hph
      refine kept_send h (by rw [hph]; rfl) (fun e he => mem_append_left _ he) ?_
      refine h.shared.once.append _ fun other hoth => ?_
      cases hoth
      exact ⟨hsub, hnone⟩
  | readyLoads inWait =>
      rw [hph] at hgo
      cases hgo
      split
      next =>
        rw [answered_true]
        exact kept_plain h rfl rfl rfl
      next => exact kept_plain h rfl rfl rfl
  | readyTries inWait =>
      rw [hph] at hgo
      unfold go at hgo
      dsimp only at hgo
      split at hgo
      next =>
        cases hgo
        exact kept_plain h rfl rfl rfl
      next hfree =>
        cases hgo
        exact kept_lock h hfree (by intro hp; cases hp) rfl rfl
  | readyLooks inWait =>
      rw [hph] at hgo
      unfold go at hgo
      dsimp only at hgo
      have hhld : (s.task t).holdsLock = true := by rw [hph]; rfl
      split at hgo
      next hemp =>
        cases hgo
        split
        next hset =>
          have hsame : { s.shared.unlock with ready := true } = s.shared.unlock := by
            rw [← hset]
            rfl
          rw [answered_true, hsame]
          exact kept_unlock h hhld rfl rfl rfl
        next hunset =>
          have hsame : { s.shared.unlock with ready := true } = { s.shared.unlock with ready := true, tokens := ∅ } := by
            rw [← hemp]
            rfl
          rw [hsame]
          exact kept_set h hhld (by simpa using hunset) rfl fun _ hp => by cases hp
      next =>
        cases hgo
        exact kept_unlock h hhld rfl rfl rfl
  | readySends inWait =>
      rw [hph] at hgo
      cases hgo
      rw [answered_true]
      exact kept_send h (by rw [hph]; rfl) (fun _ => id) h.shared.once
  | readyReloads inWait =>
      rw [hph] at hgo
      cases hgo
      obtain ⟨hlock, hsend, hseen⟩ := answered_plain inWait s.shared.ready
      exact kept_plain h hlock hsend hseen
  | waitSubscribes =>
      rw [hph] at hgo
      cases hgo
      exact kept_listen h
  | waitBorrows seen =>
      rw [hph] at hgo
      unfold go at hgo
      dsimp only at hgo
      split at hgo
      next =>
        cases hgo
        exact kept_close h
      next hval =>
        cases hgo
        refine kept_phase h ?_ (fun hp => by cases hp) fun hp => by cases hp
        refine ⟨fun hp => (by cases hp), fun hp => (by cases hp), fun hp => (by cases hp), fun _ hp => (by cases hp),
          fun other hp => ?_, fun _ _ hset => absurd hset hval⟩
        exact (h.own t).listens other (by rw [hph]; exact hp)
  | waitChanges seen =>
      rw [hph] at hgo
      unfold go at hgo
      dsimp only at hgo
      split at hgo
      next => cases hgo
      next =>
        cases hgo
        refine kept_phase h ?_ (fun hp => by cases hp) fun hp => by cases hp
        refine ⟨fun hp => (by cases hp), fun hp => (by cases hp), fun hp => (by cases hp), fun _ hp => (by cases hp),
          fun other hp => ?_, fun _ hp => (by cases hp)⟩
        cases hp
        exact ⟨((h.own t).listens seen (by rw [hph]; rfl)).1, Nat.le_refl _⟩

include h in
theorem kept_leave (hleave : s.shared.leave t (s.task t) = some (flag, phase)) :
    Kept s t flag phase := by
  cases hph : s.task t with
  | subscribeLocks | markLocks token =>
      rw [hph] at hleave
      cases hleave
      exact kept_plain h rfl rfl rfl
  | waitChanges seen =>
      rw [hph] at hleave
      cases hleave
      exact kept_close h
  | _ =>
      rw [hph] at hleave
      cases hleave

theorem kept_step {a : ReadinessStep} (h : ReadinessSound s)
    (hstep : s.shared.step t (s.task t) a = some (flag, phase)) : Kept s t flag phase := by
  cases a with
  | call call =>
      unfold step at hstep
      dsimp only at hstep
      split at hstep
      next =>
        cases hstep
        cases call <;> exact kept_plain h rfl rfl rfl
      next => cases hstep
  | go => exact kept_go h hstep
  | leave => exact kept_leave h hstep

theorem sound_readinessMove {s' : ReadinessSystem} {a : Nat × ReadinessStep} (h : ReadinessSound s)
    (hmove : ReadinessMove s a s') : ReadinessSound s' := by
  refine h.of_move (fun _ _ => PhasesApart.symm) hmove fun flag phase hstep => ?_
  obtain ⟨hshared, hown, hoth⟩ := kept_step h hstep
  exact ⟨hshared, hown, hoth⟩

end

end CodexStudy.Readiness
