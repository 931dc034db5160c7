import CodexStudy.Core.Lemmas.NetworkApproval

/-!
# Who decides about a pending host

The entry of a host is removed by the request that has made it.
-/

namespace CodexStudy.Core.NetworkApproval

open CodexStudy.Lib Phase NetworkApprovalService Function

def Decided (service : NetworkApprovalService) (approval : Nat) : Prop := (service.approvals approval).decision ≠ none

/-- The request has made the entry and is neither finished nor dropped. -/
def OwnedBy (s : ApprovalSystem) (approval t : Nat) : Prop := ∃ o, (s.task t).owner = some o ∧ o.approval = approval

/-- What is asked for is decided or will be by one live request, who waits is told, and no host is both approved and
denied. -/
structure ApprovalsOwned (s : ApprovalSystem) : Prop where
  pending : ∀ key approval, s.shared.pendingHostApprovals.lookup key = some approval →
    Decided s.shared approval ∨ ∃! t, OwnedBy s approval t
  waiting : ∀ t approval seen, (s.task t).waitsFor = some (approval, seen) →
    Decided s.shared approval ∨ ∃! u, OwnedBy s approval u
  told : ∀ t approval seen, s.task t = .waits approval seen → Decided s.shared approval →
    (s.shared.approvals approval).notified ≠ seen
  apart : ∀ key, key ∈ s.shared.sessionApprovedHosts → key ∉ s.shared.sessionDeniedHosts

/-- The request that is dropped, if one is, does not have a decision yet to make. -/
def OwnerStays (s : ApprovalSystem) (a : Nat × ApprovalStep) : Prop := a.2 = .drop → (s.task a.1).undecided = none

/-- Every approval there is has a decision, or an owner that has it yet to make. -/
def Attended (s : ApprovalSystem) : Prop :=
  ∀ approval, approval < s.shared.created →
    Decided s.shared approval ∨ ∃ t o, (s.task t).undecided = some o ∧ o.approval = approval

section

variable {s s' : ApprovalSystem} {a : Nat × ApprovalStep} {t : Nat} {old service : NetworkApprovalService}
  {p phase : Phase} {step : ApprovalStep}

/-- Decisions stay, and an owner stays until it has set its own. -/
structure Attends (old service : NetworkApprovalService) (p phase : Phase) : Prop where
  decided : ∀ approval, Decided old approval → Decided service approval
  created : ∀ approval, approval < service.created →
    approval < old.created ∨ ∃ o, phase.undecided = some o ∧ o.approval = approval
  undecided : ∀ o, p.undecided = some o → phase.undecided = some o ∨ Decided service o.approval

theorem attends_of_eq (happrovals : service.approvals = old.approvals) (hcreated : service.created = old.created)
    (hund : ∀ o, p.undecided = some o → phase.undecided = some o) : Attends old service p phase := by
  refine ⟨fun approval h => ?_, fun approval h => .inl (hcreated ▸ h), fun o h => .inl (hund o h)⟩
  unfold Decided
  rw [happrovals]
  exact h

theorem attends_go (hgo : old.go p = some (service, phase)) : Attends old service p phase := by
  cases p with
  | idle | finished | dropped | readsTurn | runsHooks | reviews | readsRejection => cases hgo
  | checksDenied | checksApproved | looks | removes | resolvesBlocked | recordsBlocked =>
      cases hgo
      exact attends_of_eq rfl rfl fun _ h => by cases h
  | getsPending request =>
      have hgo' := Option.some.inj hgo
      unfold getOrCreatePendingApproval at hgo'
      dsimp only at hgo'
      split at hgo'
      next =>
        cases hgo'
        exact attends_of_eq rfl rfl fun _ h => by cases h
      next =>
        cases hgo'
        refine ⟨fun _ => id, fun approval h => ?_, fun _ h => by cases h⟩
        rcases Nat.lt_succ_iff_lt_or_eq.mp h with hlt | rfl
        · exact .inl hlt
        · exact .inr ⟨_, rfl, rfl⟩
  | waits approval seen =>
      unfold go at hgo
      dsimp only at hgo
      split at hgo
      next => cases hgo
      next =>
        cases hgo
        exact attends_of_eq rfl rfl fun _ h => by cases h
  | resolvesCall | persists | forgetsDenied | forgetsApproved | denies =>
      cases hgo
      exact attends_of_eq rfl rfl fun _ h => h
  | informs o call action =>
      cases hgo
      refine attends_of_eq rfl rfl fun o' h => ?_
      cases h
      cases action with
      | allow => exact (asks_concluded _ _).undecided
      | deny => exact (asks_recording _ _ _ _).undecided
  | recordsOutcome o call outcome c =>
      cases hgo
      refine attends_of_eq rfl rfl fun o' h => ?_
      cases h
      exact (asks_concluded o c).undecided
  | approves o c =>
      cases hgo
      refine attends_of_eq rfl rfl fun o' h => ?_
      cases h
      exact (asks_cached o c).undecided
  | decides o c =>
      cases hgo
      have hself : Decided (old.setDecision o.approval c.decision) o.approval := by
        unfold Decided
        rw [setDecision_self]
        exact Option.some_ne_none _
      refine ⟨fun approval h => ?_, fun approval h => .inl h, fun o' h => ?_⟩
      · by_cases hne : approval = o.approval
        · exact hne ▸ hself
        · unfold Decided
          rw [setDecision_of_ne _ hne]
          exact h
      · cases h
        exact .inr hself

theorem attends_step (h : old.step t p step = some (service, phase))
    (hstays : step = .drop → p.undecided = none) : Attends old service p phase := by
  cases step with
  | request request =>
      unfold step at h
      dsimp only at h
      split at h
      next =>
        cases h
        exact attends_of_eq rfl rfl fun _ h => by cases h
      next => cases h
  | go => exact attends_go h
  | answer answer =>
      obtain ⟨phase, hnext, h⟩ := Option.map_eq_some_iff.mp h
      cases h
      obtain ⟨o, hund, hasks⟩ := ApprovalAnswer.asks_next hnext
      refine attends_of_eq rfl rfl fun o' h => ?_
      rw [Option.some.inj (h.symm.trans hund)]
      exact hasks.undecided
  | drop =>
      unfold step at h
      dsimp only at h
      split at h
      next =>
        cases h
        refine attends_of_eq rfl rfl fun o h => ?_
        rw [hstays rfl] at h
        cases h
      next => cases h
  | registerCall registrationId | removeCall registrationId =>
      cases h
      exact attends_of_eq rfl rfl fun _ => id

theorem attended_new : Attended .new := fun _ h => absurd h (Nat.not_lt_zero _)

theorem attended_move (h : Attended s) (hstays : OwnerStays s a) (hmove : ApprovalMove s a s') : Attended s' := by
  obtain ⟨t, step⟩ := a
  obtain ⟨service, phase, hstep, rfl⟩ := Tasks.move_iff.mp hmove
  obtain ⟨hdecided, hcreated, hund⟩ := attends_step hstep hstays
  intro approval hlt
  rcases hcreated approval hlt with hlt | ⟨o, ho, hown⟩
  · rcases h approval hlt with hset | ⟨u, o, ho, hown⟩
    · exact .inl (hdecided approval hset)
    · by_cases hu : u = t
      · subst hu
        rcases hund o ho with ho | hset
        · exact .inr ⟨u, o, (congrArg undecided (update_self ..)).trans ho, hown⟩
        · exact .inl (hown ▸ hset)
      · exact .inr ⟨u, o, (congrArg undecided (update_of_ne hu ..)).trans ho, hown⟩
  · exact .inr ⟨t, o, (congrArg undecided (update_self ..)).trans ho, hown⟩

theorem ownedBy_unique (h : ApprovalsSound s) {approval t u : Nat} (ht : OwnedBy s approval t)
    (hu : OwnedBy s approval u) : u = t := by
  obtain ⟨o, ho, rfl⟩ := ht
  obtain ⟨o', ho', heq⟩ := hu
  by_contra hne
  exact h.apart t u (Ne.symm hne) o o' ho ho' heq.symm

theorem Attended.owned (hattended : Attended s) (h : ApprovalsSound s) {approval : Nat}
    (hlt : approval < s.shared.created) : Decided s.shared approval ∨ ∃! t, OwnedBy s approval t := by
  refine (hattended approval hlt).imp_right ?_
  rintro ⟨t, o, ho, hown⟩
  have ht : OwnedBy s approval t := ⟨o, owner_of_holds (holds_of_undecided ho), hown⟩
  exact ⟨t, ht, fun u hu => ownedBy_unique h ht hu⟩

theorem approvalsOwned_of_attended (h : ApprovalsSound s) (hattended : Attended s) : ApprovalsOwned s := by
  constructor
  · exact fun key approval hkey => hattended.owned h (h.shared.pending key approval hkey)
  · exact fun t approval seen ht => hattended.owned h ((h.own t).seen approval seen ht).1
  · exact fun t approval seen ht hset => Nat.ne_of_gt ((h.own t).waits approval seen ht hset)
  · exact h.shared.apart

theorem ownerStays_of_owned (h : ApprovalsSound s) (hmove : ApprovalMove s a s') (howned : ApprovalsOwned s') :
    OwnerStays s a := by
  obtain ⟨t, step⟩ := a
  rintro rfl
  cases hund : (s.task t).undecided with
  | none => rfl
  | some o =>
      exfalso
      have hhld := holds_of_undecided hund
      obtain ⟨service, phase, hstep, rfl⟩ := Tasks.move_iff.mp hmove
      unfold step at hstep
      dsimp only at hstep
      split at hstep
      next =>
        cases hstep
        rcases howned.pending o.key o.approval ((h.own t).holds o hhld) with hset | ⟨u, ⟨o', ho', hown⟩, -⟩
        · exact hset ((h.own t).undecided o hund)
        · by_cases hu : u = t
          · subst hu
            simp only [update_self] at ho'
            cases ho'
          · simp only [update_of_ne hu] at ho'
            exact h.apart t u (Ne.symm hu) o o' (owner_of_holds hhld) ho' hown.symm
      next => cases hstep

end

/-- In a run all that is asked for has a decision or one live owner, and those who wait are told, exactly when no
undecided request that has made an entry is dropped. In every run no host is both approved and denied for the session.
-/
theorem approvalsOwned_iff (steps : List (Nat × ApprovalStep)) :
    (StatesMeet ApprovalMove ApprovalsOwned .new steps ↔ StepsMeet ApprovalMove OwnerStays .new steps) ∧
    StatesMeet ApprovalMove
      (fun s => ∀ key, key ∈ s.shared.sessionApprovedHosts → key ∉ s.shared.sessionDeniedHosts) .new steps := by
  constructor
  · have hkept : ∀ s a s', ApprovalsSound s → ApprovalMove s a s' → ApprovalsSound s' :=
      fun _ _ _ h hmove => sound_approvalMove h hmove
    have hattended : ∀ s a s', ApprovalsSound s ∧ Attended s → OwnerStays s a → ApprovalMove s a s' →
        ApprovalsSound s' ∧ Attended s' :=
      fun _ _ _ h hstays hmove => ⟨sound_approvalMove h.1 hmove, attended_move h.2 hstays hmove⟩
    exact statesMeet_iff_stepsMeet steps ⟨approvalsSound_new, attended_new⟩ hattended
      (fun _ h => approvalsOwned_of_attended h.1 h.2) approvalsSound_new hkept
      fun _ _ _ h _ hmove howned => ownerStays_of_owned h hmove howned
  · intro past s _ hrun
    have h : ApprovalsSound s := hrun.invariant approvalsSound_new fun _ _ _ h hmove => sound_approvalMove h hmove
    exact h.shared.apart

/-! ## A request that is dropped -/

def exampleRequest : NetworkProxy.NetworkPolicyRequest where
  protocol := .httpsConnect
  host := "example.com"
  port := 443

def asks : List (Nat × ApprovalStep) := [(0, .request exampleRequest), (0, .go), (0, .go), (0, .go)]

theorem dropped_owner : ¬∀ steps, StatesMeet ApprovalMove ApprovalsOwned .new steps := by
  intro h
  have hstt : ∃ s s' o, asks.foldlM (Tasks.advance step) ApprovalSystem.new = some s ∧
      s.advance step (0, .drop) = some s' ∧ (s.task 0).undecided = some o :=
    ⟨_, _, _, rfl, rfl, rfl⟩
  obtain ⟨s, s', o, hsts, hmove, hund⟩ := hstt
  have hrun : Run ApprovalMove .new asks s := .of_foldlM hsts
  have hsnd : ApprovalsSound s := hrun.invariant approvalsSound_new fun _ _ _ h hmove => sound_approvalMove h hmove
  have howned : ApprovalsOwned s' := h _ _ s' List.prefix_rfl (hrun.append (.single hmove))
  have hnone := ownerStays_of_owned hsnd hmove howned rfl
  rw [hund] at hnone
  cases hnone

end CodexStudy.Core.NetworkApproval
