import CodexStudy.Core.NetworkApproval

/-!
# What is known of the approvals and of the requests
-/

namespace CodexStudy.Core.NetworkApproval

open CodexStudy.Lib Phase NetworkApprovalService Nat Option HashMap

variable {o : Owner} {p q : Phase} {approval : Nat} {c : Conclusion}

namespace Phase

def owner : Phase → Option Owner
  | readsTurn o | resolvesCall o _ | runsHooks o _ _ | reviews o _ _ | persists o _ _ | informs o _ _
  | readsRejection o _ | recordsOutcome o _ _ _ | forgetsDenied o _ | approves o _ | forgetsApproved o _
  | denies o _ | decides o _ | removes o _ | resolvesBlocked o _ | recordsBlocked o _ _ => some o
  | _ => none

/-- The owner, as long as it has not removed the entry. -/
def holds (phase : Phase) : Option Owner :=
  match phase with
  | resolvesBlocked _ _ | recordsBlocked _ _ _ => none
  | _ => phase.owner

/-- The owner, as long as it has not set the decision. -/
def undecided (phase : Phase) : Option Owner :=
  match phase with
  | removes _ _ => none
  | _ => phase.holds

def waitsFor : Phase → Option (Nat × Nat)
  | looks approval seen | waits approval seen => some (approval, seen)
  | _ => none

theorem holds_of_undecided {phase : Phase} (h : phase.undecided = some o) : phase.holds = some o := by
  cases phase with
  | removes o c => cases h
  | _ => exact h

theorem owner_of_holds {phase : Phase} (h : phase.holds = some o) : phase.owner = some o := by
  cases phase with
  | resolvesBlocked o outcome => cases h
  | recordsBlocked o call outcome => cases h
  | _ => exact h

theorem waitsFor_of_owner {phase : Phase} (h : phase.owner = some o) : phase.waitsFor = none := by
  cases phase with
  | looks | waits => cases h
  | _ => rfl

/-- The owner has the decision yet to make, and is not about to cache it. -/
structure Asks (phase : Phase) (o : Owner) : Prop where
  undecided : phase.undecided = some o
  approves : ∀ o' c, phase ≠ approves o' c
  denies : ∀ o' c, phase ≠ denies o' c

theorem asks_decides (o : Owner) (c : Conclusion) : Asks (decides o c) o :=
  ⟨rfl, fun _ _ h => (by cases h), fun _ _ h => (by cases h)⟩

theorem asks_cached (o : Owner) (c : Conclusion) : Asks (cached o c) o := by
  unfold cached
  split
  next => exact ⟨rfl, fun _ _ h => (by cases h), fun _ _ h => (by cases h)⟩
  next => exact asks_decides o c

theorem asks_concluded (o : Owner) (c : Conclusion) : Asks (concluded o c) o := by
  unfold concluded
  split
  next => exact ⟨rfl, fun _ _ h => (by cases h), fun _ _ h => (by cases h)⟩
  next => exact asks_cached o c

theorem asks_recording (o : Owner) (call : Option Text) (outcome : NetworkApprovalOutcome) (c : Conclusion) :
    Asks (recording o call outcome c) o := by
  cases call with
  | none => exact asks_concluded o c
  | some call => exact ⟨rfl, fun _ _ h => (by cases h), fun _ _ h => (by cases h)⟩

end Phase

theorem ReviewDecision.asks_next (o : Owner) (turn : TurnContext) (call : Option Text) (decision : ReviewDecision) :
    Phase.Asks (decision.next o turn call) o := by
  cases decision with
  | approved | approvedExecpolicyAmendment | approvedForSession => exact asks_concluded _ _
  | networkPolicyAmendment action => exact ⟨rfl, fun _ _ h => (by cases h), fun _ _ h => (by cases h)⟩
  | timedOut => exact asks_recording _ _ _ _
  | denied | abort =>
      unfold ReviewDecision.next
      dsimp only
      split
      next =>
        cases call with
        | none => exact asks_concluded _ _
        | some call => exact ⟨rfl, fun _ _ h => (by cases h), fun _ _ h => (by cases h)⟩
      next => exact asks_recording _ _ _ _

theorem ApprovalAnswer.asks_next {answer : ApprovalAnswer} {phase : Phase} (h : answer.next p = some phase) :
    ∃ o, p.undecided = some o ∧ phase.Asks o := by
  unfold ApprovalAnswer.next at h
  split at h
  next context o =>
    refine ⟨o, rfl, ?_⟩
    cases context with
    | none =>
        cases h
        exact asks_decides _ _
    | some context =>
        cases h
        split
        next => exact ⟨rfl, fun _ _ h => (by cases h), fun _ _ h => (by cases h)⟩
        next => exact asks_decides _ _
  next decision o context call =>
    refine ⟨o, rfl, ?_⟩
    rcases decision with _ | _ | message
    · cases h
      exact ⟨rfl, fun _ _ h => (by cases h), fun _ _ h => (by cases h)⟩
    · cases h
      exact asks_decides _ _
    · cases h
      exact asks_recording _ _ _ _
  next decision o context call =>
    cases h
    exact ⟨o, rfl, decision.asks_next o context call⟩
  next message o call =>
    cases h
    exact ⟨o, rfl, rfl, fun _ _ h => (by cases h), fun _ _ h => (by cases h)⟩
  next => cases h

/-! ## The invariant -/

structure ServiceSound (service : NetworkApprovalService) : Prop where
  fresh : ∀ approval, service.created ≤ approval → (service.approvals approval).decision = none
  pending : ∀ key approval, service.pendingHostApprovals.lookup key = some approval → approval < service.created
  apart : ∀ key, key ∈ service.sessionApprovedHosts → key ∉ service.sessionDeniedHosts

structure RequestSound (service : NetworkApprovalService) (phase : Phase) : Prop where
  owner : ∀ o, phase.owner = some o → o.approval < service.created
  holds : ∀ o, phase.holds = some o → service.pendingHostApprovals.lookup o.key = some o.approval
  undecided : ∀ o, phase.undecided = some o → (service.approvals o.approval).decision = none
  approves : ∀ o c, phase = .approves o c → o.key ∉ service.sessionDeniedHosts
  denies : ∀ o c, phase = .denies o c → o.key ∉ service.sessionApprovedHosts
  seen : ∀ approval seen, phase.waitsFor = some (approval, seen) →
    approval < service.created ∧ seen ≤ (service.approvals approval).notified
  waits : ∀ approval seen, phase = .waits approval seen →
    (service.approvals approval).decision ≠ none → seen < (service.approvals approval).notified

def OwnersApart (p q : Phase) : Prop :=
  ∀ o o', p.owner = some o → q.owner = some o' → o.approval ≠ o'.approval

abbrev ApprovalsSound (s : ApprovalSystem) : Prop :=
  Tasks.Keeps ServiceSound (fun _ => RequestSound) OwnersApart s

section

variable {service : NetworkApprovalService} {phase : Phase}

theorem RequestSound.of_unowned (hown : phase.owner = none)
    (hseen : ∀ approval seen, phase.waitsFor = some (approval, seen) →
      approval < service.created ∧ seen ≤ (service.approvals approval).notified)
    (hwaits : ∀ approval seen, phase = .waits approval seen → (service.approvals approval).decision = none) :
    RequestSound service phase := by
  have hnot : ∀ o, phase.owner ≠ some o := by
    intro o h
    rw [hown] at h
    cases h
  constructor
  · exact fun o h => absurd h (hnot o)
  · exact fun o h => absurd (owner_of_holds h) (hnot o)
  · exact fun o h => absurd (owner_of_holds (holds_of_undecided h)) (hnot o)
  · rintro o c rfl
    exact absurd rfl (hnot o)
  · rintro o c rfl
    exact absurd rfl (hnot o)
  · exact hseen
  · exact fun approval seen h hset => absurd (hwaits approval seen h) hset

theorem RequestSound.free (hown : phase.owner = none) (hwaits : phase.waitsFor = none) : RequestSound service phase := by
  refine .of_unowned hown (fun approval seen h => ?_) fun approval seen h => ?_
  · rw [hwaits] at h
    cases h
  · subst h
    cases hwaits

end

theorem approvalsSound_new : ApprovalsSound .new := by
  constructor
  · exact ⟨fun _ _ => rfl, fun _ _ h => (by cases h), fun key h => absurd h (Finset.notMem_empty key)⟩
  · exact fun _ => .free rfl rfl
  · exact fun _ _ _ o o' h => by cases h

/-! ## What a step keeps -/

section

variable {s : ApprovalSystem} {t : Nat} {service : NetworkApprovalService} {phase : Phase}

/-- What is known holds again when the request `t` has moved. -/
structure Kept (s : ApprovalSystem) (t : Nat) (service : NetworkApprovalService) (phase : Phase) : Prop where
  shared : ServiceSound service
  own : RequestSound service phase
  other : ∀ u, u ≠ t → RequestSound service (s.task u) ∧ OwnersApart phase (s.task u)

theorem OwnersApart.of_owner (h : OwnersApart p q) (hp : p.owner = some o)
    (hph : ∀ o', phase.owner = some o' → o' = o) : OwnersApart phase q := by
  intro o₁ o₂ h₁ h₂
  rw [hph o₁ h₁]
  exact h o o₂ hp h₂

theorem OwnersApart.free (h : phase.owner = none) : OwnersApart phase q := by
  intro o o' ho
  rw [h] at ho
  cases ho

theorem RequestSound.calls (h : RequestSound service phase) (calls : NetworkApprovalCallState) :
    RequestSound { service with calls } phase :=
  ⟨h.owner, h.holds, h.undecided, h.approves, h.denies, h.seen, h.waits⟩

theorem ServiceSound.calls (h : ServiceSound service) (calls : NetworkApprovalCallState) :
    ServiceSound { service with calls } :=
  ⟨h.fresh, h.pending, h.apart⟩

variable (h : ApprovalsSound s)

include h in
theorem kept_free (calls : NetworkApprovalCallState) (hown : phase.owner = none)
    (hwaits : phase.waitsFor = none) : Kept s t { s.shared with calls } phase :=
  ⟨h.shared.calls calls, .free hown hwaits, fun u _ => ⟨(h.own u).calls calls, .free hown⟩⟩

include h in
theorem kept_asks (calls : NetworkApprovalCallState)
    (hp : (s.task t).undecided = some o) (hph : phase.Asks o) : Kept s t { s.shared with calls } phase := by
  have hhld := holds_of_undecided hp
  have hown := owner_of_holds hhld
  have hhld' := holds_of_undecided hph.undecided
  have hown' := owner_of_holds hhld'
  have hsame : ∀ o', phase.owner = some o' → o' = o := by
    intro o' h'
    exact some.inj (h'.symm.trans hown')
  constructor
  · exact h.shared.calls calls
  · constructor
    · intro o' h'
      rw [hsame o' h']
      exact (h.own t).owner o hown
    · intro o' h'
      rw [hsame o' (owner_of_holds h')]
      exact (h.own t).holds o hhld
    · intro o' h'
      rw [hsame o' (owner_of_holds (holds_of_undecided h'))]
      exact (h.own t).undecided o hp
    · exact fun o' c h' => absurd h' (hph.approves o' c)
    · exact fun o' c h' => absurd h' (hph.denies o' c)
    · intro approval seen h'
      rw [waitsFor_of_owner hown'] at h'
      cases h'
    · rintro approval seen rfl
      cases hown'
  · exact fun u hu => ⟨(h.own u).calls calls, (h.apart t u (Ne.symm hu)).of_owner hown hsame⟩

include h in
theorem kept_waiter {seen : Nat} (hown : phase.owner = none)
    (hwaits : phase.waitsFor = some (approval, seen)) (hcreated : approval < s.shared.created)
    (hseen : seen ≤ (s.shared.approvals approval).notified)
    (hdecision : ∀ a b, phase = .waits a b → (s.shared.approvals approval).decision = none) :
    Kept s t s.shared phase := by
  refine ⟨h.shared, .of_unowned hown (fun a b h' => ?_) fun a b h' => ?_, fun u _ => ⟨h.own u, .free hown⟩⟩
  · rw [hwaits] at h'
    cases h'
    exact ⟨hcreated, hseen⟩
  · subst h'
    cases hwaits
    exact hdecision approval seen rfl

include h in
theorem kept_create (howner : o.approval = s.shared.created)
    (hnone : s.shared.pendingHostApprovals.lookup o.key = none) : Kept s t { s.shared with
        pendingHostApprovals := s.shared.pendingHostApprovals.insert o.key s.shared.created
        created := s.shared.created + 1 } (.readsTurn o) := by
  constructor
  · refine ⟨fun approval hle => h.shared.fresh approval (le_of_succ_le hle), fun key approval hkey => ?_,
      h.shared.apart⟩
    have hkey' := hkey
    rw [lookup_insert_eq] at hkey'
    split at hkey'
    next =>
      cases hkey'
      exact lt_succ_self _
    next => exact lt_succ_of_lt (h.shared.pending key approval hkey')
  · constructor
    · intro o' ho'
      cases ho'
      exact howner ▸ lt_succ_self _
    · intro o' ho'
      cases ho'
      exact (lookup_insert_eq _ _ _ _).trans ((if_pos rfl).trans (congrArg some howner.symm))
    · intro o' ho'
      cases ho'
      exact h.shared.fresh o.approval (howner ▸ le_refl _)
    · exact fun _ _ h' => by cases h'
    · exact fun _ _ h' => by cases h'
    · exact fun _ _ h' => by cases h'
    · exact fun _ _ h' => by cases h'
  · intro u hu
    obtain ⟨hown, hhld, hund, happ, hdenies, hseen, hwaits⟩ := h.own u
    constructor
    · refine ⟨fun o' ho' => lt_succ_of_lt (hown o' ho'), fun o' ho' => ?_, hund, happ, hdenies,
        fun approval seen h' => ⟨lt_succ_of_lt (hseen approval seen h').1, (hseen approval seen h').2⟩, hwaits⟩
      have hne : o'.key ≠ o.key := by
        intro heq
        have hlk := hhld o' ho'
        rw [heq, hnone] at hlk
        cases hlk
      exact (lookup_insert_eq _ _ _ _).trans ((if_neg hne).trans (hhld o' ho'))
    · intro o₁ o₂ h₁ h₂ heq
      cases h₁
      have hlt := hown o₂ h₂
      rw [← heq, howner] at hlt
      exact lt_irrefl _ hlt

include h in
theorem key_ne {u : Nat} (hu : u ≠ t) {o' : Owner} (ho : (s.task t).holds = some o)
    (ho' : (s.task u).holds = some o') : o'.key ≠ o.key := by
  intro heq
  have hlk := (h.own u).holds o' ho'
  rw [heq, (h.own t).holds o ho] at hlk
  exact h.apart t u (Ne.symm hu) o o' (owner_of_holds ho) (owner_of_holds ho') (some.inj hlk)

include h in
theorem kept_cache {approved denied : Finset HostApprovalKey}
    (hp : (s.task t).undecided = some o) (hph : phase.undecided = some o)
    (happroved : ∀ key, key ≠ o.key → (key ∈ approved ↔ key ∈ s.shared.sessionApprovedHosts))
    (hden : ∀ key, key ≠ o.key → (key ∈ denied ↔ key ∈ s.shared.sessionDeniedHosts))
    (happ : ∀ o' c, phase = .approves o' c → o'.key ∉ denied)
    (hdenies : ∀ o' c, phase = .denies o' c → o'.key ∉ approved) (hap : o.key ∈ approved → o.key ∉ denied) :
    Kept s t { s.shared with sessionApprovedHosts := approved, sessionDeniedHosts := denied } phase := by
  have hhld := holds_of_undecided hp
  have howner := owner_of_holds hhld
  have hown' := owner_of_holds (holds_of_undecided hph)
  have hsame : ∀ o', phase.owner = some o' → o' = o := by
    intro o' h'
    exact some.inj (h'.symm.trans hown')
  constructor
  · refine ⟨h.shared.fresh, h.shared.pending, fun key hkey => ?_⟩
    by_cases hk : key = o.key
    · rw [hk] at hkey ⊢
      exact hap hkey
    · exact fun hkey' => h.shared.apart key ((happroved key hk).mp hkey) ((hden key hk).mp hkey')
  · refine ⟨fun o' h' => ?_, fun o' h' => ?_, fun o' h' => ?_, happ, hdenies, fun approval seen h' => ?_,
      fun approval seen h' => ?_⟩
    · rw [hsame o' h']
      exact (h.own t).owner o howner
    · rw [hsame o' (owner_of_holds h')]
      exact (h.own t).holds o hhld
    · rw [hsame o' (owner_of_holds (holds_of_undecided h'))]
      exact (h.own t).undecided o hp
    · rw [waitsFor_of_owner hown'] at h'
      cases h'
    · subst h'
      cases hown'
  · intro u hu
    obtain ⟨hown, hhld', hund, happ', hdenies', hseen, hwaits⟩ := h.own u
    refine ⟨⟨hown, hhld', hund, fun o' c h' => ?_, fun o' c h' => ?_, hseen, hwaits⟩,
      (h.apart t u (Ne.symm hu)).of_owner howner hsame⟩
    · have hne : o'.key ≠ o.key := key_ne h hu hhld (h' ▸ rfl)
      exact fun hkey => happ' o' c h' ((hden _ hne).mp hkey)
    · have hne : o'.key ≠ o.key := key_ne h hu hhld (h' ▸ rfl)
      exact fun hkey => hdenies' o' c h' ((happroved _ hne).mp hkey)

theorem setDecision_self (service : NetworkApprovalService) (approval : Nat) (decision : PendingApprovalDecision) :
    (service.setDecision approval decision).approvals approval = (service.approvals approval).setDecision decision :=
  Function.update_self ..

theorem setDecision_of_ne (service : NetworkApprovalService) {other : Nat} (h : other ≠ approval)
    (decision : PendingApprovalDecision) :
    (service.setDecision approval decision).approvals other = service.approvals other :=
  Function.update_of_ne h ..

include h in
theorem kept_decides (hp : s.task t = .decides o c) :
    Kept s t (s.shared.setDecision o.approval c.decision) (.removes o c) := by
  have howner : (s.task t).owner = some o := by rw [hp]; rfl
  have hcreated : o.approval < s.shared.created := (h.own t).owner o howner
  constructor
  · refine ⟨fun approval hle => ?_, h.shared.pending, h.shared.apart⟩
    have hne : approval ≠ o.approval := ne_of_gt (lt_of_lt_of_le hcreated hle)
    rw [setDecision_of_ne _ hne]
    exact h.shared.fresh approval hle
  · constructor
    · intro o' ho'
      cases ho'
      exact hcreated
    · intro o' ho'
      cases ho'
      exact (h.own t).holds o (by rw [hp]; rfl)
    · exact fun _ h' => by cases h'
    · exact fun _ _ h' => by cases h'
    · exact fun _ _ h' => by cases h'
    · exact fun _ _ h' => by cases h'
    · exact fun _ _ h' => by cases h'
  · intro u hu
    obtain ⟨hown, hhld, hund, happ, hdenies, hseen, hwaits⟩ := h.own u
    have hap := h.apart t u (Ne.symm hu)
    constructor
    · refine ⟨hown, hhld, fun o' ho' => ?_, happ, hdenies, fun approval seen h' => ?_,
        fun approval seen h' hset => ?_⟩
      · have hne : o'.approval ≠ o.approval := Ne.symm
          (hap o o' howner (owner_of_holds (holds_of_undecided ho')))
        rw [setDecision_of_ne _ hne]
        exact hund o' ho'
      · obtain ⟨hlt, hle⟩ := hseen approval seen h'
        refine ⟨hlt, ?_⟩
        by_cases hne : approval = o.approval
        · subst hne
          rw [setDecision_self]
          exact le_succ_of_le hle
        · rw [setDecision_of_ne _ hne]
          exact hle
      · obtain ⟨-, hle⟩ := hseen approval seen (h' ▸ rfl)
        by_cases hne : approval = o.approval
        · subst hne
          rw [setDecision_self]
          exact lt_succ_of_le hle
        · rw [setDecision_of_ne _ hne] at hset ⊢
          exact hwaits approval seen h' hset
    · exact hap.of_owner howner fun o' h' => some.inj h'.symm

include h in
theorem kept_removes (hp : s.task t = .removes o c)
    (hph : ∀ o', phase.owner = some o' → o' = o) (hhld : phase.holds = none) (hwaits : phase.waitsFor = none) :
    Kept s t { s.shared with pendingHostApprovals := s.shared.pendingHostApprovals.erase o.key } phase := by
  have howner : (s.task t).owner = some o := by rw [hp]; rfl
  have hhld' : (s.task t).holds = some o := by rw [hp]; rfl
  have hnot : ∀ o', phase.holds ≠ some o' := by
    intro o' h'
    rw [hhld] at h'
    cases h'
  constructor
  · exact ⟨h.shared.fresh, fun key approval hkey => h.shared.pending key approval (lookup_of_lookup_erase hkey),
      h.shared.apart⟩
  · constructor
    · intro o' ho'
      rw [hph o' ho']
      exact (h.own t).owner o howner
    · exact fun o' h' => absurd h' (hnot o')
    · exact fun o' h' => absurd (holds_of_undecided h') (hnot o')
    · rintro o' c' rfl
      exact absurd rfl (hnot o')
    · rintro o' c' rfl
      exact absurd rfl (hnot o')
    · intro approval seen h'
      rw [hwaits] at h'
      cases h'
    · rintro approval seen rfl
      cases hwaits
  · intro u hu
    obtain ⟨hown, hholdsU, hund, happ, hdenies, hseen, hwaits⟩ := h.own u
    refine ⟨⟨hown, fun o' ho' => ?_, hund, happ, hdenies, hseen, hwaits⟩,
      (h.apart t u (Ne.symm hu)).of_owner howner hph⟩
    have hne : o'.key ≠ o.key := key_ne h hu hhld' ho'
    exact (lookup_erase_eq _ _ _).trans ((if_neg hne).trans (hholdsU o' ho'))

/-! ## Every step -/

include h in
theorem kept_go (hgo : s.shared.go (s.task t) = some (service, phase)) :
    Kept s t service phase := by
  have hown := h.own t
  cases hp : s.task t with
  | idle | finished | dropped | readsTurn | runsHooks | reviews | readsRejection =>
      rw [hp] at hgo
      cases hgo
  | checksDenied request | checksApproved request =>
      rw [hp] at hgo
      cases hgo
      split
      next => exact kept_free h s.shared.calls rfl rfl
      next => exact kept_free h s.shared.calls rfl rfl
  | getsPending request =>
      rw [hp] at hgo
      have hgo' := some.inj hgo
      unfold getOrCreatePendingApproval at hgo'
      dsimp only at hgo'
      split at hgo'
      next approval hlk =>
        cases hgo'
        exact kept_waiter h rfl rfl (h.shared.pending _ _ hlk) (le_refl _) fun _ _ h' => by cases h'
      next hnone =>
        cases hgo'
        exact kept_create (o := ⟨HostApprovalKey.ofRequest request, s.shared.created, request.host⟩) h rfl hnone
  | looks approval seen =>
      rw [hp] at hgo hown
      cases hgo
      obtain ⟨hcreated, hle⟩ := hown.seen approval seen rfl
      split
      next decision hset => exact kept_free h s.shared.calls rfl rfl
      next hnone =>
        refine kept_waiter h rfl rfl hcreated hle fun _ _ h' => ?_
        cases h'
        exact hnone
  | waits approval seen =>
      rw [hp] at hgo hown
      unfold go at hgo
      dsimp only at hgo
      split at hgo
      next => cases hgo
      next =>
        cases hgo
        exact kept_waiter h rfl rfl (hown.seen approval seen rfl).1 (le_refl _) fun _ _ h' => by cases h'
  | resolvesCall o turn =>
      rw [hp] at hgo
      cases hgo
      exact kept_asks h s.shared.calls (by rw [hp]; rfl)
        ⟨rfl, fun _ _ h' => (by cases h'), fun _ _ h' => (by cases h')⟩
  | persists o call action =>
      rw [hp] at hgo
      cases hgo
      exact kept_asks h s.shared.calls (by rw [hp]; rfl)
        ⟨rfl, fun _ _ h' => (by cases h'), fun _ _ h' => (by cases h')⟩
  | informs o call action =>
      rw [hp] at hgo
      cases hgo
      refine kept_asks h s.shared.calls (o := o) (by rw [hp]; rfl) ?_
      cases action with
      | allow => exact asks_concluded _ _
      | deny => exact asks_recording _ _ _ _
  | recordsOutcome o call outcome c =>
      rw [hp] at hgo
      cases hgo
      exact kept_asks h _ (by rw [hp]; rfl) (asks_concluded o c)
  | forgetsDenied o c =>
      rw [hp] at hgo
      cases hgo
      refine kept_cache h (o := o) (by rw [hp]; rfl) rfl (fun _ _ => Iff.rfl) (fun key hne => ?_) ?_ ?_ ?_
      · rw [Finset.mem_erase]
        exact ⟨And.right, fun hkey => ⟨hne, hkey⟩⟩
      · intro o' c' h'
        cases h'
        exact Finset.notMem_erase _ _
      · exact fun _ _ h' => by cases h'
      · exact fun _ => Finset.notMem_erase _ _
  | approves o c =>
      rw [hp] at hgo hown
      cases hgo
      obtain ⟨hund, happ, hdenies⟩ := asks_cached o c
      refine kept_cache h (o := o) (by rw [hp]; rfl) hund (fun key hne => ?_) (fun _ _ => Iff.rfl) ?_ ?_ ?_
      · rw [Finset.mem_insert]
        exact ⟨fun hkey => hkey.resolve_left hne, .inr⟩
      · exact fun o' c' h' => absurd h' (happ o' c')
      · exact fun o' c' h' => absurd h' (hdenies o' c')
      · exact fun _ => hown.approves o c rfl
  | forgetsApproved o c =>
      rw [hp] at hgo
      cases hgo
      refine kept_cache h (o := o) (by rw [hp]; rfl) rfl (fun key hne => ?_) (fun _ _ => Iff.rfl) ?_ ?_ ?_
      · rw [Finset.mem_erase]
        exact ⟨And.right, fun hkey => ⟨hne, hkey⟩⟩
      · exact fun _ _ h' => by cases h'
      · intro o' c' h'
        cases h'
        exact Finset.notMem_erase _ _
      · exact fun hkey => absurd hkey (Finset.notMem_erase _ _)
  | denies o c =>
      rw [hp] at hgo hown
      cases hgo
      refine kept_cache h (o := o) (by rw [hp]; rfl) rfl (fun _ _ => Iff.rfl) (fun key hne => ?_) ?_ ?_ ?_
      · rw [Finset.mem_insert]
        exact ⟨fun hkey => hkey.resolve_left hne, .inr⟩
      · exact fun _ _ h' => by cases h'
      · exact fun _ _ h' => by cases h'
      · exact fun hkey => absurd hkey (hown.denies o c rfl)
  | decides o c =>
      rw [hp] at hgo
      cases hgo
      exact kept_decides h hp
  | removes o c =>
      rw [hp] at hgo
      cases hgo
      split
      next outcome _ => exact kept_removes h hp (fun o' h' => some.inj h'.symm) rfl rfl
      next => exact kept_removes h hp (fun o' h' => by cases h') rfl rfl
  | resolvesBlocked o outcome =>
      have howner : (s.task t).owner = some o := by rw [hp]; rfl
      rw [hp] at hgo
      cases hgo
      split
      next call _ =>
        refine ⟨h.shared, ?_, fun u hu =>
          ⟨h.own u, (h.apart t u (Ne.symm hu)).of_owner howner fun o' h' => some.inj h'.symm⟩⟩
        refine ⟨fun o' h' => ?_, fun _ h' => (by cases h'), fun _ h' => (by cases h'), fun _ _ h' => (by cases h'),
          fun _ _ h' => (by cases h'), fun _ _ h' => (by cases h'), fun _ _ h' => (by cases h')⟩
        cases h'
        exact hown.owner o howner
      next => exact kept_free h s.shared.calls rfl rfl
  | recordsBlocked o call outcome =>
      rw [hp] at hgo
      cases hgo
      exact kept_free h _ rfl rfl

theorem kept_step {a : ApprovalStep} (h : ApprovalsSound s)
    (hstep : s.shared.step t (s.task t) a = some (service, phase)) : Kept s t service phase := by
  cases a with
  | request request =>
      unfold step at hstep
      dsimp only at hstep
      split at hstep
      next =>
        cases hstep
        exact kept_free h s.shared.calls rfl rfl
      next => cases hstep
  | go => exact kept_go h hstep
  | answer answer =>
      obtain ⟨phase, hnext, hstep⟩ := map_eq_some_iff.mp hstep
      cases hstep
      obtain ⟨o, hund, hasks⟩ := ApprovalAnswer.asks_next hnext
      exact kept_asks h s.shared.calls hund hasks
  | drop =>
      unfold step at hstep
      dsimp only at hstep
      split at hstep
      next =>
        cases hstep
        exact kept_free h s.shared.calls rfl rfl
      next => cases hstep
  | registerCall registrationId | removeCall registrationId =>
      cases hstep
      exact ⟨h.shared.calls _, (h.own t).calls _, fun u hu => ⟨(h.own u).calls _, h.apart t u (Ne.symm hu)⟩⟩

theorem sound_approvalMove {s' : ApprovalSystem} {a : Nat × ApprovalStep} (h : ApprovalsSound s)
    (hmove : ApprovalMove s a s') : ApprovalsSound s' := by
  refine h.of_move (fun p q hpq o o' ho ho' heq => hpq o' o ho' ho heq.symm) hmove fun service phase hstep => ?_
  obtain ⟨hshared, hown, hoth⟩ := kept_step h hstep
  exact ⟨hshared, hown, hoth⟩

end

end CodexStudy.Core.NetworkApproval
