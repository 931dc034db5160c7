import CodexStudy.ExecPolicy.Theorems.Requirements
import CodexStudy.ExecPolicy.Requirement

/-!
# Accepted amendments

In a round a request is evaluated, and the amendment that the user is asked about becomes an allow rule.
-/

namespace CodexStudy.ExecPolicy

open CodexStudy.Lib List Policy RuleMatch Or
open CodexStudy.ApplyPatch (AbsolutePath ProcessEnv)

section

variable {env : ProcessEnv} {policy policy' : Policy} {cmd : List Text} {words : List Text}

/-! ## The matches of one command -/

def Unmatched (env : ProcessEnv) (policy : Policy) (cmd : List Text) : Prop :=
  policy.matchedRules env cmd resolving = []

instance : Decidable (Unmatched env policy cmd) := inferInstanceAs (Decidable (_ = _))

variable {m : RuleMatch} {rule : PrefixRule}

theorem isPolicyMatch_of_rule (h : rule.matches cmd = some m) : isPolicyMatch m = true := by
  obtain ⟨_, _, rfl⟩ := Option.map_eq_some_iff.mp h
  rfl

theorem isPolicyMatch_withResolvedProgram (program : AbsolutePath) (m : RuleMatch) :
    isPolicyMatch (m.withResolvedProgram program) = isPolicyMatch m := by
  cases m <;> rfl

theorem isPolicyMatch_of_mem_matchesUnder {program : Text}
    (h : m ∈ policy.matchesUnder program cmd) : isPolicyMatch m = true := by
  obtain ⟨_, _, hm⟩ := mem_matchesUnder.mp h
  exact isPolicyMatch_of_rule hm

theorem Policy.matchedRules_nil (env : ProcessEnv) (policy : Policy) : policy.matchedRules env [] resolving = [] := rfl

theorem isPolicyMatch_of_mem_matchedRules (h : m ∈ policy.matchedRules env cmd resolving) : isPolicyMatch m = true := by
  cases cmd with
  | nil => simp [matchedRules_nil] at h
  | cons first args =>
      rw [resolving, matchedRules_cons] at h
      split at h
      · rw [matchHostExecutableRules_cons] at h
        split at h
        · split at h
          · obtain ⟨m', hm', rfl⟩ := mem_map.mp h
            rw [isPolicyMatch_withResolvedProgram]
            exact isPolicyMatch_of_mem_matchesUnder hm'
          · cases h
        · cases h
      · exact isPolicyMatch_of_mem_matchesUnder h

theorem Policy.matchesForCommand_some (env : ProcessEnv) (policy : Policy) (cmd : List Text)
    (fallback : List Text → Decision) :
    policy.matchesForCommandWithOptions env cmd (some fallback) resolving =
      if Unmatched env policy cmd then [.heuristicsRuleMatch cmd (fallback cmd)]
      else policy.matchedRules env cmd resolving := by
  unfold matchesForCommandWithOptions
  split
  · rename_i h _
    rw [if_pos (show Unmatched env policy cmd from h)]
    rename_i heq
    injection heq with heq
    rw [heq]
  · rename_i h
    have hne : ¬ Unmatched env policy cmd := fun hnil => h fallback hnil rfl
    rw [if_neg hne]

theorem matchesForCommand_ne_nil (fallback : List Text → Decision) :
    policy.matchesForCommandWithOptions env cmd (some fallback) resolving ≠ [] := by
  rw [matchesForCommand_some]
  split
  · simp
  · assumption

/-! ## Adding an allow rule -/

def Amended (policy : Policy) (words : List Text) (policy' : Policy) : Prop :=
  policy.addPrefixRule words .allow = .ok policy'

theorem exists_amended (policy : Policy) (h : words ≠ []) : ∃ policy', Amended policy words policy' := by
  cases words with
  | nil => exact absurd rfl h
  | cons first rest => exact ⟨_, rfl⟩

variable (h : Amended policy words policy')

include h in
theorem Amended.eq_insertRule :
    ∃ key rule, rule.decision = .allow ∧ policy' = policy.insertRule key rule := by
  cases words with
  | nil => cases h
  | cons first rest =>
      injection h with h
      exact ⟨first, _, rfl, h.symm⟩

structure AllowsMore (ms ms' : List RuleMatch) : Prop where
  keeps : ms ≠ [] → ms' ≠ []
  allows : ∀ m ∈ ms', m ∈ ms ∨ m.decision = .allow

theorem AllowsMore.append {ms new : List RuleMatch} (h : ∀ m ∈ new, m.decision = .allow) :
    AllowsMore ms (ms ++ new) := by
  refine ⟨fun hne => by simp [hne], fun m hm => ?_⟩
  rcases mem_append.mp hm with hm | hm
  · exact inl hm
  · exact inr (h m hm)

theorem AllowsMore.map {ms ms' : List RuleMatch} (h : AllowsMore ms ms') (program : AbsolutePath) :
    AllowsMore (ms.map (withResolvedProgram program)) (ms'.map (withResolvedProgram program)) := by
  refine ⟨fun hne => ?_, fun m hm => ?_⟩
  · rw [ne_eq, map_eq_nil_iff] at hne ⊢
    exact h.keeps hne
  · obtain ⟨m', hm', rfl⟩ := mem_map.mp hm
    rcases h.allows m' hm' with hm' | hm'
    · exact inl (mem_map_of_mem hm')
    · exact inr (by rw [decision_withResolvedProgram]; exact hm')

theorem allowsMore_matchesUnder {key : Text} (hrule : rule.decision = .allow) (program : Text) (cmd : List Text) :
    AllowsMore (policy.matchesUnder program cmd) ((policy.insertRule key rule).matchesUnder program cmd) := by
  rw [matchesUnder_insertRule]
  refine AllowsMore.append fun m hm => ?_
  split at hm
  · rw [PrefixRule.decision_of_matches (Option.mem_toList.mp hm), hrule]
  · cases hm

theorem allowsMore_matchHostExecutableRules {key : Text} (hrule : rule.decision = .allow) (first : Text)
    (args : List Text) : AllowsMore (policy.matchHostExecutableRules env (first :: args))
      ((policy.insertRule key rule).matchHostExecutableRules env (first :: args)) := by
  rw [matchHostExecutableRules_cons, matchHostExecutableRules_cons]
  cases resolveProgram env first with
  | none => exact ⟨id, fun m hm => inl hm⟩
  | some resolved =>
      obtain ⟨program, basename⟩ := resolved
      change AllowsMore (if policy.hostExecutableListed basename program = true then _ else _)
        (if policy.hostExecutableListed basename program = true then _ else _)
      split
      · exact (allowsMore_matchesUnder hrule basename _).map program
      · exact ⟨id, fun m hm => inl hm⟩

include h in
theorem Amended.allowsMore (cmd : List Text) :
    AllowsMore (policy.matchedRules env cmd resolving) (policy'.matchedRules env cmd resolving) := by
  obtain ⟨key, rule, hrule, rfl⟩ := h.eq_insertRule
  cases cmd with
  | nil => exact ⟨id, fun m hm => inl hm⟩
  | cons first args =>
      have hunder : AllowsMore (policy.matchesUnder first (first :: args))
          ((policy.insertRule key rule).matchesUnder first (first :: args)) := allowsMore_matchesUnder hrule first _
      have hhost : AllowsMore (policy.matchHostExecutableRules env (first :: args))
          ((policy.insertRule key rule).matchHostExecutableRules env (first :: args)) :=
        allowsMore_matchHostExecutableRules hrule first args
      rw [resolving, matchedRules_cons, matchedRules_cons]
      by_cases hold : policy.matchesUnder first (first :: args) = []
      · rw [if_pos hold]
        split
        · exact hhost
        · rename_i hnew
          refine ⟨fun _ => hnew, fun m hm => inr ?_⟩
          rcases hunder.allows m hm with hm | hm
          · rw [hold] at hm
            cases hm
          · exact hm
      · rw [if_neg hold, if_neg (hunder.keeps hold)]
        exact hunder

include h in
theorem Amended.unmatched (hcmd : Unmatched env policy' cmd) :
    Unmatched env policy cmd := by
  by_contra hne
  exact (h.allowsMore cmd).keeps hne hcmd

include h in
theorem Amended.not_unmatched : ¬ Unmatched env policy' words := by
  cases words with
  | nil => cases h
  | cons first rest =>
      injection h with h
      obtain ⟨m, hm⟩ := Option.isSome_iff_exists.mp (matchesPrefix_single.mpr (prefix_refl (first :: rest)))
      have hne : policy'.matchesUnder first (first :: rest) ≠ [] := by
        rw [← h, matchesUnder_insertRule, if_pos rfl, PrefixRule.matches, hm]
        simp
      rw [Unmatched, resolving, matchedRules_cons, if_neg hne]
      exact hne

end

/-! ## Rounds -/

def ExecApprovalRequirement.askedAmendment : ExecApprovalRequirement → Option (List Text)
  | needsApproval _ amendment => amendment
  | _ => none

section Rounds

variable (env : ProcessEnv) (tools : ShellTools) (req : ExecApprovalRequest)

def askedAmendment (policy : Policy) : Option (List Text) :=
  (createExecApprovalRequirementForCommand env tools policy req).bind ExecApprovalRequirement.askedAmendment

def requestedAmendment (policy : Policy) : Option (List Text) :=
  (req.evaluation env tools policy).bind fun evaluation =>
    req.requestedAmendment env tools policy evaluation.matchedRules

def accept (policy : Policy) (amendment : List Text) : Policy :=
  match policy.addPrefixRule amendment .allow with
  | .ok amended => amended
  | .error _ => policy

def policyAfter (policy : Policy) : Nat → Policy
  | 0 => policy
  | n + 1 =>
      match askedAmendment env tools req (policyAfter policy n) with
      | some amendment => accept (policyAfter policy n) amendment
      | none => policyAfter policy n

def requirementAfter (policy : Policy) (n : Nat) : Option ExecApprovalRequirement :=
  createExecApprovalRequirementForCommand env tools (policyAfter env tools req policy n) req

def segments : List (List Text) := (commandsForExecPolicy tools req.command).commands

/-- The rules that match the segments allow them. -/
def RulesAllow (policy : Policy) : Prop :=
  ∀ cmd ∈ segments tools req, ∀ m ∈ policy.matchedRules env cmd resolving, m.decision = .allow

/-- Accepting what is proposed ends with a command that runs without asking, no accepted amendment is proposed again,
and a requested one is the last. -/
structure Converges (policy : Policy) : Prop where
  skips : ∃ n ≤ (segments tools req).length, ∃ r ∈ requirementAfter env tools req policy n, r.isSkip
  neverAgain : ∀ i j amendment, i < j →
    amendment ∈ askedAmendment env tools req (policyAfter env tools req policy i) →
      ∀ r ∈ requirementAfter env tools req policy j, r.proposedExecpolicyAmendment ≠ some amendment
  requestedOnce : ∀ i amendment,
    amendment ∈ askedAmendment env tools req (policyAfter env tools req policy i) →
    amendment ∈ requestedAmendment env tools req (policyAfter env tools req policy i) →
      ∃ r ∈ requirementAfter env tools req policy (i + 1), r.isSkip

end Rounds

variable {env : ProcessEnv} {tools : ShellTools} {req : ExecApprovalRequest} {policy policy' : Policy}
  {cmd words : List Text}

/-! ## One evaluation -/

theorem segments_ne_nil (tools : ShellTools) (req : ExecApprovalRequest) : segments tools req ≠ [] := by
  unfold segments commandsForExecPolicy
  split
  · rename_i commands h
    have := (Option.filter_eq_some_iff.mp h).2
    simpa using this
  · split <;> simp

def allMatches (env : ProcessEnv) (tools : ShellTools) (req : ExecApprovalRequest) (policy : Policy) : List RuleMatch :=
  (segments tools req).flatMap fun cmd =>
    policy.matchesForCommandWithOptions env cmd (some (req.fallback tools)) resolving

theorem exists_evaluation (env : ProcessEnv) (tools : ShellTools) (req : ExecApprovalRequest) (policy : Policy) :
    ∃ d, maxDecision (allMatches env tools req policy) = some d ∧
      req.evaluation env tools policy = some ⟨d, allMatches env tools req policy⟩ := by
  obtain ⟨cmd, hcmd⟩ := exists_mem_of_ne_nil _ (segments_ne_nil tools req)
  have hmatches : policy.matchesForCommandWithOptions env cmd (some (req.fallback tools)) resolving ≠ [] :=
    matchesForCommand_ne_nil (req.fallback tools)
  obtain ⟨m, hm⟩ := exists_mem_of_ne_nil _ hmatches
  have hne : allMatches env tools req policy ≠ [] :=
    ne_nil_of_mem (mem_flatMap.mpr ⟨cmd, hcmd, hm⟩)
  cases hmax : maxDecision (allMatches env tools req policy) with
  | none => exact absurd (maxDecision_eq_none.mp hmax) hne
  | some d => exact ⟨d, rfl, congrArg (Option.map fun d => Evaluation.mk d _) hmax⟩

theorem mem_allMatches {m : RuleMatch} : m ∈ allMatches env tools req policy ↔ ∃ cmd ∈ segments tools req,
      Unmatched env policy cmd ∧ m = .heuristicsRuleMatch cmd (req.fallback tools cmd) ∨
        m ∈ policy.matchedRules env cmd resolving := by
  unfold allMatches
  rw [mem_flatMap]
  refine exists_congr fun cmd => and_congr_right fun _ => ?_
  rw [matchesForCommand_some]
  split
  · rename_i h
    have hnil : policy.matchedRules env cmd resolving = [] := h
    simp [hnil, h]
  · rename_i h
    simp [h]

/-- A segment that the user would be asked about. -/
def Pending (env : ProcessEnv) (tools : ShellTools) (req : ExecApprovalRequest) (policy : Policy)
    (cmd : List Text) : Prop :=
  Unmatched env policy cmd ∧ req.fallback tools cmd = .prompt

instance : Decidable (Pending env tools req policy cmd) := inferInstanceAs (Decidable (_ ∧ _))

/-- The policy lets the user be asked about the command until it runs without asking. -/
structure Askable (env : ProcessEnv) (tools : ShellTools) (req : ExecApprovalRequest) (policy : Policy) : Prop where
  rules : RulesAllow env tools req policy
  notForbidden : ∀ cmd ∈ segments tools req, Unmatched env policy cmd → req.fallback tools cmd ≠ .forbidden
  mayAsk : ∀ cmd ∈ segments tools req, Pending env tools req policy cmd →
    promptIsRejectedByPolicy req.approvalPolicy false = none

variable (hask : Askable env tools req policy) (h : Amended policy words policy')

include hask h in
theorem Askable.amended :
    Askable env tools req policy' where
  rules cmd hcmd m hm := ((h.allowsMore cmd).allows m hm).elim (hask.rules cmd hcmd m) id
  notForbidden cmd hcmd hun := hask.notForbidden cmd hcmd (h.unmatched hun)
  mayAsk cmd hcmd hp := hask.mayAsk cmd hcmd ⟨h.unmatched hp.1, hp.2⟩

variable (hrules : RulesAllow env tools req policy)

include hrules in
theorem decision_of_rulesAllow
    (hforbidden : ∀ cmd ∈ segments tools req, Unmatched env policy cmd → req.fallback tools cmd ≠ .forbidden) :
    maxDecision (allMatches env tools req policy) =
      some (if ∃ cmd ∈ segments tools req, Pending env tools req policy cmd then .prompt else .allow) := by
  obtain ⟨d, hd, _⟩ := exists_evaluation env tools req policy
  obtain ⟨⟨m, hm, rfl⟩, hmax⟩ := maxDecision_eq_some.mp hd
  rw [hd]
  congr 1
  split
  · rename_i h
    obtain ⟨cmd, hcmd, hun, hpr⟩ := h
    have hle := hmax _ (mem_allMatches.mpr ⟨cmd, hcmd, inl ⟨hun, rfl⟩⟩)
    obtain ⟨cmd', hcmd', ⟨hun', rfl⟩ | hrule⟩ := mem_allMatches.mp hm
    · have hne := hforbidden cmd' hcmd' hun'
      simp only [decision, hpr] at hle ⊢
      cases hf : req.fallback tools cmd' with
      | allow => rw [hf] at hle; exact absurd hle (by decide)
      | prompt => rfl
      | forbidden => exact absurd hf hne
    · rw [hrules cmd' hcmd' m hrule] at hle
      simp only [decision, hpr] at hle
      exact absurd hle (by decide)
  · rename_i h
    obtain ⟨cmd', hcmd', ⟨hun', rfl⟩ | hrule⟩ := mem_allMatches.mp hm
    · simp only [decision]
      cases hf : req.fallback tools cmd' with
      | allow => rfl
      | prompt => exact absurd ⟨cmd', hcmd', hun', hf⟩ h
      | forbidden => exact absurd hf (hforbidden cmd' hcmd' hun')
    · exact hrules cmd' hcmd' m hrule

include hrules in
theorem any_policyPrompt_eq_false :
    ((allMatches env tools req policy).any fun m => isPolicyMatch m && m.decision == .prompt) = false := by
  refine any_eq_false.mpr fun m hm => ?_
  obtain ⟨cmd, hcmd, ⟨_, rfl⟩ | hrule⟩ := mem_allMatches.mp hm
  · simp [isPolicyMatch]
  · simp [hrules cmd hcmd m hrule]

theorem any_isPolicyMatch : (allMatches env tools req policy).any isPolicyMatch = true ↔
    ∃ cmd ∈ segments tools req, ¬ Unmatched env policy cmd := by
  rw [any_eq_true]
  constructor
  · rintro ⟨m, hm, hpol⟩
    obtain ⟨cmd, hcmd, ⟨_, rfl⟩ | hrule⟩ := mem_allMatches.mp hm
    · cases hpol
    · exact ⟨cmd, hcmd, ne_nil_of_mem hrule⟩
  · rintro ⟨cmd, hcmd, hne⟩
    obtain ⟨m, hm⟩ := exists_mem_of_ne_nil _ hne
    exact ⟨m, mem_allMatches.mpr ⟨cmd, hcmd, inr hm⟩, isPolicyMatch_of_mem_matchedRules hm⟩

theorem pending_of_firstUnmatched (h : firstUnmatched .prompt (allMatches env tools req policy) = some cmd) :
    cmd ∈ segments tools req ∧ Pending env tools req policy cmd := by
  obtain ⟨m, hm, hsome⟩ := exists_of_findSome?_eq_some h
  obtain ⟨cmd', hcmd', ⟨hun, rfl⟩ | hrule⟩ := mem_allMatches.mp hm
  · simp only [Option.ite_none_right_eq_some] at hsome
    obtain ⟨hpr, hsome⟩ := hsome
    cases hsome
    exact ⟨hcmd', hun, hpr⟩
  · cases m with
    | prefixRuleMatch _ _ _ _ => cases hsome
    | heuristicsRuleMatch _ _ => exact absurd (isPolicyMatch_of_mem_matchedRules hrule) (by simp [isPolicyMatch])

theorem exists_firstUnmatched (hcmd : cmd ∈ segments tools req) (h : Pending env tools req policy cmd) :
    ∃ words, firstUnmatched .prompt (allMatches env tools req policy) = some words := by
  refine Option.isSome_iff_exists.mp (findSome?_isSome_iff.mpr ?_)
  refine ⟨_, mem_allMatches.mpr ⟨cmd, hcmd, inl ⟨h.1, rfl⟩⟩, ?_⟩
  simp [h.2]

/-! ## What is proposed -/

theorem requirement_eq {d : Decision} (h : maxDecision (allMatches env tools req policy) = some d) :
    createExecApprovalRequirementForCommand env tools policy req =
      some (requirementFor env tools policy req ⟨d, allMatches env tools req policy⟩) := by
  obtain ⟨d', hd', he⟩ := exists_evaluation env tools req policy
  rw [h] at hd'
  cases hd'
  exact congrArg (Option.map _) he

theorem requestedAmendment_eq : requestedAmendment env tools req policy =
    req.requestedAmendment env tools policy (allMatches env tools req policy) := by
  obtain ⟨d, _, he⟩ := exists_evaluation env tools req policy
  exact congrArg (Option.bind · _) he

theorem requestedAmendment_eq_some (h : requestedAmendment env tools req policy = some words) :
    (∀ cmd ∈ segments tools req, Unmatched env policy cmd) ∧
      ∃ policy', Amended policy words policy' ∧ ∀ cmd ∈ segments tools req, ¬ Pending env tools req policy' cmd := by
  rw [requestedAmendment_eq, ExecApprovalRequest.requestedAmendment,
    deriveRequestedExecpolicyAmendmentFromPrefixRule.eq_def] at h
  split at h
  · cases h
  split at h
  · cases h
  rename_i prefixRule _
  split at h
  · cases h
  split at h
  · cases h
  split at h
  · cases h
  rename_i hany
  rw [any_isPolicyMatch] at hany
  push Not at hany
  refine ⟨hany, ?_⟩
  split at h
  · rename_i happ
    cases h
    unfold prefixRuleWouldApproveAllCommands at happ
    split at happ
    · cases happ
    · rename_i policy' hadd
      refine ⟨policy', hadd, fun cmd hcmd hp => ?_⟩
      have hallow := all_eq_true.mp happ cmd hcmd
      rw [checkWithOptions, matchesForCommand_some, if_pos hp.1, hp.2] at hallow
      simp [Evaluation.fromMatches, maxDecision, decision] at hallow
  · cases h

include hask in
theorem requirement_pending
    (hplain : (commandsForExecPolicy tools req.command).usedComplexParsing = false)
    (hp : ∃ cmd ∈ segments tools req, Pending env tools req policy cmd) : ∃ reason amendment,
      createExecApprovalRequirementForCommand env tools policy req = some (.needsApproval reason (some amendment)) ∧
      (requestedAmendment env tools req policy = some amendment ∨ requestedAmendment env tools req policy = none ∧
          amendment ∈ segments tools req ∧ Pending env tools req policy amendment) := by
  have hd := decision_of_rulesAllow hask.rules hask.notForbidden
  rw [if_pos hp] at hd
  obtain ⟨cmd, hcmd, hpend⟩ := hp
  obtain ⟨words, hwords⟩ := exists_firstUnmatched hcmd hpend
  have hfst := pending_of_firstUnmatched hwords
  rw [requirement_eq hd]
  simp only [requirementFor, any_policyPrompt_eq_false hask.rules, hask.mayAsk cmd hcmd hpend,
    ExecApprovalRequest.autoAmendment, hplain, Bool.false_eq_true, if_false,
    tryDeriveExecpolicyAmendmentForPromptRules, hwords, ← requestedAmendment_eq]
  cases hrequested : requestedAmendment env tools req policy with
  | some amendment => exact ⟨_, amendment, rfl, inl rfl⟩
  | none => exact ⟨_, words, rfl, inr ⟨rfl, hfst⟩⟩

include hask in
theorem requirement_not_pending
    (hp : ¬ ∃ cmd ∈ segments tools req, Pending env tools req policy cmd) : ∃ bypassSandbox amendment,
      createExecApprovalRequirementForCommand env tools policy req = some (.skip bypassSandbox amendment) ∧
      ((∃ cmd ∈ segments tools req, ¬ Unmatched env policy cmd) → amendment = none) := by
  have hd := decision_of_rulesAllow hask.rules hask.notForbidden
  rw [if_neg hp] at hd
  rw [requirement_eq hd]
  refine ⟨_, _, rfl, fun hmtd => ?_⟩
  simp [ExecApprovalRequest.autoAmendment, tryDeriveExecpolicyAmendmentForAllowRules,
    any_isPolicyMatch.mpr hmtd]

include hrules in
theorem askable_of_not_forbidden
    (hfst : ∀ r ∈ createExecApprovalRequirementForCommand env tools policy req, ¬ r.isForbidden) :
    Askable env tools req policy := by
  have hforbidden : ∀ cmd ∈ segments tools req, Unmatched env policy cmd → req.fallback tools cmd ≠ .forbidden := by
    intro cmd hcmd hun hf
    have hd : maxDecision (allMatches env tools req policy) = some .forbidden :=
      maxDecision_eq_some.mpr
        ⟨⟨_, mem_allMatches.mpr ⟨cmd, hcmd, inl ⟨hun, rfl⟩⟩, hf⟩, fun m _ => Decision.le_forbidden m.decision⟩
    exact hfst _ (requirement_eq hd) rfl
  refine ⟨hrules, hforbidden, fun cmd hcmd hp => ?_⟩
  have hd := decision_of_rulesAllow hrules hforbidden
  rw [if_pos ⟨cmd, hcmd, hp⟩] at hd
  have hreq := requirement_eq hd
  simp only [requirementFor, any_policyPrompt_eq_false hrules] at hreq
  cases hreject : promptIsRejectedByPolicy req.approvalPolicy false with
  | none => rfl
  | some reason =>
      rw [hreject] at hreq
      exact absurd rfl (hfst _ hreq)

/-! ## One round -/

include h in
theorem accept_eq : accept policy words = policy' := by
  unfold accept
  rw [h]

include hask in
theorem accept_step
    (hplain : (commandsForExecPolicy tools req.command).usedComplexParsing = false)
    (hwords : ∀ cmd ∈ segments tools req, cmd ≠ []) (h : askedAmendment env tools req policy = some words) :
    Amended policy words (accept policy words) ∧ ∃ cmd ∈ segments tools req, Pending env tools req policy cmd ∧
        ¬ Unmatched env (accept policy words) cmd := by
  by_cases hp : ∃ cmd ∈ segments tools req, Pending env tools req policy cmd
  · obtain ⟨reason, amendment, hreq, hcase⟩ := requirement_pending hask hplain hp
    have hamendment : amendment = words := by
      rw [askedAmendment, hreq] at h
      exact Option.some.inj h
    subst hamendment
    rcases hcase with hrequested | ⟨_, hmem, hpend⟩
    · obtain ⟨_, policy', hadd, hnone⟩ := requestedAmendment_eq_some hrequested
      rw [accept_eq hadd]
      obtain ⟨cmd, hcmd, hpend⟩ := hp
      exact ⟨hadd, cmd, hcmd, hpend, fun hun => hnone cmd hcmd ⟨hun, hpend.2⟩⟩
    · obtain ⟨policy', hadd⟩ := exists_amended policy (hwords amendment hmem)
      rw [accept_eq hadd]
      exact ⟨hadd, amendment, hmem, hpend, hadd.not_unmatched⟩
  · obtain ⟨_, _, hreq, _⟩ := requirement_not_pending hask hp
    rw [askedAmendment, hreq] at h
    cases h

/-- The number of segments that the user would be asked about. -/
def remaining (env : ProcessEnv) (tools : ShellTools) (req : ExecApprovalRequest) (policy : Policy) : Nat :=
  ((segments tools req).filter fun cmd => Pending env tools req policy cmd).length

include h in
theorem remaining_lt (hcmd : cmd ∈ segments tools req)
    (hp : Pending env tools req policy cmd) (hmtd : ¬ Unmatched env policy' cmd) :
    remaining env tools req policy' < remaining env tools req policy := by
  unfold remaining
  have hsub : ((segments tools req).filter fun cmd => Pending env tools req policy' cmd) =
      ((segments tools req).filter fun cmd => Pending env tools req policy cmd).filter
        fun cmd => Pending env tools req policy' cmd := by
    rw [filter_filter]
    refine filter_congr fun c _ => ?_
    have himp : Pending env tools req policy' c → Pending env tools req policy c :=
      fun hc => ⟨h.unmatched hc.1, hc.2⟩
    by_cases hc : Pending env tools req policy' c
    · simp [hc, himp hc]
    · simp [hc]
  rw [hsub, length_filter_lt_length_iff_exists]
  exact ⟨cmd, mem_filter.mpr ⟨hcmd, by simpa using hp⟩, by simpa using fun hc => hmtd hc.1⟩

/-! ## Runs -/

section Runs

variable (hplain : (commandsForExecPolicy tools req.command).usedComplexParsing = false)
  (hwords : ∀ cmd ∈ segments tools req, cmd ≠ [])

theorem policyAfter_succ {n : Nat} (h : askedAmendment env tools req (policyAfter env tools req policy n) = some words) :
    policyAfter env tools req policy (n + 1) = accept (policyAfter env tools req policy n) words := by
  rw [policyAfter, h]

theorem policyAfter_succ_of_none {n : Nat}
    (h : askedAmendment env tools req (policyAfter env tools req policy n) = none) :
    policyAfter env tools req policy (n + 1) = policyAfter env tools req policy n := by
  rw [policyAfter, h]

include hplain hwords

include hask in
theorem askable_policyAfter (n : Nat) :
    Askable env tools req (policyAfter env tools req policy n) := by
  induction n with
  | zero => exact hask
  | succ n ih =>
      cases h : askedAmendment env tools req (policyAfter env tools req policy n) with
      | none => rw [policyAfter_succ_of_none h]; exact ih
      | some words => rw [policyAfter_succ h]; exact ih.amended (accept_step ih hplain hwords h).1

include hask in
theorem matched_policyAfter {i j : Nat} (hij : i ≤ j)
    (h : ¬ Unmatched env (policyAfter env tools req policy i) cmd) :
    ¬ Unmatched env (policyAfter env tools req policy j) cmd := by
  induction j, hij using Nat.le_induction with
  | base => exact h
  | succ j hij ih =>
      have haskj := askable_policyAfter hask hplain hwords j
      cases hasked : askedAmendment env tools req (policyAfter env tools req policy j) with
      | none => rw [policyAfter_succ_of_none hasked]; exact ih
      | some words =>
          rw [policyAfter_succ hasked]
          exact fun hun => ih ((accept_step haskj hplain hwords hasked).1.unmatched hun)

include hask in
theorem remaining_policyAfter (n : Nat) :
    (∃ m ≤ n, ¬ ∃ cmd ∈ segments tools req, Pending env tools req (policyAfter env tools req policy m) cmd) ∨
      remaining env tools req (policyAfter env tools req policy n) + n ≤ remaining env tools req policy := by
  induction n with
  | zero => exact inr (le_of_eq (Nat.add_zero _))
  | succ n ih =>
      rcases ih with ⟨m, hm, hnone⟩ | hle
      · exact inl ⟨m, by omega, hnone⟩
      · by_cases hp : ∃ cmd ∈ segments tools req, Pending env tools req (policyAfter env tools req policy n) cmd
        · have haskn := askable_policyAfter hask hplain hwords n
          obtain ⟨_, words, hreq, _⟩ := requirement_pending haskn hplain hp
          have hasked : askedAmendment env tools req (policyAfter env tools req policy n) = some words := by
            rw [askedAmendment, hreq]
            rfl
          obtain ⟨hadd, cmd, hcmd, hpend, hmtd⟩ := accept_step haskn hplain hwords hasked
          have hlt := remaining_lt hadd hcmd hpend hmtd
          rw [policyAfter_succ hasked]
          exact inr (by omega)
        · exact inl ⟨n, by omega, hp⟩

include hask in
theorem exists_policyAfter_not_pending : ∃ n ≤ (segments tools req).length,
      ¬ ∃ cmd ∈ segments tools req, Pending env tools req (policyAfter env tools req policy n) cmd := by
  have hlen : remaining env tools req policy ≤ (segments tools req).length := length_filter_le _ _
  rcases remaining_policyAfter hask hplain hwords (remaining env tools req policy) with ⟨m, hm, hnone⟩ | hle
  · exact ⟨m, by omega, hnone⟩
  · refine ⟨remaining env tools req policy, hlen, ?_⟩
    rintro ⟨cmd, hcmd, hp⟩
    have hnil : remaining env tools req (policyAfter env tools req policy (remaining env tools req policy)) = 0 := by
      omega
    rw [remaining, length_eq_zero_iff, filter_eq_nil_iff] at hnil
    exact hnil cmd hcmd (by simpa using hp)

end Runs

/-- Where the command is read as plain commands, only allow rules match its segments and it is not refused,
the accepted amendments come to an end. -/
theorem accepted_amendments_converge (env : ProcessEnv) (tools : ShellTools) (req : ExecApprovalRequest)
    (policy : Policy) (hrules : RulesAllow env tools req policy)
    (hplain : (commandsForExecPolicy tools req.command).usedComplexParsing = false)
    (hwords : ∀ cmd ∈ segments tools req, cmd ≠ [])
    (hfirst : ∀ r ∈ createExecApprovalRequirementForCommand env tools policy req, ¬ r.isForbidden) :
    Converges env tools req policy := by
  have hask := askable_of_not_forbidden hrules hfirst
  have haskAfter := askable_policyAfter hask hplain hwords
  refine ⟨?_, ?_, ?_⟩
  · obtain ⟨n, hn, hnone⟩ := exists_policyAfter_not_pending hask hplain hwords
    obtain ⟨_, _, hreq, _⟩ := requirement_not_pending (haskAfter n) hnone
    exact ⟨n, hn, _, hreq, rfl⟩
  · intro i j amendment hij hasked r hr hproposed
    obtain ⟨hadd, cmd, hcmd, _, hmtd⟩ := accept_step (haskAfter i) hplain hwords hasked
    rw [← policyAfter_succ hasked] at hmtd hadd
    have hmatchedj := matched_policyAfter hask hplain hwords (Nat.succ_le_of_lt hij) hmtd
    have hamendment : ¬ Unmatched env _ amendment := hadd.not_unmatched
    have hamendmentj := matched_policyAfter hask hplain hwords (Nat.succ_le_of_lt hij) hamendment
    rw [requirementAfter] at hr
    by_cases hp : ∃ cmd ∈ segments tools req, Pending env tools req (policyAfter env tools req policy j) cmd
    · obtain ⟨_, words, hreq, hcase⟩ := requirement_pending (haskAfter j) hplain hp
      rw [hreq] at hr
      cases hr
      cases hproposed
      rcases hcase with hrequested | ⟨_, _, hpend⟩
      · exact hmatchedj ((requestedAmendment_eq_some hrequested).1 cmd hcmd)
      · exact hamendmentj hpend.1
    · obtain ⟨_, _, hreq, hnone⟩ := requirement_not_pending (haskAfter j) hp
      rw [hreq] at hr
      cases hr
      rw [ExecApprovalRequirement.proposedExecpolicyAmendment, hnone ⟨cmd, hcmd, hmatchedj⟩] at hproposed
      cases hproposed
  · intro i amendment hasked hrequested
    obtain ⟨_, policy', hadd, hnone⟩ := requestedAmendment_eq_some hrequested
    have haft : policyAfter env tools req policy (i + 1) = policy' := by
      rw [policyAfter_succ hasked, accept_eq hadd]
    have hask' := haskAfter (i + 1)
    rw [haft] at hask'
    obtain ⟨_, _, hreq, _⟩ := requirement_not_pending hask' fun ⟨cmd, hcmd, hp⟩ => hnone cmd hcmd hp
    exact ⟨_, by rw [requirementAfter, haft]; exact hreq, rfl⟩

/-! ## Scripts -/

def shellCommand (script : String) : List Text := ["bash", "-lc", script.toList]

def buildAndInstall : List Text := shellCommand "cargo build && npm install"

def hereDocument : List Text := shellCommand "python3 <<'PY'\nprint('hello')\nPY"

/-- The reading of the two scripts; none of their programs is known to be safe or dangerous. -/
def scriptTools : ShellTools where
  parseShellLcPlainCommands command :=
    if command = buildAndInstall then
      some [["cargo", "build"], ["npm", "install"]]
    else none
  parseShellLcSingleCommandPrefix command := if command = hereDocument then some ["python3"] else none
  isKnownSafeCommand _ := false
  commandMightBeDangerous _ := false
  shlexTryJoin _ := none

/-- A request of a user who is asked about every command that is not known to be safe. -/
def untrusted (command : List Text) : ExecApprovalRequest :=
  ⟨command, .unlessTrusted, .managed, { entries := [] }, .useDefault, none⟩

theorem build_and_install_converges : Converges {} scriptTools (untrusted buildAndInstall) empty := by
  have hreq : createExecApprovalRequirementForCommand {} scriptTools empty (untrusted buildAndInstall) =
      some (.needsApproval none (some ["cargo", "build"])) := by decide +kernel
  refine accepted_amendments_converge {} scriptTools (untrusted buildAndInstall) empty ?_ ?_ ?_ ?_
  · unfold RulesAllow
    decide +kernel
  · decide +kernel
  · decide +kernel
  · rw [hreq]
    rintro _ ⟨⟩
    decide

/-- About a here-document the user is asked every time and no amendment is proposed. -/
theorem here_document_does_not_converge :
    ¬ ∀ (env : ProcessEnv) (tools : ShellTools) (req : ExecApprovalRequest) (policy : Policy),
      RulesAllow env tools req policy → Converges env tools req policy := by
  intro h
  have hrules : RulesAllow {} scriptTools (untrusted hereDocument) empty := by
    unfold RulesAllow
    decide +kernel
  obtain ⟨n, hn, r, hr, hskip⟩ := (h {} scriptTools (untrusted hereDocument) empty hrules).skips
  have hlen : (segments scriptTools (untrusted hereDocument)).length = 1 := by decide +kernel
  have haft : requirementAfter {} scriptTools (untrusted hereDocument) empty n =
      some (.needsApproval none none) := by
    rw [hlen] at hn
    rcases Nat.le_one_iff_eq_zero_or_eq_one.mp hn with rfl | rfl <;> decide +kernel
  rw [haft] at hr
  cases hr
  cases hskip

end CodexStudy.ExecPolicy
