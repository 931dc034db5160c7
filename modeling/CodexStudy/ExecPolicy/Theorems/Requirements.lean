import CodexStudy.ExecPolicy.Policy
import Mathlib.Order.MinMax

/-!
# Requirements and user policies

The managed requirements are laid over the policy of the user.
-/

namespace CodexStudy.ExecPolicy

open CodexStudy.Lib List Policy Option PrefixRule
open CodexStudy.ApplyPatch (AbsolutePath ProcessEnv)

/-! ## The most restrictive decision -/

variable {ms : List RuleMatch} {rule : PrefixRule} {m : RuleMatch}

theorem maxDecision_eq_some {d : Decision} :
    maxDecision ms = some d ↔ (∃ m ∈ ms, m.decision = d) ∧ ∀ m ∈ ms, m.decision ≤ d := by
  unfold maxDecision
  rw [max?_eq_some_iff]
  simp

@[simp] theorem maxDecision_eq_none : maxDecision ms = none ↔ ms = [] := by
  simp [maxDecision]

theorem exists_maxDecision_ge {d : Decision} :
    (∃ d', maxDecision ms = some d' ∧ d ≤ d') ↔ ∃ m ∈ ms, d ≤ m.decision := by
  constructor
  · rintro ⟨d', hmax, hle⟩
    obtain ⟨⟨m, hm, rfl⟩, _⟩ := maxDecision_eq_some.mp hmax
    exact ⟨m, hm, hle⟩
  · rintro ⟨m, hm, hle⟩
    cases hmax : maxDecision ms with
    | none => exact absurd (maxDecision_eq_none.mp hmax) (ne_nil_of_mem hm)
    | some d' => exact ⟨d', rfl, hle.trans ((maxDecision_eq_some.mp hmax).2 m hm)⟩

/-! ## One rule -/

theorem PrefixRule.decision_of_matches {cmd : List Text}
    (h : rule.matches cmd = some m) : m.decision = rule.decision := by
  obtain ⟨_, _, rfl⟩ := map_eq_some_iff.mp h
  rfl

theorem all_matches_single {ws ts : List Text} (hle : ws.length ≤ ts.length) :
    ((ws.map PatternToken.single).zip (ts.take ws.length)).all (fun (t, w) => t.matches w) = true ↔ ws <+: ts := by
  induction ws generalizing ts with
  | nil => simp
  | cons w ws ih =>
      cases ts with
      | nil => simp at hle
      | cons t ts =>
          have hshort : ws.length ≤ ts.length := by simpa using hle
          have hrest := ih hshort
          simpa [PatternToken.matches, cons_prefix_cons] using fun _ => hrest

theorem matchesPrefix_single {first : Text} {rest cmd : List Text} :
    ((PrefixPattern.mk first (rest.map .single)).matchesPrefix cmd).isSome ↔ first :: rest <+: cmd := by
  rw [PrefixPattern.matchesPrefix]
  dsimp only
  split
  · rename_i h
    simp only [isSome_none, Bool.false_eq_true, false_iff]
    rintro ⟨rest', rfl⟩
    rcases h with hshort | hoth
    · rw [length_map, length_append, length_cons] at hshort
      omega
    · exact hoth rfl
  · rename_i h
    obtain ⟨hlen, hfst⟩ := not_or.mp h
    cases cmd with
    | nil => simp at hfst
    | cons t ts =>
        have hle : rest.length ≤ ts.length := by
          rw [length_map, length_cons] at hlen
          omega
        have ht : first = t := by simpa using Eq.symm (not_not.mp hfst)
        rw [cons_prefix_cons, ← all_matches_single hle]
        split
        · rename_i h
          simp only [length_map, tail_cons] at h
          simp [ht, h]
        · rename_i h
          simp only [length_map, tail_cons] at h
          simp [h]

/-! ## The rules under a word -/

variable (env : ProcessEnv) (policy : Policy) (cmd : List Text)

def Policy.matchesUnder (program : Text) (cmd : List Text) : List RuleMatch :=
  (policy.rulesByProgram program).filterMap fun rule => rule.matches cmd

theorem Policy.mem_matchesUnder {policy : Policy} {program : Text} {cmd : List Text} :
    m ∈ policy.matchesUnder program cmd ↔
      ∃ rule ∈ policy.rulesByProgram program, rule.matches cmd = some m := mem_filterMap

theorem Policy.matchesUnder_mergeOverlay (policy overlay : Policy) (program : Text) (cmd : List Text) :
    (policy.mergeOverlay overlay).matchesUnder program cmd =
      policy.matchesUnder program cmd ++ overlay.matchesUnder program cmd := filterMap_append

theorem Policy.matchesUnder_insertRule (key program : Text) (rule : PrefixRule) (cmd : List Text) :
    (policy.insertRule key rule).matchesUnder program cmd =
      policy.matchesUnder program cmd ++ if program = key then (rule.matches cmd).toList else [] := by
  unfold matchesUnder insertRule
  by_cases h : program = key
  · subst h
    simp only [Function.update_self, filterMap_append, if_pos]
    cases hm : rule.matches cmd <;> simp [hm]
  · simp [h]

/-! ## The rules under the name of a program -/

def resolveProgram (first : Text) : Option (AbsolutePath × Text) :=
  (AbsolutePath.fromAbsolutePath env first).bind fun program =>
    (executablePathLookupKey program).map fun basename => (program, basename)

theorem Policy.matchHostExecutableRules_cons (first : Text) (args : List Text) :
    policy.matchHostExecutableRules env (first :: args) =
      match resolveProgram env first with
      | some (program, basename) =>
          if policy.hostExecutableListed basename program then
            (policy.matchesUnder basename (basename :: args)).map (RuleMatch.withResolvedProgram program)
          else []
      | none => [] := by
  unfold resolveProgram
  rw [matchHostExecutableRules]
  cases AbsolutePath.fromAbsolutePath env first with
  | none => rfl
  | some program => cases h : executablePathLookupKey program <;> simp [matchesUnder, h]

theorem Policy.matchedRules_cons (first : Text) (args : List Text) :
    policy.matchedRules env (first :: args) ⟨true⟩ =
      if policy.matchesUnder first (first :: args) = [] then policy.matchHostExecutableRules env (first :: args)
      else policy.matchesUnder first (first :: args) := by
  unfold matchedRules
  change (((some (policy.matchesUnder first (first :: args))).filter _).or _).getD [] = _
  cases policy.matchesUnder first (first :: args) <;> simp [Option.filter]

theorem Policy.matchesForCommand_none (options : MatchOptions) :
    policy.matchesForCommandWithOptions env cmd none options = policy.matchedRules env cmd options := by
  unfold matchesForCommandWithOptions
  cases policy.matchedRules env cmd options <;> rfl

/-- The rule is filed under the first word of the command and matches the command. -/
def ExactRule (rule : PrefixRule) : Prop :=
  ∃ first ∈ cmd.head?, rule ∈ policy.rulesByProgram first ∧ (rule.matches cmd).isSome

/-- The rule is filed under the name of the program and matches the command with the name for the program. -/
def BasenameRule (rule : PrefixRule) : Prop :=
  ∃ first ∈ cmd.head?, ∃ program basename, resolveProgram env first = some (program, basename) ∧
    rule ∈ policy.rulesByProgram basename ∧ (rule.matches (basename :: cmd.tail)).isSome

/-- The user policy does not stand before the requirements: they have an exact rule, or an exact rule of the user is as
restrictive as theirs, or the user has no exact rule and no list that leaves the program out of their reach. -/
def RequirementReached (base requirements : Policy) (cmd : List Text) : Prop :=
  (∃ rule, ExactRule requirements cmd rule) ∨
    (∃ rule, ExactRule base cmd rule ∧
      ∀ rule', BasenameRule env requirements cmd rule' → rule'.decision ≤ rule.decision) ∨
    ((∀ rule, ¬ ExactRule base cmd rule) ∧
      ∀ first ∈ cmd.head?, ∀ program basename, resolveProgram env first = some (program, basename) →
        (requirements.hostExecutablesByName basename).isSome ∨ base.hostExecutableListed basename program)

variable {env : ProcessEnv} {base requirements policy : Policy} {first : Text} {args cmd : List Text}

theorem exists_exactRule_iff : (∃ rule, ExactRule policy (first :: args) rule) ↔
    policy.matchesUnder first (first :: args) ≠ [] := by
  constructor
  · rintro ⟨rule, _, ⟨⟩, hmem, hsome⟩
    obtain ⟨m, hm⟩ := isSome_iff_exists.mp hsome
    exact ne_nil_of_mem (mem_matchesUnder.mpr ⟨rule, hmem, hm⟩)
  · intro hne
    obtain ⟨m, hm⟩ := exists_mem_of_ne_nil _ hne
    obtain ⟨rule, hmem, hm⟩ := mem_matchesUnder.mp hm
    exact ⟨rule, first, rfl, hmem, by simp [hm]⟩

theorem exists_match_of_exactRule (h : ExactRule policy (first :: args) rule) :
    ∃ m ∈ policy.matchesUnder first (first :: args), m.decision = rule.decision := by
  obtain ⟨_, ⟨⟩, hmem, hsome⟩ := h
  obtain ⟨m, hm⟩ := isSome_iff_exists.mp hsome
  exact ⟨m, mem_matchesUnder.mpr ⟨rule, hmem, hm⟩, decision_of_matches hm⟩

theorem exactRule_of_match (h : m ∈ policy.matchesUnder first (first :: args)) :
    ∃ rule, ExactRule policy (first :: args) rule ∧ rule.decision = m.decision := by
  obtain ⟨rule, hmem, hm⟩ := mem_matchesUnder.mp h
  exact ⟨rule, ⟨first, rfl, hmem, by simp [hm]⟩, (decision_of_matches hm).symm⟩

theorem hostExecutableListed_mergeOverlay {basename : Text} {program : AbsolutePath}
    (h : requirements.hostExecutableListed basename program) :
    (base.mergeOverlay requirements).hostExecutableListed basename program ↔
      (requirements.hostExecutablesByName basename).isSome ∨ base.hostExecutableListed basename program := by
  unfold hostExecutableListed at *
  have hmg : (base.mergeOverlay requirements).hostExecutablesByName basename =
      (requirements.hostExecutablesByName basename).or (base.hostExecutablesByName basename) := rfl
  rw [hmg]
  cases hr : requirements.hostExecutablesByName basename with
  | none => simp
  | some paths =>
      rw [hr] at h
      simpa using h

structure DecidesByName (env : ProcessEnv) (requirements : Policy) (first : Text) (args : List Text)
    (program : AbsolutePath) (basename : Text) (d : Decision) : Prop where
  resolves : resolveProgram env first = some (program, basename)
  listed : requirements.hostExecutableListed basename program
  reached : ∃ m ∈ requirements.matchesUnder basename (basename :: args), m.decision = d
  most : ∀ m ∈ requirements.matchesUnder basename (basename :: args), m.decision ≤ d

section

variable {program : AbsolutePath} {basename : Text} {d : Decision}

theorem exists_decidesByName (h : maxDecision (requirements.matchHostExecutableRules env (first :: args)) = some d) :
    ∃ program basename, DecidesByName env requirements first args program basename d := by
  obtain ⟨⟨m, hm, hmd⟩, hmax⟩ := maxDecision_eq_some.mp h
  rw [matchHostExecutableRules_cons] at hm hmax
  cases hprog : resolveProgram env first with
  | none =>
      rw [hprog] at hm
      cases hm
  | some resolved =>
      obtain ⟨program, basename⟩ := resolved
      rw [hprog] at hm hmax
      dsimp only at hm hmax
      split at hm
      · rename_i hlis
        rw [if_pos hlis] at hmax
        obtain ⟨r, hr, rfl⟩ := mem_map.mp hm
        rw [RuleMatch.decision_withResolvedProgram] at hmd
        refine ⟨program, basename, hprog, hlis, ⟨r, hr, hmd⟩, fun m hm => ?_⟩
        have hle := hmax _ (mem_map_of_mem hm)
        rw [RuleMatch.decision_withResolvedProgram] at hle
        exact hle
      · cases hm

theorem DecidesByName.reached_iff (h : DecidesByName env requirements first args program basename d) :
    (∃ m ∈ (base.mergeOverlay requirements).matchHostExecutableRules env (first :: args), d ≤ m.decision) ↔
      ∀ first' ∈ (first :: args).head?, ∀ program basename, resolveProgram env first' = some (program, basename) →
        (requirements.hostExecutablesByName basename).isSome ∨ base.hostExecutableListed basename program := by
  have hreach : (∀ first' ∈ (first :: args).head?, ∀ program basename,
      resolveProgram env first' = some (program, basename) →
        (requirements.hostExecutablesByName basename).isSome ∨ base.hostExecutableListed basename program) ↔
      (base.mergeOverlay requirements).hostExecutableListed basename program := by
    rw [hostExecutableListed_mergeOverlay h.listed]
    constructor
    · intro hall
      exact hall first rfl program basename h.resolves
    · rintro hmrg _ ⟨⟩ program' basename' hprog'
      rw [h.resolves] at hprog'
      cases hprog'
      exact hmrg
  rw [hreach, matchHostExecutableRules_cons, h.resolves]
  dsimp only
  constructor
  · rintro ⟨m, hm, _⟩
    split at hm
    · assumption
    · cases hm
  · intro hmrg
    rw [if_pos hmrg]
    obtain ⟨m, hm, rfl⟩ := h.reached
    refine ⟨m.withResolvedProgram program, mem_map_of_mem ?_, by simp⟩
    rw [matchesUnder_mergeOverlay]
    exact mem_append_right _ hm

theorem DecidesByName.exact_iff (h : DecidesByName env requirements first args program basename d) :
    (∃ m ∈ base.matchesUnder first (first :: args), d ≤ m.decision) ↔ ∃ rule, ExactRule base (first :: args) rule ∧
        ∀ rule', BasenameRule env requirements (first :: args) rule' → rule'.decision ≤ rule.decision := by
  constructor
  · rintro ⟨m, hm, hle⟩
    obtain ⟨rule, hrule, hdec⟩ := exactRule_of_match hm
    refine ⟨rule, hrule, ?_⟩
    rintro rule' ⟨_, ⟨⟩, program', basename', hprog', hmem', hsome'⟩
    rw [h.resolves] at hprog'
    cases hprog'
    obtain ⟨m', hm'⟩ := isSome_iff_exists.mp hsome'
    have hmost := h.most m' (mem_matchesUnder.mpr ⟨rule', hmem', hm'⟩)
    rw [decision_of_matches hm'] at hmost
    rw [hdec]
    exact hmost.trans hle
  · rintro ⟨rule, hrule, hall⟩
    obtain ⟨m, hm, hdec⟩ := exists_match_of_exactRule hrule
    obtain ⟨r, hr, hrd⟩ := h.reached
    obtain ⟨rule', hmem', hm'⟩ := mem_matchesUnder.mp hr
    have hle := hall rule' ⟨first, rfl, program, basename, h.resolves, hmem', by simp [hm']⟩
    rw [← decision_of_matches hm', hrd] at hle
    exact ⟨m, hm, hdec ▸ hle⟩

end

/-- A requirement keeps its force under the policy of the user exactly if it is reached. -/
theorem requirements_hold_iff (env : ProcessEnv) (base requirements : Policy) (cmd : List Text) (hcmd : cmd ≠ [])
    (d : Decision) (h : maxDecision (requirements.matchesForCommandWithOptions env cmd none ⟨true⟩) = some d) :
    (∃ d', maxDecision ((base.mergeOverlay requirements).matchesForCommandWithOptions env cmd none ⟨true⟩) = some d' ∧
      d ≤ d') ↔ RequirementReached env base requirements cmd := by
  obtain ⟨first, args, rfl⟩ := exists_cons_of_ne_nil hcmd
  rw [matchesForCommand_none, matchedRules_cons] at h
  rw [exists_maxDecision_ge, matchesForCommand_none, matchedRules_cons,
    matchesUnder_mergeOverlay, RequirementReached, exists_exactRule_iff]
  by_cases hex : requirements.matchesUnder first (first :: args) = []
  · rw [if_pos hex] at h
    obtain ⟨program, basename, hname⟩ := exists_decidesByName h
    simp only [hex, append_nil, ne_eq, not_true_eq_false, false_or]
    by_cases hbase : base.matchesUnder first (first :: args) = []
    · have hno : ∀ rule, ¬ ExactRule base (first :: args) rule := by
        intro rule hrule
        exact exists_exactRule_iff.mp ⟨rule, hrule⟩ hbase
      rw [if_pos hbase, hname.reached_iff]
      constructor
      · intro hreach
        exact Or.inr ⟨hno, hreach⟩
      · rintro (⟨rule, hrule, _⟩ | ⟨_, hreach⟩)
        · exact absurd hrule (hno rule)
        · exact hreach
    · rw [if_neg hbase, hname.exact_iff]
      constructor
      · intro hex
        exact Or.inl hex
      · rintro (hex | ⟨hno, _⟩)
        · exact hex
        · obtain ⟨rule, hrule⟩ := exists_exactRule_iff.mpr hbase
          exact absurd hrule (hno rule)
  · -- An exact requirement stands among the exact matches of the merged policy.
    rw [if_neg hex] at h
    obtain ⟨⟨m, hm, hmd⟩, _⟩ := maxDecision_eq_some.mp h
    have hne : base.matchesUnder first (first :: args) ++ requirements.matchesUnder first (first :: args) ≠ [] := by
      simp [hex]
    rw [if_neg hne]
    exact iff_of_true ⟨m, mem_append_right _ hm, hmd.ge⟩ (Or.inl hex)

/-! ## Runs -/

def gitPath : List Text := ["/usr/bin/git", "push"]

/-- The requirements forbid the program by its name. -/
def gitForbidden : Policy := empty.insertRule "git" ⟨⟨"git", []⟩, .forbidden, none⟩

def gitPathAllowed : Policy :=
  empty.insertRule "/usr/bin/git" ⟨⟨"/usr/bin/git", []⟩, .allow, none⟩

def gitPathPrompts : Policy :=
  empty.insertRule "git" ⟨⟨"git", []⟩, .prompt, none⟩

theorem requirement_reaches_path :
    ∃ d', maxDecision ((gitPathPrompts.mergeOverlay gitForbidden).matchesForCommandWithOptions {} gitPath none ⟨true⟩)
      = some d' ∧ Decision.forbidden ≤ d' := by
  rw [requirements_hold_iff {} gitPathPrompts gitForbidden gitPath (by decide) .forbidden (by decide +kernel)]
  have hnone : gitPathPrompts.rulesByProgram "/usr/bin/git" = [] := by decide +kernel
  refine Or.inr (Or.inr ⟨?_, fun _ _ _ _ _ => Or.inr rfl⟩)
  rintro rule ⟨_, ⟨⟩, hmem, _⟩
  rw [hnone] at hmem
  cases hmem

/-- A rule of the user that allows the path takes the place of the requirement. -/
theorem path_rule_weakens_requirement :
    maxDecision (gitForbidden.matchesForCommandWithOptions {} gitPath none ⟨true⟩) = some .forbidden ∧
      maxDecision ((gitPathAllowed.mergeOverlay gitForbidden).matchesForCommandWithOptions {} gitPath none ⟨true⟩)
        = some .allow := by
  decide +kernel

end CodexStudy.ExecPolicy
