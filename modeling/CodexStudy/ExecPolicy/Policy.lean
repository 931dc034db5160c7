import Mathlib.Order.Nat
import Mathlib.Logic.Function.Basic
import CodexStudy.Sandbox.Paths
import Mathlib.Order.Lattice

/-!
# Exec policies

A policy files prefix rules under the first word of the commands they are about.
-/

namespace CodexStudy.ExecPolicy

open CodexStudy.Lib
open CodexStudy.ApplyPatch (AbsolutePath ProcessEnv)

inductive Decision where
  | allow
  | prompt
  | forbidden
  deriving DecidableEq

def Decision.rank : Decision → Nat
  | allow => 0
  | prompt => 1
  | forbidden => 2

theorem Decision.rank_injective : Function.Injective Decision.rank := by
  intro d e h
  cases d <;> cases e <;> first | rfl | exact absurd h (by decide)

/-- The decisions from the least to the most restrictive. -/
instance : LinearOrder Decision := LinearOrder.lift' Decision.rank Decision.rank_injective

@[simp] theorem Decision.le_forbidden (d : Decision) : d ≤ .forbidden := by cases d <;> decide

inductive PatternToken where
  | single (expected : Text)
  | alts (alternatives : List Text)

def PatternToken.«matches» : PatternToken → Text → Bool
  | single expected, token => expected == token
  | alts alternatives, token => alternatives.contains token

structure PrefixPattern where
  first : Text
  rest : List PatternToken

def PrefixPattern.matchesPrefix (pattern : PrefixPattern) (cmd : List Text) : Option (List Text) :=
  let patternLength := pattern.rest.length + 1
  if cmd.length < patternLength ∨ cmd.head? ≠ some pattern.first then none
  else if (pattern.rest.zip (cmd.tail.take pattern.rest.length)).all fun (t, w) => t.matches w then
    some (cmd.take patternLength)
  else none

inductive RuleMatch where
  | prefixRuleMatch (matchedPrefix : List Text) (decision : Decision) (resolvedProgram : Option AbsolutePath)
      (justification : Option Text)
  | heuristicsRuleMatch (command : List Text) (decision : Decision)

namespace RuleMatch

def decision : RuleMatch → Decision
  | prefixRuleMatch _ decision _ _ => decision
  | heuristicsRuleMatch _ decision => decision

def withResolvedProgram (program : AbsolutePath) : RuleMatch → RuleMatch
  | prefixRuleMatch matchedPrefix decision _ justification =>
      prefixRuleMatch matchedPrefix decision (some program) justification
  | heuristicsRuleMatch command decision => heuristicsRuleMatch command decision

@[simp] theorem decision_withResolvedProgram (program : AbsolutePath) (m : RuleMatch) :
    (m.withResolvedProgram program).decision = m.decision := by
  cases m <;> rfl

end RuleMatch

structure PrefixRule where
  pattern : PrefixPattern
  decision : Decision
  justification : Option Text := none

def PrefixRule.«matches» (rule : PrefixRule) (cmd : List Text) : Option RuleMatch :=
  (rule.pattern.matchesPrefix cmd).map fun matchedPrefix =>
    .prefixRuleMatch matchedPrefix rule.decision none rule.justification

inductive NetworkRuleProtocol where
  | http
  | https
  | socks5Tcp
  | socks5Udp
  deriving DecidableEq

structure NetworkRule where
  host : Text
  protocol : NetworkRuleProtocol
  decision : Decision
  justification : Option Text

/-- The rules by first word in the order they were added. Only a program with an entry has known paths. -/
structure Policy where
  rulesByProgram : Text → List PrefixRule
  networkRules : List NetworkRule
  hostExecutablesByName : Text → Option (List AbsolutePath)

variable (env : ProcessEnv) (policy : Policy) (cmd : List Text)

namespace Policy

def empty : Policy := ⟨fun _ => [], [], fun _ => none⟩

def insertRule (program : Text) (rule : PrefixRule) : Policy :=
  { policy with
    rulesByProgram := Function.update policy.rulesByProgram program (policy.rulesByProgram program ++ [rule]) }

def addPrefixRule (words : List Text) (decision : Decision) : Except Text Policy :=
  match words with
  | [] => .error "prefix cannot be empty"
  | first :: rest => .ok (policy.insertRule first ⟨⟨first, rest.map .single⟩, decision, none⟩)

def setHostExecutablePaths (name : Text) (paths : List AbsolutePath) : Policy :=
  { policy with
    hostExecutablesByName := Function.update policy.hostExecutablesByName name (some paths) }

def mergeOverlay (policy overlay : Policy) : Policy where
  rulesByProgram program := policy.rulesByProgram program ++ overlay.rulesByProgram program
  networkRules := policy.networkRules ++ overlay.networkRules
  hostExecutablesByName name := (overlay.hostExecutablesByName name).or (policy.hostExecutablesByName name)

end Policy

def executablePathLookupKey (path : AbsolutePath) : Option Text := path.fileName

structure MatchOptions where
  resolveHostExecutables : Bool := false

namespace Policy

def matchExactRules : Option (List RuleMatch) :=
  cmd.head?.map fun first => (policy.rulesByProgram first).filterMap fun rule => rule.matches cmd

def hostExecutableListed (basename : Text) (program : AbsolutePath) : Bool :=
  match policy.hostExecutablesByName basename with
  | some paths => paths.contains program
  | none => true

def matchHostExecutableRules : List RuleMatch :=
  match cmd with
  | [] => []
  | first :: args =>
      match AbsolutePath.fromAbsolutePath env first with
      | none => []
      | some program =>
          match executablePathLookupKey program with
          | none => []
          | some basename =>
              if policy.hostExecutableListed basename program then
                ((policy.rulesByProgram basename).filterMap fun rule => rule.matches (basename :: args)).map
                  (RuleMatch.withResolvedProgram program)
              else []

def matchedRules (options : MatchOptions) : List RuleMatch :=
  (((policy.matchExactRules cmd).filter fun ms => !ms.isEmpty).or
    (if options.resolveHostExecutables then
      some (policy.matchHostExecutableRules env cmd) else none)).getD []

def matchesForCommandWithOptions
    (heuristicsFallback : Option (List Text → Decision)) (options : MatchOptions) : List RuleMatch :=
  match policy.matchedRules env cmd options, heuristicsFallback with
  | [], some fallback => [.heuristicsRuleMatch cmd (fallback cmd)]
  | ms, _ => ms

end Policy

def maxDecision (ms : List RuleMatch) : Option Decision := (ms.map RuleMatch.decision).max?

structure Evaluation where
  decision : Decision
  matchedRules : List RuleMatch

def Evaluation.fromMatches (matchedRules : List RuleMatch) : Option Evaluation :=
  (maxDecision matchedRules).map fun decision => ⟨decision, matchedRules⟩

namespace Policy

def checkMultipleWithOptions (commands : List (List Text))
    (heuristicsFallback : List Text → Decision) (options : MatchOptions) : Option Evaluation :=
  Evaluation.fromMatches (commands.flatMap fun command =>
    policy.matchesForCommandWithOptions env command (some heuristicsFallback) options)

def checkWithOptions (heuristicsFallback : List Text → Decision) (options : MatchOptions) : Option Evaluation :=
  Evaluation.fromMatches (policy.matchesForCommandWithOptions env cmd (some heuristicsFallback) options)

end Policy

end CodexStudy.ExecPolicy
