import CodexStudy.ExecPolicy.Policy
import CodexStudy.Sandbox.Permissions

/-!
# Approval requirements

A command is split into segments.
-/

namespace CodexStudy.ExecPolicy

open CodexStudy.Lib
open CodexStudy.ApplyPatch (ProcessEnv)
open CodexStudy.Sandbox (FileSystemSandboxPolicy)

def PROMPT_CONFLICT_REASON : Text := "approval required by policy, but AskForApproval is set to Never"

def REJECT_SANDBOX_APPROVAL_REASON : Text :=
  "approval required by policy, but AskForApproval::Granular.sandbox_approval is false"

def REJECT_RULES_APPROVAL_REASON : Text :=
  "approval required by policy rule, but AskForApproval::Granular.rules is false"

def BANNED_PREFIX_SUGGESTIONS : List (List Text) :=
  [["python3"], ["python3", "-"], ["python3", "-c"], ["python"], ["python", "-"], ["python", "-c"], ["py"],
    ["py", "-3"], ["pythonw"], ["pyw"], ["pypy"], ["pypy3"], ["git"], ["bash"], ["bash", "-lc"], ["sh"],
    ["sh", "-c"], ["sh", "-lc"], ["zsh"], ["zsh", "-lc"], ["/bin/zsh"], ["/bin/zsh", "-lc"], ["/bin/bash"],
    ["/bin/bash", "-lc"], ["pwsh"], ["pwsh", "-Command"], ["pwsh", "-c"], ["powershell"],
    ["powershell", "-Command"], ["powershell", "-c"], ["powershell.exe"], ["powershell.exe", "-Command"],
    ["powershell.exe", "-c"], ["env"], ["sudo"], ["node"], ["node", "-e"], ["perl"], ["perl", "-e"], ["ruby"],
    ["ruby", "-e"], ["php"], ["php", "-r"], ["lua"], ["lua", "-e"], ["osascript"]].map (List.map String.toList)

structure GranularApprovalConfig where
  sandboxApproval : Bool
  rules : Bool
  deriving DecidableEq

inductive AskForApproval where
  | unlessTrusted
  | onFailure
  | onRequest
  | granular (config : GranularApprovalConfig)
  | never
  deriving DecidableEq

/-- What a profile allows is in its sandbox policy; here it matters who owns the sandbox. -/
inductive PermissionProfile where
  | managed
  | disabled
  | external

inductive SandboxPermissions where
  | useDefault
  | requireEscalated
  | withAdditionalPermissions
  deriving DecidableEq

def SandboxPermissions.requestsSandboxOverride (permissions : SandboxPermissions) : Bool :=
  permissions != .useDefault

structure ShellTools where
  parseShellLcPlainCommands : List Text → Option (List (List Text))
  parseShellLcSingleCommandPrefix : List Text → Option (List Text)
  isKnownSafeCommand : List Text → Bool
  commandMightBeDangerous : List Text → Bool
  shlexTryJoin : List Text → Option Text

structure ExecPolicyCommands where
  commands : List (List Text)
  usedComplexParsing : Bool

variable (env : ProcessEnv) (tools : ShellTools) (execPolicy : Policy) (req : ExecApprovalRequest)

variable (context : UnmatchedCommandContext) (command : List Text)

/-- The segments of a command. Of a script with a here-document only the first words of its one command
are read. -/
def commandsForExecPolicy : ExecPolicyCommands :=
  match (tools.parseShellLcPlainCommands command).filter fun commands => !commands.isEmpty with
  | some commands => ⟨commands, false⟩
  | none =>
      match tools.parseShellLcSingleCommandPrefix command with
      | some singleCommand => ⟨[singleCommand], true⟩
      | none => ⟨[command], false⟩

structure UnmatchedCommandContext where
  approvalPolicy : AskForApproval
  permissionProfile : PermissionProfile
  fileSystemSandboxPolicy : FileSystemSandboxPolicy
  sandboxPermissions : SandboxPermissions
  usedComplexParsing : Bool

def decideOverride : Decision :=
  match context.fileSystemSandboxPolicy.kind with
  | .unrestricted | .externalSandbox => .allow
  | .restricted => if context.sandboxPermissions.requestsSandboxOverride then .prompt else .allow

def decideDangerous : Decision :=
  match context.approvalPolicy with
  | .never =>
      match context.permissionProfile with
      | .disabled | .external => .allow
      | .managed => .forbidden
  | .onFailure | .onRequest | .unlessTrusted | .granular _ => .prompt

def decideOrdinary : Decision :=
  match context.approvalPolicy with
  | .never | .onFailure => .allow
  | .unlessTrusted => .prompt
  | .onRequest | .granular _ => decideOverride context

def renderDecisionForUnmatchedCommand : Decision :=
  if tools.isKnownSafeCommand command && !context.usedComplexParsing &&
      context.approvalPolicy == .unlessTrusted then .allow
  else if tools.commandMightBeDangerous command then decideDangerous context
  else decideOrdinary context

/-! ## Reasons -/

def promptIsRejectedByPolicy (approvalPolicy : AskForApproval) (promptIsRule : Bool) : Option Text :=
  match approvalPolicy with
  | .never => some PROMPT_CONFLICT_REASON
  | .onFailure | .onRequest | .unlessTrusted => none
  | .granular config =>
      if promptIsRule then
        if !config.rules then some REJECT_RULES_APPROVAL_REASON else none
      else if !config.sandboxApproval then some REJECT_SANDBOX_APPROVAL_REASON
      else none

def renderShlexCommand (args : List Text) : Text :=
  (tools.shlexTryJoin args).getD (Text.join [' '] args)

variable (decision : Decision) (matchedRules : List RuleMatch)

def justifications : List (List Text × Option Text) :=
  matchedRules.filterMap fun
    | .prefixRuleMatch matchedPrefix d _ justification =>
        if d = decision then some (matchedPrefix, justification) else none
    | .heuristicsRuleMatch _ _ => none

def mostSpecificJustification :
    Option (List Text × Option Text) :=
  lastArgmax (fun entry => entry.1.length) (justifications decision matchedRules)

def derivePromptReason (commandArgs : List Text) (evaluation : Evaluation) : Option Text :=
  let command := renderShlexCommand tools commandArgs
  match mostSpecificJustification .prompt evaluation.matchedRules with
  | some (_, some justification) =>
      some ("`" ++ command ++ "` requires approval: " ++ justification)
  | some (_, none) => some ("`" ++ command ++ "` requires approval by policy")
  | none => none

def deriveForbiddenReason (commandArgs : List Text) (evaluation : Evaluation) : Text :=
  let command := renderShlexCommand tools commandArgs
  match mostSpecificJustification .forbidden evaluation.matchedRules with
  | some (_, some justification) => "`" ++ command ++ "` rejected: " ++ justification
  | some (matchedPrefix, none) =>
      "`" ++ command ++ "` rejected: policy forbids commands starting with `" ++
        renderShlexCommand tools matchedPrefix ++ "`"
  | none => "`" ++ command ++ "` rejected: blocked by policy"

/-! ## Proposed amendments -/

def isPolicyMatch : RuleMatch → Bool
  | .prefixRuleMatch .. => true
  | .heuristicsRuleMatch .. => false

def firstUnmatched : Option (List Text) :=
  matchedRules.findSome? fun
    | .heuristicsRuleMatch command d => if d = decision then some command else none
    | .prefixRuleMatch .. => none

def tryDeriveExecpolicyAmendmentForPromptRules : Option (List Text) :=
  if matchedRules.any fun m => isPolicyMatch m && m.decision == .prompt then none
  else firstUnmatched .prompt matchedRules

/-- Nothing is proposed where a rule matches: the command already runs outside the sandbox. -/
def tryDeriveExecpolicyAmendmentForAllowRules : Option (List Text) :=
  if matchedRules.any isPolicyMatch then none
  else firstUnmatched .allow matchedRules

def resolving : MatchOptions := ⟨true⟩

def prefixRuleWouldApproveAllCommands (prefixRule : List Text)
    (commands : List (List Text)) (fallback : List Text → Decision) : Bool :=
  match execPolicy.addPrefixRule prefixRule .allow with
  | .error _ => false
  | .ok policyWithPrefixRule => commands.all fun command =>
      (policyWithPrefixRule.checkWithOptions env command fallback resolving).map Evaluation.decision == some .allow

def deriveRequestedExecpolicyAmendmentFromPrefixRule (prefixRule : Option (List Text))
    (matchedRules : List RuleMatch) (execPolicy : Policy) (commands : List (List Text))
    (fallback : List Text → Decision) : Option (List Text) :=
  match prefixRule with
  | none => none
  | some prefixRule =>
      if prefixRule = [] then none
      else if BANNED_PREFIX_SUGGESTIONS.contains prefixRule then none
      else if matchedRules.any isPolicyMatch then none
      else if prefixRuleWouldApproveAllCommands env execPolicy prefixRule commands fallback then some prefixRule
      else none

/-! ## The requirement -/

inductive ExecApprovalRequirement where
  | skip (bypassSandbox : Bool) (proposedExecpolicyAmendment : Option (List Text))
  | needsApproval (reason : Option Text) (proposedExecpolicyAmendment : Option (List Text))
  | forbidden (reason : Text)
  deriving DecidableEq

namespace ExecApprovalRequirement

def proposedExecpolicyAmendment : ExecApprovalRequirement → Option (List Text)
  | needsApproval _ amendment => amendment
  | skip _ amendment => amendment
  | forbidden _ => none

def isSkip : ExecApprovalRequirement → Bool
  | skip .. => true
  | _ => false

def isForbidden : ExecApprovalRequirement → Bool
  | forbidden _ => true
  | _ => false

end ExecApprovalRequirement

structure ExecApprovalRequest where
  command : List Text
  approvalPolicy : AskForApproval
  permissionProfile : PermissionProfile
  fileSystemSandboxPolicy : FileSystemSandboxPolicy
  sandboxPermissions : SandboxPermissions
  prefixRule : Option (List Text)

namespace ExecApprovalRequest

/-- How the segments of the request are decided where no rule matches them. -/
def fallback : List Text → Decision :=
  renderDecisionForUnmatchedCommand tools
    ⟨req.approvalPolicy, req.permissionProfile, req.fileSystemSandboxPolicy, req.sandboxPermissions,
      (commandsForExecPolicy tools req.command).usedComplexParsing⟩

def evaluation :
    Option Evaluation :=
  execPolicy.checkMultipleWithOptions env (commandsForExecPolicy tools req.command).commands (req.fallback tools)
    resolving

def requestedAmendment : Option (List Text) :=
  if (commandsForExecPolicy tools req.command).usedComplexParsing then none
  else deriveRequestedExecpolicyAmendmentFromPrefixRule env req.prefixRule matchedRules execPolicy
    (commandsForExecPolicy tools req.command).commands (req.fallback tools)

def autoAmendment (derive : List RuleMatch → Option (List Text)) (matchedRules : List RuleMatch) : Option (List Text) :=
  if (commandsForExecPolicy tools req.command).usedComplexParsing then none else derive matchedRules

end ExecApprovalRequest

def allowedByRule : Bool :=
  (execPolicy.matchesForCommandWithOptions env command none resolving).any fun m =>
    isPolicyMatch m && m.decision == .allow

def requirementFor (evaluation : Evaluation) : ExecApprovalRequirement :=
  match evaluation.decision with
  | .forbidden => .forbidden (deriveForbiddenReason tools req.command evaluation)
  | .prompt =>
      match promptIsRejectedByPolicy req.approvalPolicy
          (evaluation.matchedRules.any fun m => isPolicyMatch m && m.decision == .prompt) with
      | some reason => .forbidden reason
      | none =>
          .needsApproval (derivePromptReason tools req.command evaluation)
            ((req.requestedAmendment env tools execPolicy evaluation.matchedRules).or
              (req.autoAmendment tools tryDeriveExecpolicyAmendmentForPromptRules evaluation.matchedRules))
  | .allow =>
      .skip ((commandsForExecPolicy tools req.command).commands.all (allowedByRule env execPolicy))
        (req.autoAmendment tools tryDeriveExecpolicyAmendmentForAllowRules evaluation.matchedRules)

def createExecApprovalRequirementForCommand : Option ExecApprovalRequirement :=
  (req.evaluation env tools execPolicy).map (requirementFor env tools execPolicy req)

end CodexStudy.ExecPolicy
