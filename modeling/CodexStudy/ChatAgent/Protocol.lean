import CodexStudy.Lib.Text

/-!
# The chat agent's actions and states

The planner answers with one action at a time. Identifiers and times of steps are left out, and details and artifacts
of an observation are kept as texts.
-/

namespace CodexStudy.ChatAgent

open CodexStudy.Lib

/-! ## Actions -/

inductive Action where
  | readFile (path : Text) (lineStart lineEnd : Option Nat)
  | searchCode (pattern : Text) (pathFilter : Option Text)
  | editFile (path oldStr newStr : Text)
  | runCommand (command : Text) (cwd : Option Text) (timeoutSecs : Option Nat)
  | askUser (question : Text) (options : Option (List Text))
  | finalize (summary : Text) (nextSteps : Option (List Text))
  deriving DecidableEq

def byteLen (s : Text) : Nat := (s.map Char.utf8Size).sum

def natText (n : Nat) : Text := Nat.toDigits 10 n

namespace Action

def typeName : Action → Text
  | .readFile .. => "read_file"
  | .searchCode .. => "search_code"
  | .editFile .. => "edit_file"
  | .runCommand .. => "run_command"
  | .askUser .. => "ask_user"
  | .finalize .. => "finalize"

def fingerprint : Action → Text
  | .readFile path _ _ => "read_file:" ++ path
  | .searchCode pattern pathFilter => "search_code:" ++ pattern ++ [':'] ++ pathFilter.getD []
  | .editFile path oldStr _ => "edit_file:" ++ path ++ [':'] ++ natText (byteLen oldStr)
  | .runCommand command cwd _ => "run_command:" ++ command ++ [':'] ++ cwd.getD []
  | .askUser question _ => "ask_user:" ++ question
  | .finalize summary _ => "finalize:" ++ natText (byteLen summary)

def isMutating : Action → Bool
  | .editFile .. | .runCommand .. => true
  | _ => false

end Action

def shouldStopAfterAction : Action → Bool
  | .finalize .. => true
  | _ => false

def shouldPauseForUser : Action → Bool
  | .askUser .. => true
  | _ => false

structure PlannerTurn where
  thought : Text
  action : Action
  deriving DecidableEq

structure Observation where
  actionType : Text
  ok : Bool
  summary : Text
  details : Option Text := none
  artifacts : List Text := []
  deriving DecidableEq

def Observation.failure (actionType summary : Text) : Observation :=
  { actionType := actionType, ok := false, summary := summary }

/-! ## Runs -/

structure StepRecord where
  thought : Text
  action : Action
  observation : Observation
  deriving DecidableEq

structure PendingTurn where
  thought : Text
  action : Action
  deriving DecidableEq

structure ToolApprovalRequest where
  toolName : Text
  summary : Text
  deriving DecidableEq

inductive RunStatus where
  | pending
  | preparing
  | planning
  | executing
  | observing
  | awaitingUser
  | awaitingToolApproval
  | finalizing
  | completed
  | failed
  | cancelled
  deriving DecidableEq

structure RunState where
  runId : Text
  workspaceId : Text
  status : RunStatus := .pending
  currentStep : Nat := 0
  steps : List StepRecord := []
  error : Option Text := none
  awaitingUserQuestion : Option Text := none
  pendingTurn : Option PendingTurn := none
  awaitingToolApproval : Option ToolApprovalRequest := none
  deriving DecidableEq

def RunState.pushStep (state : RunState) (step : StepRecord) : RunState :=
  { state with currentStep := state.steps.length + 1, steps := state.steps ++ [step] }

structure FinalResult where
  status : RunStatus
  summary : Text
  nextSteps : Option (List Text) := none
  error : Option Text := none
  deriving DecidableEq

inductive ChatAgentError where
  | parse (message : Text)
  | tool (message : Text)
  | runtime (message : Text)
  | modelApi (message : Text)
  | guardrail (message : Text)
  | cancelled
  | awaitingUser
  | awaitingToolApproval
  deriving DecidableEq

/-! ## Sessions and approval -/

inductive ToolApprovalPolicy where
  | onRequest
  | auto
  | readOnly
  deriving DecidableEq

structure SessionContext where
  runId : Text
  workspaceId : Text
  workspaceRoot : Text
  threadId : Option Text
  model : Text
  taskPrompt : Text
  securityMode : Bool
  toolApprovalPolicy : ToolApprovalPolicy

inductive ToolApprovalDecision where
  | execute
  | promptUser
  | denyReadOnly

def requiresUserApproval (action : Action) : Bool := action.isMutating

def evaluateToolApproval (action : Action) : ToolApprovalPolicy → ToolApprovalDecision
  | .auto => .execute
  | .readOnly => if action.isMutating then .denyReadOnly else .execute
  | .onRequest => if requiresUserApproval action then .promptUser else .execute

def toolApprovalSummary : Action → Text
  | .editFile path _ _ => "Edit file `" ++ path ++ ['`']
  | .runCommand command _ _ => "Run command `" ++ command ++ ['`']
  | .readFile path _ _ => "Read file `" ++ path ++ ['`']
  | .searchCode pattern _ => "Search code for `" ++ pattern ++ ['`']
  | .askUser question _ => question
  | .finalize summary _ => summary

/-- A message of the conversation with the planner's model. -/
structure ChatMessage where
  role : Text
  content : Text
  deriving DecidableEq

def ChatMessage.user (content : Text) : ChatMessage := { role := "user", content := content }

def ChatMessage.assistant (content : Text) : ChatMessage := { role := "assistant", content := content }

end CodexStudy.ChatAgent
