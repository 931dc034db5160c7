import CodexStudy.ChatAgent.Protocol
import CodexStudy.Lib.Effect

/-!
# The run loop and the runtime

A run plans a turn, lets the guardrails check it, asks for approval where the session wants it, executes the action
and records the step.
-/

namespace CodexStudy.ChatAgent

open CodexStudy.Lib Eff

/-! ## Guardrails -/

structure GuardrailsConfig where
  maxTurns : Nat := 20
  maxIdenticalActions : Nat := 3
  maxConsecutiveFailures : Nat := 2
  maxEditsPerFile : Nat := 5

inductive GuardrailAction where
  | continue
  | forceAskUser (reason : Text)
  | forceFinalize (reason : Text)
  deriving DecidableEq

structure Guardrails where
  config : GuardrailsConfig
  turnCount : Nat := 0
  lastFingerprint : Option Text := none
  identicalCount : Nat := 0
  consecutiveFailures : Nat := 0
  fileEditCounts : Text → Option Nat := fun _ => none

namespace Guardrails

def new (config : GuardrailsConfig) : Guardrails := { config := config }

def recordTurn (g : Guardrails) (action : Action) (observationOk : Bool) : Guardrails :=
  let g := { g with turnCount := g.turnCount + 1 }
  let fingerprint := action.fingerprint
  let g :=
    if g.lastFingerprint = some fingerprint then { g with identicalCount := g.identicalCount + 1 }
    else { g with identicalCount := 1, lastFingerprint := some fingerprint }
  let g :=
    if observationOk then { g with consecutiveFailures := 0 }
    else { g with consecutiveFailures := g.consecutiveFailures + 1 }
  match action with
  | .editFile path _ _ =>
      { g with
        fileEditCounts := fun p => if p = path then some ((g.fileEditCounts path).getD 0 + 1) else g.fileEditCounts p }
  | _ => g

def check (g : Guardrails) (action : Action) : GuardrailAction :=
  if g.turnCount ≥ g.config.maxTurns then
    .forceFinalize ("Reached max turns (" ++ natText g.config.maxTurns ++ [')'])
  else if g.identicalCount ≥ g.config.maxIdenticalActions then
    .forceAskUser "Repeated identical action"
  else if g.consecutiveFailures ≥ g.config.maxConsecutiveFailures then
    .forceAskUser "Too many consecutive failures; consider a different approach"
  else
    match action with
    | .editFile path _ _ =>
        if (g.fileEditCounts path).any (· ≥ g.config.maxEditsPerFile) then
          .forceAskUser ("Too many edits on " ++ path)
        else .continue
    | _ => .continue

end Guardrails

/-! ## The outside -/

inductive PlannerError where
  | parse (message : Text)
  | modelApi (message : Text)

/-- The planner's model, the executor and the flag that cancels a run; each may change the world `W`. -/
structure Env (W : Type) where
  plan : (model workspaceRoot taskPrompt : Text) → List ChatMessage → (lastParseError : Option Text) → W →
    Except PlannerError PlannerTurn × W
  execute : Action → W → Except ChatAgentError Observation × W
  readCancelled : W → Bool × W
  turnJson : (thought : Text) → Action → Text
  observationJson : Observation → Text

/-- The planner answers with the next turn of a script, every action succeeds, and nothing is cancelled. -/
def scripted : Env (List PlannerTurn) where
  plan _ _ _ _ _ script :=
    match script with
    | [] => (.error (.modelApi "The script has ended"), [])
    | turn :: script => (.ok turn, script)
  execute action script := (.ok { actionType := action.typeName, ok := true, summary := "Done" }, script)
  readCancelled script := (false, script)
  turnJson thought action := thought ++ action.fingerprint
  observationJson observation := observation.summary

/-- The three places at which the loop calls the executor. -/
inductive ExecutionSite where
  | turn
  | finish
  | approval
  deriving DecidableEq

inductive Event where
  | reported (state : RunState)
  | planning (steps : List StepRecord) (history : List ChatMessage)
  | planned (policy : ToolApprovalPolicy) (turn : PlannerTurn)
  | decided (decision : GuardrailAction)
  | executed (site : ExecutionSite) (action : Action)
  deriving DecidableEq

abbrev Sys (W : Type) : Type := Logged W Event

abbrev Agent (W : Type) : Type → Type := Eff ChatAgentError (Sys W)

variable {W : Type} (env : Env W) (config : GuardrailsConfig) (session : SessionContext) (cancelled : Bool)
  (state : RunState)

def write (event : Event) : Agent W Unit := modify fun s => { s with log := s.log ++ [event] }

def report : Agent W Unit := write (.reported state)

def isCancelled : Agent W Bool :=
  if cancelled then fun s => (.ok (env.readCancelled s.world).1, { s with world := (env.readCancelled s.world).2 })
  else pure false

def executorExecute (site : ExecutionSite) (action : Action) : Agent W Observation := fun s =>
  ((env.execute action s.world).1,
    { world := (env.execute action s.world).2, log := s.log ++ [.executed site action] })

variable (request : RunRequest) (steps : List StepRecord)

def planNextAction (history : List ChatMessage)
    (lastParseError : Option Text) : Agent W (Except PlannerError PlannerTurn) := fun s =>
  let result := env.plan session.model session.workspaceRoot session.taskPrompt history lastParseError s.world
  let planned := match result.1 with
    | .ok turn => [Event.planned session.toolApprovalPolicy turn]
    | .error _ => []
  (.ok result.1, { world := result.2, log := s.log ++ .planning steps history :: planned })

/-! ## A turn -/

structure LoopState where
  state : RunState
  guardrails : Guardrails
  history : List ChatMessage

structure RunLoopOutcome where
  state : RunState
  result : FinalResult
  deriving DecidableEq

def stepMessages (step : StepRecord) : List ChatMessage :=
  [.assistant (env.turnJson step.thought step.action), .user (env.observationJson step.observation)]

variable (ls : LoopState) (thought : Text) (action : Action)

def commitTurn (observation : Observation) :
    Agent W LoopState := do
  let guardrails := ls.guardrails.recordTurn action observation.ok
  let step := { thought := thought, action := action, observation := observation }
  let state := ls.state.pushStep step
  report state
  return { state := state, guardrails := guardrails, history := ls.history ++ stepMessages env step }

def readOnlyDenialObservation : Observation :=
  .failure action.typeName
    "Read-only mode blocked this tool. Switch access to On-Request or Full access to allow edits and commands."

def userDenialObservation : Observation :=
  .failure action.typeName "Tool execution denied by user."

def stopIfCancelled : Agent W Unit := do
  if ← isCancelled env cancelled then
    report { state with status := .cancelled }
    fail .cancelled

inductive ToolApprovalGate where
  | execute
  | paused
  | deniedReadOnly

def gateToolApproval :
    Agent W (ToolApprovalGate × RunState) :=
  match evaluateToolApproval action session.toolApprovalPolicy with
  | .execute => return (.execute, state)
  | .denyReadOnly => return (.deniedReadOnly, state)
  | .promptUser => do
      let state :=
        { state with
          pendingTurn := some { thought := thought, action := action }
          awaitingToolApproval := some { toolName := action.typeName, summary := toolApprovalSummary action }
          status := .awaitingToolApproval }
      report state
      return (.paused, state)

def finishWithAction : Agent W RunLoopOutcome := do
  let (gate, state) ← gateToolApproval session ls.state thought action
  match gate with
  | .paused => fail .awaitingToolApproval
  | .deniedReadOnly =>
      let ls ← commitTurn env { ls with state := state } thought action (readOnlyDenialObservation action)
      let state := { ls.state with status := .completed }
      report state
      return {
        state := state
        result := { status := .completed, summary := "Read-only mode blocked the requested action." } }
  | .execute =>
      let state := { state with status := .executing }
      report state
      let observation ← executorExecute env .finish action
      stopIfCancelled env cancelled state
      let ls := { ls with state := state, guardrails := ls.guardrails.recordTurn action observation.ok }
      let ls ← commitTurn env ls thought action observation
      if shouldPauseForUser action then
        let state := match action with
          | .askUser question _ => { ls.state with awaitingUserQuestion := some question }
          | _ => ls.state
        report { state with status := .awaitingUser }
        fail .awaitingUser
      else
        let state := { ls.state with status := .completed }
        report state
        let result : FinalResult := match action with
          | .finalize summary nextSteps => { status := .completed, summary := summary, nextSteps := nextSteps }
          | _ => { status := .completed, summary := observation.summary }
        return { state := state, result := result }

inductive Pass where
  | again (ls : LoopState)
  | done (outcome : RunLoopOutcome)

def takeTurn (turn : PlannerTurn) :
    Agent W Pass := do
  let decision := ls.guardrails.check turn.action
  write (.decided decision)
  match decision with
  | .forceAskUser reason =>
      return .done (← finishWithAction env session cancelled ls turn.thought (.askUser reason none))
  | .forceFinalize reason =>
      return .done (← finishWithAction env session cancelled ls turn.thought (.finalize reason none))
  | .continue =>
      if shouldPauseForUser turn.action || shouldStopAfterAction turn.action then
        return .done (← finishWithAction env session cancelled ls turn.thought turn.action)
      else
        let (gate, state) ← gateToolApproval session ls.state turn.thought turn.action
        match gate with
        | .paused => fail .awaitingToolApproval
        | .deniedReadOnly =>
            let ls ← commitTurn env { ls with state := state } turn.thought turn.action
              (readOnlyDenialObservation turn.action)
            let state := { ls.state with status := .planning }
            report state
            return .again { ls with state := state }
        | .execute =>
            let state := { state with status := .executing }
            report state
            let observation ← executorExecute env .turn turn.action
            stopIfCancelled env cancelled state
            let ls ← commitTurn env { ls with state := state } turn.thought turn.action observation
            let state := { ls.state with status := .planning }
            report state
            return .again { ls with state := state }

def loopPass : Agent W Pass := do
  stopIfCancelled env cancelled ls.state
  let state := { ls.state with status := .planning }
  report state
  match ← planNextAction env session state.steps ls.history none with
  | .ok turn => takeTurn env session cancelled { ls with state := state } turn
  | .error (.parse message) =>
      let state := { state with status := .awaitingUser, error := some "Failed to parse model response".toList }
      report state
      return .done {
        state := state
        result := { status := .failed, summary := "Planner parse failed", error := some message } }
  | .error (.modelApi message) => fail (.modelApi message)

def loop (env : Env W) (session : SessionContext) (cancelled : Bool) : Nat → LoopState → Agent W RunLoopOutcome
  | 0, _ => fail (.guardrail [])
  | passes + 1, ls => do
      match ← loopPass env session cancelled ls with
      | .again ls => loop env session cancelled passes ls
      | .done outcome => return outcome

def runWithState (history : List ChatMessage) : Agent W RunLoopOutcome := do
  let state := { state with status := .preparing, awaitingUserQuestion := none }
  report state
  loop env session cancelled (config.maxTurns + 1)
    { state := state, guardrails := .new config, history := history }

/-! ## The pending turn -/

def recordSteps : Guardrails :=
  steps.foldl (fun g step => g.recordTurn step.action step.observation.ok) (.new config)

def observePending (pending : PendingTurn) (approved : Bool) :
    Agent W (RunState × Observation) :=
  if approved then do
    let state := { state with status := .executing }
    report state
    let observation ← executorExecute env .approval pending.action
    return (state, observation)
  else return (state, userDenialObservation pending.action)

def resumePendingTool (history : List ChatMessage) (approved : Bool) : Agent W RunLoopOutcome :=
  match state.pendingTurn with
  | none => fail (.runtime "No pending tool approval")
  | some pending => do
      let state := { state with pendingTurn := none, awaitingToolApproval := none }
      stopIfCancelled env cancelled state
      let guardrails := recordSteps config state.steps
      let (state, observation) ← observePending env state pending approved
      stopIfCancelled env cancelled state
      let ls ← commitTurn env { state := state, guardrails := guardrails, history := history } pending.thought
        pending.action observation
      let state := { ls.state with status := .planning }
      report state
      runWithState env config session cancelled state ls.history

/-! ## The runtime -/

structure RunRequest where
  runId : Text
  workspaceId : Text
  workspaceRoot : Text
  model : Text
  prompt : Text
  threadId : Option Text
  securityMode : Bool
  toolApprovalPolicy : ToolApprovalPolicy

def buildSession : SessionContext where
  runId := request.runId
  workspaceId := request.workspaceId
  workspaceRoot := request.workspaceRoot
  threadId := request.threadId
  model := request.model
  taskPrompt := request.prompt
  securityMode := request.securityMode
  toolApprovalPolicy := request.toolApprovalPolicy

def sampleRequest (policy : ToolApprovalPolicy) : RunRequest where
  runId := "r"
  workspaceId := "w"
  workspaceRoot := "/w"
  model := "m"
  prompt := "Build it"
  threadId := none
  securityMode := false
  toolApprovalPolicy := policy

def sampleScript : List PlannerTurn :=
  [⟨"First", .runCommand "make" none none⟩, ⟨"Last", .finalize "Built" none⟩]

def buildHistoryFromState (previousState : RunState) (userResponse : Text) : List ChatMessage :=
  let history := previousState.steps.flatMap (stepMessages env)
  if (Text.trim userResponse).isEmpty then history else history ++ [.user (Text.trim userResponse)]

namespace ChatAgentRuntime

def run (cancelled : Bool) : Agent W RunLoopOutcome :=
  let session := buildSession request
  runWithState env config session cancelled { runId := session.runId, workspaceId := session.workspaceId } []

def confirmPendingTool (previousState : RunState) (approved cancelled : Bool) : Agent W RunLoopOutcome :=
  let session := buildSession request
  let history := buildHistoryFromState env previousState []
  let resumedState := { previousState with awaitingUserQuestion := none, error := none }
  resumePendingTool env config session cancelled resumedState history approved

def resume (previousState : RunState) (userResponse : Text) (cancelled : Bool) : Agent W RunLoopOutcome :=
  let session := buildSession request
  let history := buildHistoryFromState env previousState userResponse
  let resumedState := { previousState with awaitingUserQuestion := none, error := none }
  runWithState env config session cancelled resumedState history

end ChatAgentRuntime

/-! ## What is seen from outside -/

def Event.state? : Event → Option RunState
  | .reported state => some state
  | _ => none

def Event.decision? : Event → Option GuardrailAction
  | .decided decision => some decision
  | _ => none

def lastReported (log : List Event) : Option RunState := (log.filterMap Event.state?).getLast?

def decisions (log : List Event) : List GuardrailAction := log.filterMap Event.decision?

theorem lastReported_append (log log' : List Event) :
    lastReported (log ++ log') = (lastReported log').or (lastReported log) := by
  rw [lastReported, List.filterMap_append, List.getLast?_append]
  rfl

theorem mem_of_lastReported {log : List Event} {state : RunState} (h : state ∈ lastReported log) :
    .reported state ∈ log := by
  obtain ⟨e, he, hstt⟩ := List.mem_filterMap.mp (List.mem_of_getLast? h)
  cases e <;> simp_all [Event.state?]

abbrev Outcome (W : Type) : Type := Except ChatAgentError RunLoopOutcome × Sys W

def waitingState (outcome : Outcome W) : Option RunState :=
  match outcome.1 with
  | .error .awaitingToolApproval => (lastReported outcome.2.log).filter fun state => state.pendingTurn.isSome
  | _ => none

/-! ## Answering the pauses -/

def approvePauses (env : Env W) (config : GuardrailsConfig) (request : RunRequest) (cancelled : Bool) :
    Nat → Outcome W → Outcome W
  | 0, outcome => outcome
  | n + 1, outcome =>
      match waitingState outcome with
      | none => outcome
      | some state =>
          approvePauses env config request cancelled n
            (ChatAgentRuntime.confirmPendingTool env config request state true cancelled outcome.2)

def RunRequest.withPolicy (policy : ToolApprovalPolicy) : RunRequest :=
  { request with toolApprovalPolicy := policy }

def autoRun (cancelled : Bool) (w : W) : Outcome W :=
  ChatAgentRuntime.run env config (request.withPolicy .auto) cancelled { world := w }

def approvedRun (cancelled : Bool) (w : W) (n : Nat) : Outcome W :=
  approvePauses env config (request.withPolicy .onRequest) cancelled n
    (ChatAgentRuntime.run env config (request.withPolicy .onRequest) cancelled { world := w })

/-- There is no flag that cancels the run, or nobody sets it. -/
def NotCancelled : Prop :=
  cancelled = true → ∀ w, env.readCancelled w = (false, w)

/-- With its pauses approved the run ends, after the decisions of the run without pauses and with no more steps than
these allow. -/
def SameGuarding (cancelled : Bool) (w : W) : Prop :=
  ∃ n, waitingState (approvedRun env config request cancelled w n) = none ∧
    decisions (approvedRun env config request cancelled w n).2.log =
      decisions (autoRun env config request cancelled w).2.log ∧
    ∀ state, .reported state ∈ (approvedRun env config request cancelled w n).2.log →
      state.steps.length ≤ config.maxTurns + 1

/-! ## What planner and executor produce -/

def endsLoop : Bool := shouldPauseForUser action || shouldStopAfterAction action

def answer (w : W) :
    Except PlannerError PlannerTurn × W :=
  env.plan request.model request.workspaceRoot request.prompt (steps.flatMap (stepMessages env)) none w

/-- From `w`, planner and executor can come to these steps and world, each turn let pass by guardrails with all steps
before it. -/
inductive Produces (env : Env W) (config : GuardrailsConfig) (request : RunRequest) (w : W) :
    List StepRecord → W → Prop where
  | start : Produces env config request w [] w
  | step {steps : List StepRecord} {turn : PlannerTurn} {observation : Observation} {w₁ w₂ w₃ : W} :
      Produces env config request w steps w₁ → answer env request steps w₁ = (.ok turn, w₂) →
      (recordSteps config steps).check turn.action = .continue → endsLoop turn.action = false →
      env.execute turn.action w₂ = (.ok observation, w₃) →
      Produces env config request w
        (steps ++ [{ thought := turn.thought, action := turn.action, observation := observation }]) w₃

/-- The steps after the last edit or command. -/
def sinceApproval : List StepRecord :=
  steps.rtakeWhile fun step => !step.action.isMutating

/-- Guardrails with only the steps since the last edit or command decide each next turn like those with all. -/
def RecentStepsDecide (w : W) : Prop :=
  ∀ steps w₁ turn w₂, Produces env config request w steps w₁ → answer env request steps w₁ = (.ok turn, w₂) →
    (recordSteps config (sinceApproval steps)).check turn.action = (recordSteps config steps).check turn.action

end CodexStudy.ChatAgent
