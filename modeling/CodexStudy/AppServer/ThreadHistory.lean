import CodexStudy.Core.Rollout

/-!
# The turns of a thread (`app-server-protocol/src/protocol/thread_history.rs`)

The turns that a client shows are built from the rollout item by item. The reducer is modelled for rollouts of
messages: the items and events of tool calls, reasoning and reviews are not among its inputs here.
-/

namespace CodexStudy.AppServer

open CodexStudy.Lib
open CodexStudy.Core (ContentItem ResponseItem MessagePhase CompactedItem TurnContextItem)

/-! ## Events -/

structure TextElement where
  byteRange : Nat × Nat
  placeholder : Option Text

structure UserMessageEvent where
  message : Text
  images : Option (List Text) := none
  localImages : List Text := []
  textElements : List TextElement := []

structure AgentMessageEvent where
  message : Text
  phase : Option MessagePhase := none
  memoryCitation : Option Text := none

structure TurnStartedEvent where
  turnId : Text
  startedAt : Option Int := none

structure TurnCompleteEvent where
  turnId : Text
  completedAt : Option Int := none
  durationMs : Option Int := none

structure TurnAbortedEvent where
  turnId : Option Text
  completedAt : Option Int := none
  durationMs : Option Int := none

/-- `other` stands for the events that the reducer passes over. -/
inductive EventMsg where
  | userMessage (payload : UserMessageEvent)
  | agentMessage (payload : AgentMessageEvent)
  | contextCompacted
  | threadRolledBack (numTurns : UInt32)
  | turnAborted (payload : TurnAbortedEvent)
  | turnStarted (payload : TurnStartedEvent)
  | turnComplete (payload : TurnCompleteEvent)
  | other

inductive RolloutItem where
  | sessionMeta
  | responseItem (item : ResponseItem)
  | compacted (item : CompactedItem)
  | turnContext (item : TurnContextItem)
  | eventMsg (event : EventMsg)

/-- What the replay of the model history reads of an event. -/
def EventMsg.toCore : EventMsg → Core.EventMsg
  | .userMessage payload => .userMessage payload.message
  | .agentMessage _ | .contextCompacted | .other => .other
  | .threadRolledBack numTurns => .threadRolledBack numTurns
  | .turnAborted payload => .turnAborted payload.turnId
  | .turnStarted payload => .turnStarted payload.turnId
  | .turnComplete payload => .turnComplete payload.turnId

def RolloutItem.toCore : RolloutItem → Core.RolloutItem
  | .sessionMeta => .sessionMeta
  | .responseItem item => .responseItem item
  | .compacted item => .compacted item
  | .turnContext item => .turnContext item
  | .eventMsg event => .eventMsg event.toCore

/-! ## Turns -/

inductive UserInput where
  | text (text : Text) (textElements : List TextElement)
  | image (url : Text)
  | localImage (path : Text)

structure HookPromptFragment where
  text : Text
  hookRunId : Text

inductive ThreadItem where
  | userMessage (id : Text) (content : List UserInput)
  | hookPrompt (id : Option Text) (fragments : List HookPromptFragment)
  | agentMessage (id text : Text) (phase : Option MessagePhase) (memoryCitation : Option Text)
  | contextCompaction (id : Text)

inductive TurnStatus where
  | completed
  | interrupted
  | failed
  | inProgress
  deriving DecidableEq

structure Turn where
  id : Text
  items : List ThreadItem := []
  status : TurnStatus := .completed
  startedAt : Option Int := none
  completedAt : Option Int := none
  durationMs : Option Int := none

structure PendingTurn extends Turn where
  openedExplicitly : Bool := false
  sawCompaction : Bool := false

def Turn.markCompleted (payload : TurnCompleteEvent) (turn : Turn) : Turn :=
  { turn with
    status := if turn.status = .completed ∨ turn.status = .inProgress then .completed else turn.status
    completedAt := payload.completedAt
    durationMs := payload.durationMs }

def Turn.applyAbort (payload : TurnAbortedEvent) (turn : Turn) : Turn :=
  { turn with status := .interrupted, completedAt := payload.completedAt, durationMs := payload.durationMs }

def PendingTurn.change (change : Turn → Turn) (turn : PendingTurn) : PendingTurn :=
  { turn with toTurn := change turn.toTurn }

def i64Max : Nat := 2 ^ 63 - 1

structure ThreadHistoryBuilder where
  turns : List Turn := []
  currentTurn : Option PendingTurn := none
  nextItemIndex : Nat := 1
  currentRolloutIndex : Nat := 0
  nextRolloutIndex : Nat := 0

def buildUserInputs (payload : UserMessageEvent) : List UserInput :=
  (if payload.message.trim.isEmpty then [] else [.text payload.message payload.textElements]) ++
    (payload.images.getD []).map .image ++ payload.localImages.map .localImage

def parseHookPromptMessage (parseHookPromptFragment : Text → Option HookPromptFragment)
    (content : List ContentItem) : Option (List HookPromptFragment) :=
  let fragment : ContentItem → Option HookPromptFragment
    | .inputText text => parseHookPromptFragment text
    | _ => none
  (content.mapM fragment).filter fun fragments => !fragments.isEmpty

namespace ThreadHistoryBuilder

variable (builder : ThreadHistoryBuilder)

def finishCurrentTurn : ThreadHistoryBuilder :=
  match builder.currentTurn with
  | none => builder
  | some turn =>
      if turn.items.isEmpty && !turn.openedExplicitly && !turn.sawCompaction then
        { builder with currentTurn := none }
      else { builder with currentTurn := none, turns := builder.turns ++ [turn.toTurn] }

/-- While a rollout is read its next index is never 0, so a turn without an id has the id of its first item. -/
def newTurn (id : Option Text) : PendingTurn :=
  { id := id.getD ("rollout-" ++ (toString builder.currentRolloutIndex).toList) }

def nextItemId : Text := "item-" ++ (toString builder.nextItemIndex).toList

def ensureTurn (change : PendingTurn → PendingTurn) : ThreadHistoryBuilder :=
  { builder with currentTurn := some (change (builder.currentTurn.getD (builder.newTurn none))) }

def pushItem (item : Text → ThreadItem) : ThreadHistoryBuilder :=
  let id := builder.nextItemId
  { builder with nextItemIndex := builder.nextItemIndex + 1 }.ensureTurn fun turn =>
    { turn with items := turn.items ++ [item id] }

variable (parseHookPromptFragment : Text → Option HookPromptFragment)

def handleResponseItem :
    ResponseItem → ThreadHistoryBuilder
  | .message id role content _ =>
      if role = "user" then
        match parseHookPromptMessage parseHookPromptFragment content with
        | some fragments =>
            builder.ensureTurn fun turn => { turn with items := turn.items ++ [.hookPrompt id fragments] }
        | none => builder
      else builder
  | _ => builder

def handleUserMessage (payload : UserMessageEvent) : ThreadHistoryBuilder :=
  let builder :=
    match builder.currentTurn with
    | some turn =>
        if !turn.openedExplicitly && !(turn.sawCompaction && turn.items.isEmpty) then builder.finishCurrentTurn
        else builder
    | none => builder
  builder.pushItem fun id => .userMessage id (buildUserInputs payload)

def handleAgentMessage (payload : AgentMessageEvent) : ThreadHistoryBuilder :=
  if payload.message.isEmpty then builder
  else builder.pushItem fun id => .agentMessage id payload.message payload.phase payload.memoryCitation

def handleContextCompacted : ThreadHistoryBuilder := builder.pushItem .contextCompaction

def handleCompacted : ThreadHistoryBuilder := builder.ensureTurn fun turn => { turn with sawCompaction := true }

def handleTurnAborted (payload : TurnAbortedEvent) : ThreadHistoryBuilder :=
  let active := builder.currentTurn.map (PendingTurn.change (·.applyAbort payload))
  match payload.turnId with
  | none => { builder with currentTurn := active }
  | some turnId =>
      if builder.currentTurn.any (·.id == turnId) then { builder with currentTurn := active }
      else
        match builder.turns.findIdx? (·.id == turnId) with
        | some idx => { builder with turns := builder.turns.modify idx (·.applyAbort payload) }
        | none => { builder with currentTurn := active }

def handleTurnStarted (payload : TurnStartedEvent) : ThreadHistoryBuilder :=
  let builder := builder.finishCurrentTurn
  { builder with
    currentTurn := some { builder.newTurn (some payload.turnId) with
      status := .inProgress
      startedAt := payload.startedAt
      openedExplicitly := true } }

def handleTurnComplete (payload : TurnCompleteEvent) : ThreadHistoryBuilder :=
  let completed := { builder with currentTurn := builder.currentTurn.map (PendingTurn.change (·.markCompleted payload)) }
  if builder.currentTurn.any (·.id == payload.turnId) then completed.finishCurrentTurn
  else
    match builder.turns.findIdx? (·.id == payload.turnId) with
    | some idx => { builder with turns := builder.turns.modify idx (·.markCompleted payload) }
    | none => completed.finishCurrentTurn

def handleThreadRollback (numTurns : UInt32) : ThreadHistoryBuilder :=
  let builder := builder.finishCurrentTurn
  let n := numTurns.toNat
  let turns := if n ≥ builder.turns.length then [] else builder.turns.take (builder.turns.length - n)
  let itemCount := (turns.map (·.items.length)).sum
  { builder with turns, nextItemIndex := min (itemCount + 1) i64Max }

def handleEvent : EventMsg → ThreadHistoryBuilder
  | .userMessage payload => builder.handleUserMessage payload
  | .agentMessage payload => builder.handleAgentMessage payload
  | .contextCompacted => builder.handleContextCompacted
  | .threadRolledBack numTurns => builder.handleThreadRollback numTurns
  | .turnAborted payload => builder.handleTurnAborted payload
  | .turnStarted payload => builder.handleTurnStarted payload
  | .turnComplete payload => builder.handleTurnComplete payload
  | .other => builder

def advanceRolloutIndex : ThreadHistoryBuilder :=
  { builder with currentRolloutIndex := builder.nextRolloutIndex, nextRolloutIndex := builder.nextRolloutIndex + 1 }

def handleRolloutItem (item : RolloutItem) :
    ThreadHistoryBuilder :=
  let builder := builder.advanceRolloutIndex
  match item with
  | .eventMsg event => builder.handleEvent event
  | .compacted _ => builder.handleCompacted
  | .responseItem item => builder.handleResponseItem parseHookPromptFragment item
  | .turnContext _ | .sessionMeta => builder

def handleRolloutItems (items : List RolloutItem) :
    ThreadHistoryBuilder :=
  items.foldl (fun builder item => builder.handleRolloutItem parseHookPromptFragment item) builder

def finish : List Turn := builder.finishCurrentTurn.turns

end ThreadHistoryBuilder

def buildTurnsFromRolloutItems (parseHookPromptFragment : Text → Option HookPromptFragment)
    (items : List RolloutItem) : List Turn :=
  (({} : ThreadHistoryBuilder).handleRolloutItems parseHookPromptFragment items).finish

end CodexStudy.AppServer
