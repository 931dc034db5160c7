import CodexStudy.Core.Lemmas.History
import CodexStudy.Core.Compact

/-!
# Cutting a rollout at its turns (`core/src/thread_rollout_truncation.rs`)

The positions of the user messages and of the turns at which a rollout can be forked.
-/

namespace CodexStudy.Core

open CodexStudy.Lib ContextManager

/-! ## What a fork of a sub-agent keeps -/

def keepForkedRolloutItem : RolloutItem → Bool
  | .responseItem (.message _ role _ phase) =>
      if role = "system" ∨ role = "developer" ∨ role = "user" then true
      else if role = "assistant" then phase == some .finalAnswer
      else false
  | .responseItem _ => false
  | .turnContext _ => false
  | .compacted _ | .eventMsg _ | .sessionMeta => true

def keepForked (item : ResponseItem) : Bool := keepForkedRolloutItem (.responseItem item)

/-! ## What a sub-agent sees -/

def isShown : ResponseItem → Bool
  | .message _ role _ phase => role == "user" || (role == "assistant" && phase == some .finalAnswer)
  | _ => false

inductive RolloutEntry where
  | responseItem (item : ResponseItem)
  | threadRolledBack (numTurns : UInt32)

def RolloutEntry.item : RolloutEntry → RolloutItem
  | responseItem item => .responseItem item
  | threadRolledBack numTurns => .eventMsg (.threadRolledBack numTurns)

section

variable (rd : ItemReaders)

def parentHistory (rollout : List RolloutEntry) : List ResponseItem :=
  forwardReplay rd (rollout.map RolloutEntry.item)

def forkedHistory (rollout : List RolloutEntry) : List ResponseItem :=
  forwardReplay rd ((rollout.map RolloutEntry.item).filter keepForkedRolloutItem)

/-- The sub-agent sees what the filter leaves of the history of its parent. -/
def ForkAgrees (rollout : List RolloutEntry) : Prop :=
  (forkedHistory rd rollout).filter isShown = ((parentHistory rd rollout).filter keepForked).filter isShown

/-! ## Rollbacks that the filter leaves alone -/

def isKeptBoundary (item : ResponseItem) : Bool := isUserTurnBoundary rd item && keepForked item

/-- The rollback of `numTurns` turns cuts the history in front of the turn that `turn` opens. -/
structure CutsAt (history : List ResponseItem) (numTurns : UInt32) (before : List ResponseItem) (turn : ResponseItem)
    (after : List ResponseItem) : Prop where
  split : history = before ++ turn :: after
  opens : isUserTurnBoundary rd turn = true
  count : userTurns rd (turn :: after) = min numTurns.toNat (userTurns rd history)

/-- Behind a kept turn a rollback drops only kept turns. The context that the parent keeps holds no user message that
the walk back from the cut reaches once the filter has removed the item it stopped at. -/
structure KeepsTurns (before : List ResponseItem) (turn : ResponseItem) (after : List ResponseItem) : Prop where
  turns : ∀ item ∈ turn :: after, isUserTurnBoundary rd item = true → keepForked item = true
  context : ∀ item ∈ ((before.rdropWhile (isPreTurnContext rd)).filter keepForked).rtakeWhile
    (isPreTurnContext rd), isShown item = false

/-- In front of all kept turns a rollback drops nothing but these turns: no message of the context in front of the cut,
and none behind it up to the first of them. -/
structure KeepsLeading (before : List ResponseItem) (turn : ResponseItem) (after : List ResponseItem) : Prop where
  context : userTurns rd before ≠ 0 → ∀ item ∈ before.rtakeWhile (isPreTurnContext rd), isShown item = false
  upToKept : ∀ item ∈ leading rd ((turn :: after).filter keepForked), isShown item = false

def RollbackKeepsFork (history : List ResponseItem) (numTurns : UInt32) : Prop :=
  ∀ before turn after, CutsAt rd history numTurns before turn after →
    if before.any (isKeptBoundary rd) then KeepsTurns rd before turn after
    else KeepsLeading rd before turn after

end

section

variable (rd : ItemReaders)

/-! ## User messages -/

def isRealUserMessageBoundary (item : ResponseItem) : Bool :=
  match parseTurnItem rd item with
  | some (.userMessage _) => true
  | _ => false

def userPositionsStep (userPositions : List Nat) : RolloutItem × Nat → List Nat
  | (.responseItem item, idx) => if isRealUserMessageBoundary rd item then userPositions ++ [idx] else userPositions
  | (.eventMsg (.threadRolledBack numTurns), _) => userPositions.take (userPositions.length - numTurns.toNat)
  | _ => userPositions

def userMessagePositionsInRollout (items : List RolloutItem) : List Nat :=
  items.zipIdx.foldl (userPositionsStep rd) []

def truncateRolloutBeforeNthUserMessageFromStart (items : List RolloutItem) (nFromStart : Nat) : List RolloutItem :=
  if nFromStart = usizeMax then items
  else
    match (userMessagePositionsInRollout rd items)[nFromStart]? with
    | some cutIdx => items.take cutIdx
    | none => items

end

/-! ## Fork turns -/

/-- The readers of items, of which one reads the message of an agent, and whether it triggers a turn. -/
structure AgentMessageReaders where
  parseHookPromptFragment : Text → Bool
  triggerTurn : Text → Option Bool
  truncateFunctionOutputPayload : FunctionCallOutputPayload → FunctionCallOutputPayload
  buildCompactedHistory : List ResponseItem → (message : Text) → List ResponseItem

def AgentMessageReaders.toItemReaders (rd : AgentMessageReaders) : ItemReaders where
  parseHookPromptFragment := rd.parseHookPromptFragment
  isInterAgentCommunication text := (rd.triggerTurn text).isSome
  truncateFunctionOutputPayload := rd.truncateFunctionOutputPayload
  buildCompactedHistory := rd.buildCompactedHistory

section

variable (rd : AgentMessageReaders)

def isTriggerTurnBoundary : ResponseItem → Bool
  | .message _ role content _ =>
      role == "assistant" &&
        match content with
        | [.inputText text] | [.outputText text] => rd.triggerTurn text == some true
        | _ => false
  | _ => false

def isForkTurnBoundary (item : ResponseItem) : Bool :=
  isRealUserMessageBoundary rd.toItemReaders item || isTriggerTurnBoundary rd item

structure TurnPositions where
  rollbackTurnPositions : List Nat
  forkTurnPositions : List Nat

def TurnPositions.step (positions : TurnPositions) : RolloutItem × Nat → TurnPositions
  | (.responseItem item, idx) =>
      { rollbackTurnPositions :=
          if isUserTurnBoundary rd.toItemReaders item then positions.rollbackTurnPositions ++ [idx]
          else positions.rollbackTurnPositions
        forkTurnPositions :=
          if isForkTurnBoundary rd item then positions.forkTurnPositions ++ [idx] else positions.forkTurnPositions }
  | (.eventMsg (.threadRolledBack numTurns), _) =>
      let numTurns := numTurns.toNat
      let length := positions.rollbackTurnPositions.length
      if numTurns = 0 then positions
      else
        let rollbackStartIdx :=
          (if numTurns ≤ length then positions.rollbackTurnPositions[length - numTurns]? else none).or
            positions.rollbackTurnPositions.head?
        match rollbackStartIdx with
        | some rollbackStartIdx =>
            { rollbackTurnPositions := positions.rollbackTurnPositions.take (length - numTurns)
              forkTurnPositions := positions.forkTurnPositions.filter (· < rollbackStartIdx) }
        | none => positions
  | _ => positions

def forkTurnPositionsInRollout (items : List RolloutItem) : List Nat :=
  (items.zipIdx.foldl (TurnPositions.step rd) ⟨[], []⟩).forkTurnPositions

def truncateRolloutToLastNForkTurns (items : List RolloutItem) (nFromEnd : Nat) : List RolloutItem :=
  if nFromEnd = 0 then []
  else
    let forkTurnPositions := forkTurnPositionsInRollout rd items
    if forkTurnPositions.length ≤ nFromEnd then items
    else items.drop (forkTurnPositions.getD (forkTurnPositions.length - nFromEnd) 0)

end

/-! ## The items that are left -/

section

variable (rd : ItemReaders)

structure TrackedHistory where
  history : ContextManager
  positions : List Nat

def TrackedHistory.step (tracked : TrackedHistory) : RolloutItem × Nat → TrackedHistory
  | (.responseItem item, idx) =>
      { history := replayItem rd tracked.history (.responseItem item)
        positions := if ContextManager.isApiMessage item then tracked.positions ++ [idx] else tracked.positions }
  | (item, _) =>
      { history := replayItem rd tracked.history item
        positions := tracked.positions.take (replayItem rd tracked.history item).items.length }

def trackedReplay (items : List RolloutItem) : TrackedHistory :=
  items.zipIdx.foldl (TrackedHistory.step rd) ⟨{}, []⟩

def isAt (items : List RolloutItem) (kind : ResponseItem → Bool) (idx : Nat) : Bool :=
  match items[idx]? with
  | some (.responseItem item) => kind item
  | _ => false

def survivingPositions (items : List RolloutItem) (kind : ResponseItem → Bool) : List Nat :=
  (trackedReplay rd items).positions.filter (isAt items kind)

end

end CodexStudy.Core
