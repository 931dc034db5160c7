import CodexStudy.Core.ContextManager

/-!
# Rebuilding the history from a rollout

A rollout is the log of a session.
-/

namespace CodexStudy.Core

open CodexStudy.Lib

/-! ## Rollouts -/

inductive EventMsg where
  | turnStarted (turnId : Text)
  | turnComplete (turnId : Text)
  | turnAborted (turnId : Option Text)
  | userMessage (message : Text)
  | threadRolledBack (numTurns : UInt32)
  | other

structure CompactedItem where
  message : Text
  replacementHistory : Option (List ResponseItem)

inductive RolloutItem where
  | sessionMeta
  | responseItem (item : ResponseItem)
  | compacted (item : CompactedItem)
  | turnContext (item : TurnContextItem)
  | eventMsg (event : EventMsg)

structure PreviousTurnSettings where
  model : Text
  realtimeActive : Option Bool

structure RolloutReconstruction where
  history : List ResponseItem
  previousTurnSettings : Option PreviousTurnSettings
  referenceContextItem : Option TurnContextItem

/-! ## The scan -/

/-- The baseline that a span of the replay leaves: none seen, cleared by a compaction, or the latest. -/
inductive TurnReferenceContextItem where
  | neverSet
  | cleared
  | latest (item : TurnContextItem)
  deriving DecidableEq

structure ActiveReplaySegment where
  turnId : Option Text := none
  countsAsUserTurn : Bool := false
  previousTurnSettings : Option PreviousTurnSettings := none
  referenceContextItem : TurnReferenceContextItem := .neverSet
  baseReplacementHistory : Option (List ResponseItem) := none

def turnIdsAreCompatible (activeTurnId itemTurnId : Option Text) : Bool :=
  activeTurnId.all fun turnId => itemTurnId.all fun itemTurnId => itemTurnId == turnId

def usizeMax : Nat := 2 ^ 64 - 1

def usizeSaturatingAdd (a b : Nat) : Nat := min (a + b) usizeMax

structure ReverseScan where
  baseReplacementHistory : Option (List ResponseItem) := none
  previousTurnSettings : Option PreviousTurnSettings := none
  referenceContextItem : TurnReferenceContextItem := .neverSet
  pendingRollbackTurns : Nat := 0
  rolloutSuffix : List RolloutItem
  activeSegment : Option ActiveReplaySegment := none

variable (rd : ItemReaders) (rolloutItems : List RolloutItem)

namespace ReverseScan

def finalizeActiveSegment (st : ReverseScan) (activeSegment : ActiveReplaySegment) : ReverseScan :=
  if st.pendingRollbackTurns > 0 then
    if activeSegment.countsAsUserTurn then { st with pendingRollbackTurns := st.pendingRollbackTurns - 1 } else st
  else
    let st :=
      if st.baseReplacementHistory.isNone then
        { st with baseReplacementHistory := activeSegment.baseReplacementHistory }
      else st
    let st :=
      if st.previousTurnSettings.isNone && activeSegment.countsAsUserTurn then
        { st with previousTurnSettings := activeSegment.previousTurnSettings }
      else st
    if st.referenceContextItem = .neverSet &&
        (activeSegment.countsAsUserTurn || activeSegment.referenceContextItem = .cleared) then
      { st with referenceContextItem := activeSegment.referenceContextItem }
    else st

def scanItem (newer : List RolloutItem) (st : ReverseScan) :
    RolloutItem → ReverseScan
  | .compacted compacted =>
      let active := st.activeSegment.getD {}
      let active :=
        if active.referenceContextItem = .neverSet then { active with referenceContextItem := .cleared } else active
      match active.baseReplacementHistory, compacted.replacementHistory with
      | none, some replacementHistory =>
          { st with
            activeSegment := some { active with baseReplacementHistory := some replacementHistory }
            rolloutSuffix := newer }
      | _, _ => { st with activeSegment := some active }
  | .eventMsg (.threadRolledBack numTurns) =>
      { st with pendingRollbackTurns := usizeSaturatingAdd st.pendingRollbackTurns numTurns.toNat }
  | .eventMsg (.turnComplete turnId) =>
      let active := st.activeSegment.getD {}
      let active := if active.turnId.isNone then { active with turnId := some turnId } else active
      { st with activeSegment := some active }
  | .eventMsg (.turnAborted turnId) =>
      match st.activeSegment, turnId with
      | some active, some turnId =>
          if active.turnId.isNone then { st with activeSegment := some { active with turnId := some turnId } } else st
      | none, some turnId => { st with activeSegment := some { turnId := some turnId } }
      | _, none => st
  | .eventMsg (.userMessage _) =>
      { st with activeSegment := some { st.activeSegment.getD {} with countsAsUserTurn := true } }
  | .turnContext ctx =>
      let active := st.activeSegment.getD {}
      let active := if active.turnId.isNone then { active with turnId := ctx.turnId } else active
      let active :=
        if turnIdsAreCompatible active.turnId ctx.turnId then
          let active :=
            { active with
              previousTurnSettings := some { model := ctx.model, realtimeActive := ctx.realtimeActive } }
          if active.referenceContextItem = .neverSet then { active with referenceContextItem := .latest ctx }
          else active
        else active
      { st with activeSegment := some active }
  | .eventMsg (.turnStarted turnId) =>
      match st.activeSegment with
      | some active =>
          if turnIdsAreCompatible active.turnId (some turnId) then
            { st with activeSegment := none }.finalizeActiveSegment active
          else st
      | none => st
  | .responseItem item =>
      let active := st.activeSegment.getD {}
      { st with
        activeSegment :=
          some { active with countsAsUserTurn := active.countsAsUserTurn || isUserTurnBoundary rd item } }
  | .eventMsg .other | .sessionMeta => st

/-- The base and all that a resumed session needs are known. -/
def isComplete (st : ReverseScan) : Bool :=
  st.baseReplacementHistory.isSome && st.previousTurnSettings.isSome && st.referenceContextItem ≠ .neverSet

/-- The loop over the items that are left, newest first. -/
def scan (rd : ItemReaders) (newer : List RolloutItem) (st : ReverseScan) :
    List RolloutItem → ReverseScan
  | [] => st
  | item :: older =>
      let st := st.scanItem rd newer item
      if st.isComplete then st else scan rd (item :: newer) st older

def scanRollout : ReverseScan :=
  let st := scan rd [] { rolloutSuffix := rolloutItems } rolloutItems.reverse
  match st.activeSegment with
  | some active => { st with activeSegment := none }.finalizeActiveSegment active
  | none => st

end ReverseScan

/-! ## The replay -/

def replayItem (history : ContextManager) : RolloutItem → ContextManager
  | .responseItem item => history.recordItem rd item
  | .compacted compacted =>
      match compacted.replacementHistory with
      | some replacementHistory => history.replace replacementHistory
      | none => history.replace (rd.buildCompactedHistory history.items compacted.message)
  | .eventMsg (.threadRolledBack numTurns) => history.dropLastNUserTurns rd numTurns
  | _ => history

def replayItems (history : ContextManager) (items : List RolloutItem) : ContextManager :=
  items.foldl (replayItem rd) history

def isLegacyCompaction : RolloutItem → Bool
  | .compacted compacted => compacted.replacementHistory.isNone
  | _ => false

def reconstructHistoryFromRollout : RolloutReconstruction :=
  let st := ReverseScan.scanRollout rd rolloutItems
  let history : ContextManager := {}
  let history :=
    match st.baseReplacementHistory with
    | some base => history.replace base
    | none => history
  let history := replayItems rd history st.rolloutSuffix
  let referenceContextItem :=
    match st.referenceContextItem with
    | .neverSet | .cleared => none
    | .latest item => some item
  { history := history.items
    previousTurnSettings := st.previousTurnSettings
    referenceContextItem := if st.rolloutSuffix.any isLegacyCompaction then none else referenceContextItem }

/-- The whole log replayed from the empty history, oldest item first. -/
def forwardReplay : List ResponseItem :=
  (replayItems rd {} rolloutItems).items

end CodexStudy.Core
