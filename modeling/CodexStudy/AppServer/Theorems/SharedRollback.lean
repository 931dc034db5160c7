import CodexStudy.AppServer.ThreadHistory
import CodexStudy.Core.Checkpoints
import CodexStudy.Lib.Transition

/-!
# Rolling back the turns and the history together

The turns count turns and the history counts turn boundaries.
-/

namespace CodexStudy.AppServer

open CodexStudy.Lib List ThreadHistoryBuilder RolloutItem
open CodexStudy.Core (ItemReaders ContentItem ResponseItem MessagePhase ContextManager forwardReplay replayItem replayItems
  replayItems_append isUserTurnBoundary isContextualUserMessageContent)

section

/-! ## Rollouts of complete turns -/

structure UserMessage where
  id : Option Text := none
  content : List ContentItem
  phase : Option MessagePhase := none
  event : UserMessageEvent

structure AgentMessage where
  id : Option Text := none
  content : List ContentItem
  phase : Option MessagePhase := none
  event : AgentMessageEvent

inductive TurnMessage where
  | user (message : UserMessage)
  | agent (message : AgentMessage)

structure CompleteTurn where
  started : TurnStartedEvent
  messages : List TurnMessage
  completedAt : Option Int := none
  durationMs : Option Int := none

inductive RolloutBlock where
  | turn (turn : CompleteTurn)
  | rolledBack (numTurns : UInt32)

def UserMessage.item (message : UserMessage) : ResponseItem :=
  .message message.id "user" message.content message.phase

def AgentMessage.item (message : AgentMessage) : ResponseItem :=
  .message message.id "assistant" message.content message.phase

def TurnMessage.item : TurnMessage → ResponseItem
  | .user message => message.item
  | .agent message => message.item

def TurnMessage.event : TurnMessage → EventMsg
  | .user message => .userMessage message.event
  | .agent message => .agentMessage message.event

def TurnMessage.user? : TurnMessage → Option UserMessage
  | .user message => some message
  | .agent _ => none

def CompleteTurn.userMessages (turn : CompleteTurn) : List UserMessage := turn.messages.filterMap TurnMessage.user?

def CompleteTurn.items (turn : CompleteTurn) : List RolloutItem :=
  .eventMsg (.turnStarted turn.started) ::
    (turn.messages.flatMap fun message => [.responseItem message.item, .eventMsg message.event]) ++
    [.eventMsg (.turnComplete ⟨turn.started.turnId, turn.completedAt, turn.durationMs⟩)]

def RolloutBlock.items : RolloutBlock → List RolloutItem
  | .turn complete => complete.items
  | .rolledBack numTurns => [.eventMsg (.threadRolledBack numTurns)]

def RolloutBlock.userMessages : RolloutBlock → List UserMessage
  | .turn complete => complete.userMessages
  | .rolledBack _ => []

def rolloutItems (rollout : List RolloutBlock) : List RolloutItem := rollout.flatMap RolloutBlock.items

/-! ## What is shown and what is left -/

def ThreadItem.userMessage? : ThreadItem → Option (List UserInput)
  | .userMessage _ content => some content
  | _ => none

def Turn.userMessages (turn : Turn) : List (List UserInput) := turn.items.filterMap ThreadItem.userMessage?

def shownUserMessages (turns : List Turn) : List (List UserInput) := turns.flatMap Turn.userMessages

def isUserMessage (rd : ItemReaders) : ResponseItem → Bool
  | .message _ role content _ => role == "user" && !isContextualUserMessageContent rd content
  | _ => false

def UserMessage.shown (message : UserMessage) : List UserInput := buildUserInputs message.event

section

variable (rd : ItemReaders) (parseHookPromptFragment : Text → Option HookPromptFragment) (rollout : List RolloutBlock)

def turnsOf : List Turn := buildTurnsFromRolloutItems parseHookPromptFragment (rolloutItems rollout)

def historyOf : List ResponseItem := forwardReplay rd ((rolloutItems rollout).map toCore)

/-- The shown user messages and those left in the history are the same messages of the rollout, in its order. -/
def ShowsHistory : Prop :=
  ∃ left : List UserMessage, left.Sublist (rollout.flatMap RolloutBlock.userMessages) ∧
    shownUserMessages (turnsOf parseHookPromptFragment rollout) = left.map UserMessage.shown ∧
    (historyOf rd rollout).filter (isUserMessage rd) = left.map UserMessage.item

/-- The history takes every user message of the next turn for one; a rollback drops as many user messages with the last
shown turns as with the last turn boundaries. -/
def DropsAlike : RolloutBlock → Prop
  | .turn complete => ∀ message ∈ complete.userMessages, isUserMessage rd message.item = true
  | .rolledBack numTurns =>
      (shownUserMessages ((turnsOf parseHookPromptFragment rollout).rtake numTurns.toNat)).length =
        (((historyOf rd rollout).filter (isUserTurnBoundary rd)).rtake numTurns.toNat).countP
          (isUserMessage rd)

end

/-- A rollout goes on with a block. -/
def Extends (rollout : List RolloutBlock) (block : RolloutBlock) (rollout' : List RolloutBlock) : Prop :=
  rollout' = rollout ++ [block]

variable {parseHookPromptFragment : Text → Option HookPromptFragment}

/-! ## The turns -/

section

variable {builder : ThreadHistoryBuilder} {turns : List Turn} {id : Text} {shown : List (List UserInput)}

structure Opened (turns : List Turn) (id : Text) (shown : List (List UserInput)) (builder : ThreadHistoryBuilder) :
    Prop where
  turns : builder.turns = turns
  current : ∃ turn, builder.currentTurn = some turn ∧ turn.id = id ∧ turn.openedExplicitly = true ∧
    turn.toTurn.userMessages = shown

variable (h : Opened turns id shown builder)

include h in
theorem Opened.push (item : ThreadItem) :
    Opened turns id (shown ++ item.userMessage?.toList)
      (builder.ensureTurn fun turn => { turn with items := turn.items ++ [item] }) := by
  obtain ⟨htns, turn, hcur, hid, hopened, hshn⟩ := h
  refine ⟨htns, { turn with items := turn.items ++ [item] }, ?_, hid, hopened, ?_⟩
  · unfold ensureTurn
    rw [hcur]
    rfl
  · unfold Turn.userMessages at hshn ⊢
    rw [filterMap_append, hshn]
    rfl

include h in
theorem Opened.pushItem (item : Text → ThreadItem) :
    Opened turns id (shown ++ (item builder.nextItemId).userMessage?.toList) (builder.pushItem item) := by
  have hnext : Opened turns id shown { builder with nextItemIndex := builder.nextItemIndex + 1 } := ⟨h.turns, h.current⟩
  exact hnext.push _

variable (parseHookPromptFragment) in
theorem Opened.handleResponseItem (h : Opened turns id shown builder) (item : ResponseItem) :
    Opened turns id shown (builder.handleResponseItem parseHookPromptFragment item) := by
  unfold ThreadHistoryBuilder.handleResponseItem
  split
  next id' _ _ _ =>
    split
    next =>
      split
      next fragments _ =>
        have hpush := h.push (.hookPrompt id' fragments)
        rwa [show (ThreadItem.hookPrompt id' fragments).userMessage?.toList = [] from rfl, List.append_nil] at hpush
      next => exact h
    next => exact h
  next => exact h

include h in
theorem Opened.handleEvent (message : TurnMessage) :
    Opened turns id (shown ++ message.user?.toList.map UserMessage.shown) (builder.handleEvent message.event) := by
  cases message with
  | user message =>
      obtain ⟨turn, hcur, -, hopened, -⟩ := h.current
      have hsame : builder.handleEvent (.userMessage message.event) =
          builder.pushItem fun id => .userMessage id (buildUserInputs message.event) := by
        unfold ThreadHistoryBuilder.handleEvent ThreadHistoryBuilder.handleUserMessage
        simp only [hcur, hopened, Bool.not_true, Bool.false_and, Bool.false_eq_true, ↓reduceIte]
      exact hsame ▸ h.pushItem fun id => .userMessage id (buildUserInputs message.event)
  | agent message =>
      have hnone : shown ++ (TurnMessage.agent message).user?.toList.map UserMessage.shown = shown :=
        List.append_nil shown
      rw [hnone]
      change Opened turns id shown (builder.handleAgentMessage message.event)
      unfold ThreadHistoryBuilder.handleAgentMessage
      split
      next => exact h
      next =>
        have hpush := h.pushItem fun id =>
          .agentMessage id message.event.message message.event.phase message.event.memoryCitation
        exact (List.append_nil shown) ▸ hpush

include h in
theorem Opened.advanceRolloutIndex :
    Opened turns id shown builder.advanceRolloutIndex := ⟨h.turns, h.current⟩

theorem handleRolloutItems_cons (item : RolloutItem) (items : List RolloutItem) :
    builder.handleRolloutItems parseHookPromptFragment (item :: items) =
      (builder.handleRolloutItem parseHookPromptFragment item).handleRolloutItems parseHookPromptFragment items := rfl

theorem handleRolloutItems_append (items items' : List RolloutItem) :
    builder.handleRolloutItems parseHookPromptFragment (items ++ items') =
      (builder.handleRolloutItems parseHookPromptFragment items).handleRolloutItems parseHookPromptFragment items' :=
  foldl_append

variable (parseHookPromptFragment) in
theorem Opened.handleMessages (messages : List TurnMessage) (h : Opened turns id shown builder) :
    Opened turns id (shown ++ (messages.filterMap TurnMessage.user?).map UserMessage.shown)
      (builder.handleRolloutItems parseHookPromptFragment
        (messages.flatMap fun message => [.responseItem message.item, .eventMsg message.event])) := by
  induction messages generalizing builder shown with
  | nil => exact (append_nil shown).symm ▸ h
  | cons message messages ih =>
      have hitem := h.advanceRolloutIndex.handleResponseItem parseHookPromptFragment message.item
      have hevent := hitem.advanceRolloutIndex.handleEvent message
      have hrest := ih hevent
      have husers : (message :: messages).filterMap TurnMessage.user? =
          message.user?.toList ++ messages.filterMap TurnMessage.user? := by
        rw [filterMap_cons]
        cases message.user? <;> rfl
      rw [husers, map_append, ← append_assoc]
      exact hrest

variable (parseHookPromptFragment) in
theorem handleRolloutItems_turn (complete : CompleteTurn) (h : builder.currentTurn = none) :
    ∃ turn, (builder.handleRolloutItems parseHookPromptFragment complete.items).currentTurn = none ∧
      (builder.handleRolloutItems parseHookPromptFragment complete.items).turns = builder.turns ++ [turn] ∧
      turn.userMessages = complete.userMessages.map UserMessage.shown := by
  have hopened : Opened builder.turns complete.started.turnId []
      (builder.handleRolloutItem parseHookPromptFragment (.eventMsg (.turnStarted complete.started))) := by
    have hfinish : builder.advanceRolloutIndex.finishCurrentTurn = builder.advanceRolloutIndex := by
      unfold finishCurrentTurn
      rw [show builder.advanceRolloutIndex.currentTurn = none from h]
    change Opened _ _ _ (builder.advanceRolloutIndex.handleTurnStarted complete.started)
    unfold handleTurnStarted
    rw [hfinish]
    exact ⟨rfl, _, rfl, rfl, rfl, rfl⟩
  obtain ⟨hturns, turn, hcurrent, hid, hexplicit, hshown⟩ :=
    hopened.handleMessages parseHookPromptFragment complete.messages
  unfold CompleteTurn.items
  rw [cons_append, handleRolloutItems_cons, handleRolloutItems_append]
  generalize (builder.handleRolloutItem parseHookPromptFragment (.eventMsg (.turnStarted complete.started))
    ).handleRolloutItems parseHookPromptFragment
      (complete.messages.flatMap fun message => [.responseItem message.item, .eventMsg message.event]) = opened
    at hturns hcurrent
  let payload : TurnCompleteEvent := ⟨complete.started.turnId, complete.completedAt, complete.durationMs⟩
  refine ⟨turn.toTurn.markCompleted payload, ?_⟩
  have hcomplete : opened.handleRolloutItems parseHookPromptFragment [.eventMsg (.turnComplete payload)] =
      { opened.advanceRolloutIndex with
        currentTurn := none
        turns := opened.turns ++ [turn.toTurn.markCompleted payload] } := by
    change opened.advanceRolloutIndex.handleTurnComplete payload = _
    unfold handleTurnComplete finishCurrentTurn
    have hcurrent' : opened.advanceRolloutIndex.currentTurn = some turn := hcurrent
    have hmatches : (turn.id == payload.turnId) = true := beq_iff_eq.mpr hid
    simp only [hcurrent', Option.any_some, hmatches, ↓reduceIte, Option.map_some, PendingTurn.change, hexplicit,
      Bool.not_true, Bool.and_false, Bool.false_and, Bool.false_eq_true]
    rfl
  rw [hcomplete]
  refine ⟨rfl, congrArg (· ++ _) hturns, ?_⟩
  exact hshown

theorem handleRolloutItems_rolledBack (numTurns : UInt32) (h : builder.currentTurn = none) :
    (builder.handleRolloutItems parseHookPromptFragment [.eventMsg (.threadRolledBack numTurns)]).currentTurn = none ∧
      (builder.handleRolloutItems parseHookPromptFragment [.eventMsg (.threadRolledBack numTurns)]).turns =
        builder.turns.rdrop numTurns.toNat := by
  have hfinish : builder.advanceRolloutIndex.finishCurrentTurn = builder.advanceRolloutIndex := by
    unfold finishCurrentTurn
    rw [show builder.advanceRolloutIndex.currentTurn = none from h]
  have hrollback : builder.handleRolloutItems parseHookPromptFragment [.eventMsg (.threadRolledBack numTurns)] =
      builder.advanceRolloutIndex.handleThreadRollback numTurns := rfl
  rw [hrollback]
  unfold handleThreadRollback
  rw [hfinish]
  refine ⟨h, ?_⟩
  dsimp only
  change (if numTurns.toNat ≥ builder.turns.length then [] else _) = _
  split
  next hall => rw [rdrop, Nat.sub_eq_zero_of_le hall, take_zero]
  next => rfl

end

variable (parseHookPromptFragment) in
theorem currentTurn_rolloutItems (rollout : List RolloutBlock) :
    (({} : ThreadHistoryBuilder).handleRolloutItems parseHookPromptFragment (rolloutItems rollout)).currentTurn =
      none := by
  induction rollout using reverseRecOn with
  | nil => rfl
  | append_singleton past block ih =>
      rw [rolloutItems, flatMap_append, flatMap_singleton, handleRolloutItems_append]
      cases block with
      | turn complete =>
          obtain ⟨turn, hnone, -⟩ := handleRolloutItems_turn parseHookPromptFragment complete ih
          exact hnone
      | rolledBack numTurns => exact (handleRolloutItems_rolledBack numTurns ih).1

theorem turnsOf_eq (rollout : List RolloutBlock) : turnsOf parseHookPromptFragment rollout =
      (({} : ThreadHistoryBuilder).handleRolloutItems parseHookPromptFragment (rolloutItems rollout)).turns := by
  unfold turnsOf buildTurnsFromRolloutItems finish finishCurrentTurn
  rw [currentTurn_rolloutItems]

variable (parseHookPromptFragment) in
theorem turnsOf_turn (past : List RolloutBlock) (complete : CompleteTurn) :
    ∃ turn, turnsOf parseHookPromptFragment (past ++ [.turn complete]) =
        turnsOf parseHookPromptFragment past ++ [turn] ∧
      turn.userMessages = complete.userMessages.map UserMessage.shown := by
  obtain ⟨turn, -, hturns, hshown⟩ := handleRolloutItems_turn parseHookPromptFragment complete
    (currentTurn_rolloutItems parseHookPromptFragment past)
  refine ⟨turn, ?_, hshown⟩
  rw [turnsOf_eq, turnsOf_eq, ← hturns, ← handleRolloutItems_append, rolloutItems, flatMap_append,
    flatMap_singleton]
  rfl

theorem turnsOf_rolledBack (past : List RolloutBlock) (numTurns : UInt32) :
    turnsOf parseHookPromptFragment (past ++ [.rolledBack numTurns]) =
      (turnsOf parseHookPromptFragment past).rdrop numTurns.toNat := by
  obtain ⟨-, htns⟩ := handleRolloutItems_rolledBack numTurns (currentTurn_rolloutItems parseHookPromptFragment past)
  rw [turnsOf_eq, turnsOf_eq, ← htns, ← handleRolloutItems_append, rolloutItems, flatMap_append,
    flatMap_singleton]
  rfl

/-! ## The history -/

section

variable {rd : ItemReaders}

theorem replayItem_message (history : ContextManager) (message : TurnMessage) :
    replayItem rd history (.responseItem message.item) = { history with items := history.items ++ [message.item] } := by
  cases message <;> rfl

theorem replayItems_messages (history : ContextManager) (messages : List TurnMessage) :
    replayItems rd history ((messages.flatMap fun message =>
        [responseItem message.item, .eventMsg message.event]).map toCore) =
      { history with items := history.items ++ messages.map TurnMessage.item } := by
  induction messages generalizing history with
  | nil => exact congrArg (fun items => { history with items }) (append_nil _).symm
  | cons message messages ih =>
      have hevent : ∀ history : ContextManager,
          replayItem rd history (eventMsg message.event).toCore = history := by
        cases message <;> exact fun _ => rfl
      rw [flatMap_cons, map_append, replayItems_append, ih]
      have hmsg : replayItems rd history (([responseItem message.item, .eventMsg message.event]).map
          toCore) = { history with items := history.items ++ [message.item] } :=
        (hevent _).trans (replayItem_message history message)
      rw [hmsg, map_cons, append_assoc]
      rfl

theorem historyOf_turn (past : List RolloutBlock) (complete : CompleteTurn) : historyOf rd (past ++ [.turn complete]) =
      historyOf rd past ++ complete.messages.map TurnMessage.item := by
  unfold historyOf forwardReplay
  rw [rolloutItems, flatMap_append, flatMap_singleton, map_append, replayItems_append]
  have hturn : ∀ history : ContextManager,
      replayItems rd history ((RolloutBlock.turn complete).items.map toCore) =
        { history with items := history.items ++ complete.messages.map TurnMessage.item } := by
    intro history
    change replayItems rd history (complete.items.map toCore) = _
    unfold CompleteTurn.items
    rw [map_append, replayItems_append, map_cons]
    exact replayItems_messages history complete.messages
  rw [hturn]
  rfl

theorem boundaries_rolledBack (past : List RolloutBlock) (numTurns : UInt32) :
    (historyOf rd (past ++ [.rolledBack numTurns])).filter (isUserTurnBoundary rd) =
      ((historyOf rd past).filter (isUserTurnBoundary rd)).rdrop numTurns.toNat := by
  unfold historyOf forwardReplay
  rw [rolloutItems, flatMap_append, flatMap_singleton, map_append, replayItems_append]
  exact ContextManager.filter_dropLastNUserTurns _ numTurns

theorem isUserTurnBoundary_of_isUserMessage {item : ResponseItem} (h : isUserMessage rd item = true) :
    isUserTurnBoundary rd item = true := by
  cases item with
  | message id role content phase => exact Bool.or_eq_true_iff.mpr (.inl h)
  | _ => cases h

theorem filter_boundaries (items : List ResponseItem) :
    (items.filter (isUserTurnBoundary rd)).filter (isUserMessage rd) = items.filter (isUserMessage rd) := by
  rw [filter_filter]
  refine filter_congr fun item _ => ?_
  cases h : isUserMessage rd item with
  | false => rfl
  | true => rw [isUserTurnBoundary_of_isUserMessage h]; rfl

theorem filter_messages (messages : List TurnMessage) : (messages.map TurnMessage.item).filter (isUserMessage rd) =
      ((messages.filterMap TurnMessage.user?).filter fun message => isUserMessage rd message.item).map
        UserMessage.item := by
  induction messages with
  | nil => rfl
  | cons message messages ih =>
      cases message with
      | agent message => exact ih
      | user message =>
          have hcons : (TurnMessage.user message :: messages).filterMap TurnMessage.user? =
              message :: messages.filterMap TurnMessage.user? := rfl
          have hitem : (TurnMessage.user message).item = message.item := rfl
          rw [map_cons, hcons, hitem, filter_cons, filter_cons]
          split
          next => rw [map_cons, ih]
          next => exact ih

end

end

/-! ## One block -/

variable {rollout : List RolloutBlock}

section

variable {rd : ItemReaders} {parseHookPromptFragment : Text → Option HookPromptFragment} {past : List RolloutBlock}

theorem showsHistory_nil : ShowsHistory rd parseHookPromptFragment [] := ⟨[], List.Sublist.refl _, rfl, rfl⟩

theorem shownUserMessages_append (turns turns' : List Turn) :
    shownUserMessages (turns ++ turns') = shownUserMessages turns ++ shownUserMessages turns' :=
  flatMap_append

theorem showsHistory_of_take {left : List UserMessage}
    (hleft : left.Sublist (rollout.flatMap RolloutBlock.userMessages)) {a b : Nat} (ha : a ≤ left.length)
    (hb : b ≤ left.length)
    (hshn : shownUserMessages (turnsOf parseHookPromptFragment rollout) = (left.map UserMessage.shown).take a)
    (hkept : (historyOf rd rollout).filter (isUserMessage rd) = (left.map UserMessage.item).take b) :
    ShowsHistory rd parseHookPromptFragment rollout ↔ a = b := by
  constructor
  · rintro ⟨both, -, hshn', hkept'⟩
    have hlengths := congrArg length (hshn.symm.trans hshn')
    have hlengths' := congrArg length (hkept.symm.trans hkept')
    rw [length_take, length_map, length_map, Nat.min_eq_left ha] at hlengths
    rw [length_take, length_map, length_map, Nat.min_eq_left hb] at hlengths'
    exact hlengths.trans hlengths'.symm
  · rintro rfl
    refine ⟨left.take a, (take_sublist a left).trans hleft, ?_, ?_⟩
    · rw [hshn, map_take]
    · rw [hkept, map_take]

theorem showsHistory_rolledBack (numTurns : UInt32) (h : ShowsHistory rd parseHookPromptFragment past) :
    ShowsHistory rd parseHookPromptFragment (past ++ [.rolledBack numTurns]) ↔
      DropsAlike rd parseHookPromptFragment past (.rolledBack numTurns) := by
  obtain ⟨left, hleft, hshn, hkept⟩ := h
  have hleft' : left.Sublist ((past ++ [RolloutBlock.rolledBack numTurns]).flatMap RolloutBlock.userMessages) := by
    rw [flatMap_append]
    exact hleft.trans (sublist_append_left _ _)
  unfold DropsAlike
  dsimp only
  generalize hn : numTurns.toNat = n
  -- Both lists are split where the rollback cuts them.
  have htns : shownUserMessages (turnsOf parseHookPromptFragment past) =
      shownUserMessages ((turnsOf parseHookPromptFragment past).rdrop n) ++
        shownUserMessages ((turnsOf parseHookPromptFragment past).rtake n) := by
    rw [← shownUserMessages_append]
    exact congrArg shownUserMessages (take_append_drop ..).symm
  have hboundaries : (historyOf rd past).filter (isUserMessage rd) =
      (((historyOf rd past).filter (isUserTurnBoundary rd)).rdrop n).filter (isUserMessage rd) ++
        (((historyOf rd past).filter (isUserTurnBoundary rd)).rtake n).filter (isUserMessage rd) := by
    rw [← filter_append, ← filter_boundaries]
    exact congrArg _ (take_append_drop ..).symm
  rw [countP_eq_length_filter]
  rw [hshn] at htns
  rw [hkept] at hboundaries
  have htot := congrArg length htns
  have htot' := congrArg length hboundaries
  rw [length_append, length_map] at htot htot'
  have htake : shownUserMessages (turnsOf parseHookPromptFragment (past ++ [.rolledBack numTurns])) =
      (left.map UserMessage.shown).take
        (shownUserMessages ((turnsOf parseHookPromptFragment past).rdrop n)).length := by
    rw [turnsOf_rolledBack, hn, htns, take_left']
    rfl
  have htake' : (historyOf rd (past ++ [.rolledBack numTurns])).filter (isUserMessage rd) =
      (left.map UserMessage.item).take
        ((((historyOf rd past).filter (isUserTurnBoundary rd)).rdrop n).filter
          (isUserMessage rd)).length := by
    rw [← filter_boundaries, boundaries_rolledBack, hn, hboundaries, take_left']
    rfl
  rw [showsHistory_of_take hleft' (by omega) (by omega) htake htake']
  omega

theorem showsHistory_turn (complete : CompleteTurn) (h : ShowsHistory rd parseHookPromptFragment past) :
    ShowsHistory rd parseHookPromptFragment (past ++ [.turn complete]) ↔
      DropsAlike rd parseHookPromptFragment past (.turn complete) := by
  obtain ⟨left, hleft, hshn, hkept⟩ := h
  obtain ⟨turn, htns, husers⟩ := turnsOf_turn parseHookPromptFragment past complete
  have hshn' : shownUserMessages (turnsOf parseHookPromptFragment (past ++ [.turn complete])) =
      (left ++ complete.userMessages).map UserMessage.shown := by
    rw [htns, shownUserMessages_append, hshn, map_append, ← husers]
    exact congrArg _ (flatMap_singleton ..)
  have hkept' : (historyOf rd (past ++ [.turn complete])).filter (isUserMessage rd) =
      (left ++ complete.userMessages.filter fun message => isUserMessage rd message.item).map
        UserMessage.item := by
    rw [historyOf_turn, filter_append, hkept, filter_messages, map_append]
    rfl
  unfold DropsAlike
  constructor
  · rintro ⟨both, -, hboth, hboth'⟩
    have hlengths := congrArg length (hshn'.symm.trans hboth)
    have hlengths' := congrArg length (hkept'.symm.trans hboth')
    simp only [length_map, length_append] at hlengths hlengths'
    exact length_filter_eq_length_iff.mp (by omega)
  · intro hall
    rw [filter_eq_self.mpr hall] at hkept'
    refine ⟨left ++ complete.userMessages, ?_, hshn', hkept'⟩
    rw [flatMap_append, flatMap_singleton]
    exact hleft.append (List.Sublist.refl _)

theorem showsHistory_block (block : RolloutBlock) (h : ShowsHistory rd parseHookPromptFragment past) :
    ShowsHistory rd parseHookPromptFragment (past ++ [block]) ↔ DropsAlike rd parseHookPromptFragment past block := by
  cases block with
  | turn complete => exact showsHistory_turn complete h
  | rolledBack numTurns => exact showsHistory_rolledBack numTurns h

end

/-! ## Whole rollouts -/

theorem run_extends {past blocks : List RolloutBlock} :
    Run Extends past blocks rollout ↔ rollout = past ++ blocks := by
  constructor
  · intro h
    induction h with
    | nil past => exact (append_nil past).symm
    | cons hstep _ ih => rw [ih, hstep, append_assoc, singleton_append]
  · rintro rfl
    induction blocks generalizing past with
    | nil => exact (append_nil past).symm ▸ .nil past
    | cons block blocks ih =>
        have hrest : Run Extends (past ++ [block]) blocks ((past ++ [block]) ++ blocks) := ih
        rw [append_assoc, singleton_append] at hrest
        exact .cons rfl hrest

theorem statesMeet_extends {P : List RolloutBlock → Prop} :
    StatesMeet Extends P [] rollout ↔ ∀ past, past <+: rollout → P past := by
  constructor
  · exact fun h past hpast => h past past hpast (run_extends.mpr rfl)
  · intro h past reached hpast hrun
    rw [run_extends.mp hrun]
    exact h past hpast

theorem stepsMeet_extends {G : List RolloutBlock → RolloutBlock → Prop} :
    StepsMeet Extends G [] rollout ↔ ∀ past block, past ++ [block] <+: rollout → G past block := by
  constructor
  · exact fun h past block hpast => h past block past _ hpast (run_extends.mpr rfl) rfl
  · intro h past block reached _ hpast hrun _
    rw [run_extends.mp hrun]
    exact h past block hpast

/-- A rollout shows the user messages of its history after every block exactly when no turn has a user message taken for
context, and every rollback drops as many with the turns as with the turn boundaries. -/
theorem rollsBackTogether_iff (rd : ItemReaders) (parseHookPromptFragment : Text → Option HookPromptFragment)
    (rollout : List RolloutBlock) : (∀ past, past <+: rollout → ShowsHistory rd parseHookPromptFragment past) ↔
      ∀ past block, past ++ [block] <+: rollout → DropsAlike rd parseHookPromptFragment past block := by
  rw [← statesMeet_extends, ← stepsMeet_extends]
  refine statesMeet_iff_stepsMeet (J := fun _ => True) rollout showsHistory_nil ?_ (fun _ h => h) trivial
    (fun _ _ _ _ _ => trivial) ?_
  · rintro past block _ h hgd rfl
    exact (showsHistory_block block h).mpr hgd
  · rintro past block _ - h rfl h'
    exact (showsHistory_block block h).mp h'

/-! ## A turn with two messages -/

def exampleReaders : ItemReaders where
  parseHookPromptFragment _ := false
  isInterAgentCommunication _ := false
  truncateFunctionOutputPayload output := output
  buildCompactedHistory items _ := items

def exampleMessage (text : String) : TurnMessage :=
  .user { content := [.inputText text.toList], event := { message := text.toList } }

def steeredRollout : List RolloutBlock :=
  [.turn { started := { turnId := "turn-a" }, messages := [exampleMessage "Start", exampleMessage "Steer"] },
    .rolledBack 1]

/-- No turn is shown, and the first message is still in the history. -/
theorem steered_message_stays :
    ¬∀ rd parseHookPromptFragment rollout, ShowsHistory rd parseHookPromptFragment rollout := by
  intro h
  obtain ⟨left, -, hshn, hkept⟩ := h exampleReaders (fun _ => none) steeredRollout
  have hnone : shownUserMessages (turnsOf (fun _ => none) steeredRollout) = [] := by decide +kernel
  have hone : ((historyOf exampleReaders steeredRollout).filter (isUserMessage exampleReaders)).length = 1 := by
    decide +kernel
  rw [hnone] at hshn
  rw [hkept, length_map, ← length_map (f := UserMessage.shown), ← hshn] at hone
  cases hone

end CodexStudy.AppServer
