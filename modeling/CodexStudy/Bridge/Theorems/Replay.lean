import CodexStudy.Bridge.Lemmas.BridgedHistory
import CodexStudy.Bridge.Theorems.ToolRouting
import Mathlib.Algebra.Order.BigOperators.Group.List
import Mathlib.Algebra.Order.Ring.Nat

/-!
# Turns of the assistant come back

The items that are given back for a completion are translated to the message of the completion again.
-/

namespace CodexStudy.Bridge

open CodexStudy.Lib List SseEvent PendingAssistantMessage DeclaredTool
open CodexStudy.ChatAgent (byteLen)

/-! ## Replayed turns -/

/-- What serde_json promises for texts and values. -/
structure SerdeJson.Lawful (serde : SerdeJson) : Prop where
  ignoresSpace : ∀ text value, serde.fromStr text = some value → serde.fromStr text.trim = some value
  readsNoBlank : ∀ text value, serde.fromStr text = some value → text.trim ≠ []

/-! ## The turn -/

structure TurnCall where
  id : Text
  name : Text
  arguments : Text

structure AssistantTurn where
  content : Option Text
  reasoning : Option Text
  calls : List TurnCall

def textOrNull (text : Option Text) : Json := text.elim .null .string

/-- The tool call has the id, the name and the arguments, which are related as given. -/
def TurnCall.SentAs (call : TurnCall) (arguments : TurnCall → Text → Prop) (toolCall : Json) : Prop :=
  toolCall.getStr "id" = some call.id ∧ ∃ function text, toolCall.get "function" = some function ∧
    function.getStr "name" = some call.name ∧ function.getStr "arguments" = some text ∧ arguments call text

/-- The message of the completion holds the turn. -/
structure AssistantTurn.IsIn (turn : AssistantTurn) (completion : Json) : Prop where
  message : ∃ choice choices message, completion.getArray "choices" = some (choice :: choices) ∧
    choice.get "message" = some message ∧
    (message.get "content").getD .null = textOrNull turn.content ∧
    (message.get "reasoning_content").getD .null = textOrNull turn.reasoning ∧
    message.get "reasoning" = none ∧
    List.Forall₂ (fun call => call.SentAs fun call text => text = call.arguments) turn.calls
      ((message.getArray "tool_calls").getD [])

/-- A message of the assistant that says what the turn says, blank texts left out. -/
structure AssistantTurn.SentAs (turn : AssistantTurn) (arguments : TurnCall → Text → Prop) (message : Json) : Prop where
  role : message.getStr "role" = some "assistant".toList
  content : message.get "content".toList = some (textOrNull (turn.content.bind nonBlank))
  reasoning : message.get "reasoning_content".toList = (turn.reasoning.bind nonBlank).map .string
  calls : List.Forall₂ (fun call => call.SentAs arguments) turn.calls ((message.getArray "tool_calls").getD [])

/-- Nothing is said and no tool is called. -/
def AssistantTurn.IsBlank (turn : AssistantTurn) : Prop :=
  turn.content.bind nonBlank = none ∧ turn.reasoning.bind nonBlank = none ∧ turn.calls = []

/-! ## The way back -/

def SseEvent.doneItem (event : SseEvent) : Option Json :=
  if event.name = "response.output_item.done" then event.data.get "item" else none

def replayBody (events : List SseEvent) : Json := .obj [("input", .array (events.filterMap doneItem))]

section

variable (serde : SerdeJson) (tools : List Json)

variable (call : TurnCall)

/-- The tool is one of the index, and the arguments are JSON of at most 32768 bytes. -/
def TurnCall.Allowed : Prop :=
  (∃ descriptor ∈ (translateTools serde (some tools)).2, descriptor.flatName = call.name) ∧
    (∃ value, serde.fromStr call.arguments = some value) ∧ byteLen call.arguments ≤ 32768

/-- Both texts are JSON of one value. -/
def SameArguments (text : Text) : Prop :=
  ∃ value, serde.fromStr call.arguments = some value ∧ serde.fromStr text = some value

/-- The arguments are those of a tool search, and serde_json writes them in more than 32768 bytes. -/
def Outgrown : Prop :=
  (∃ descriptor ∈ (translateTools serde (some tools)).2, ∃ execution, descriptor.flatName = call.name ∧
    descriptor.toolType = .toolSearch execution) ∧
  ∃ value, serde.fromStr call.arguments = some value ∧ 32768 < byteLen (serde.toText value).trim

/-- The arguments of a tool search are read again from the text that serde_json writes them in. -/
def ReadBack : Prop :=
  ∀ descriptor ∈ (translateTools serde (some tools)).2, ∀ execution, descriptor.flatName = call.name →
    descriptor.toolType = .toolSearch execution →
    ∀ value, serde.fromStr call.arguments = some value → serde.fromStr (serde.toText value) = some value

/-- The arguments stay, if they are read back; those of a tool search written in more than 32768 bytes become an empty
object. -/
def ReplayedArguments (text : Text) : Prop :=
  (Outgrown serde tools call ∧ text = emptyObject) ∨
    (¬Outgrown serde tools call ∧ (ReadBack serde tools call → SameArguments serde call text))

/-- The turn comes back as one message. -/
def Survives (completion : Json) (turn : AssistantTurn) (allowImageParts : Bool) : Prop :=
  ∃ events message, responsesEvents serde completion (translateTools serde (some tools)).2 = .ok events ∧
    translateMessages serde (replayBody events) allowImageParts = [message] ∧ turn.SentAs (SameArguments serde) message

end

variable {text : Text} {value : Json} {content reasoning : Option Text} {arguments : TurnCall → Text → Prop}

section

variable {serde : SerdeJson} {tools : List Json} {allowImageParts : Bool} {st : MessagesState}

/-! ## Arguments -/

theorem byteLen_trim_le (text : Text) : byteLen text.trim ≤ byteLen text := by
  have htrim : text.trim.Sublist text := (Text.trimEnd_isPrefix _).sublist.trans (dropWhile_sublist _)
  exact (htrim.map Char.utf8Size).sum_le_sum fun _ _ => Nat.zero_le _

variable (hserde : serde.Lawful)

include hserde in
theorem normalizeToolCallArguments_eq
    (h : serde.fromStr text = some value) :
    normalizeToolCallArguments serde text = if 32768 < byteLen text.trim then emptyObject else text.trim := by
  have hread := hserde.ignoresSpace text value h
  unfold normalizeToolCallArguments
  dsimp only
  rw [if_neg (mt List.isEmpty_iff.mp (hserde.readsNoBlank text value h)), hread]
  rfl

/-- Whether it is read or not, a text that is too long is replaced. -/
theorem normalizeToolCallArguments_of_long (h : 32768 < byteLen text.trim) :
    normalizeToolCallArguments serde text = emptyObject := by
  unfold normalizeToolCallArguments
  dsimp only
  rw [if_pos h, ite_self, ite_self]

def replayedText (serde : SerdeJson) : DeclaredTool → TurnCall → Text
  | .function _ _, call => call.arguments
  | .toolSearch _, call => serde.toText ((serde.fromStr call.arguments).getD (.obj [("query", .string call.arguments)]))

variable {tool : DeclaredTool} {call : TurnCall} {sent : List Json}

variable (hnd : ((declaredTools tools).map flatName).Nodup)

include hnd in
theorem outgrown_iff
    (htool : tool ∈ declaredTools tools) (hname : tool.flatName = call.name)
    (hval : serde.fromStr call.arguments = some value) : Outgrown serde tools call ↔
      (∃ execution, tool = .toolSearch execution) ∧ 32768 < byteLen (serde.toText value).trim := by
  unfold Outgrown
  rw [toolIndex_eq]
  constructor
  · rintro ⟨⟨descriptor, hmem, execution, hflat, htype⟩, value', hval', hlong⟩
    obtain ⟨tool', htool', rfl⟩ := mem_map.mp hmem
    obtain rfl : tool' = tool := inj_on_of_nodup_map hnd htool' htool (hflat.trans hname.symm)
    obtain rfl := Option.some.inj (hval'.symm.trans hval)
    refine ⟨?_, hlong⟩
    cases tool' with
    | function toolNamespace name => cases htype
    | toolSearch execution => exact ⟨execution, rfl⟩
  · rintro ⟨⟨execution, rfl⟩, hlong⟩
    exact ⟨⟨_, mem_map_of_mem htool, execution, hname, rfl⟩, value, hval, hlong⟩

include hserde hnd in
theorem replayedArguments
    (htool : tool ∈ declaredTools tools) (hname : tool.flatName = call.name) (hallowed : call.Allowed serde tools) :
    ReplayedArguments serde tools call (normalizeToolCallArguments serde (replayedText serde tool call)) := by
  obtain ⟨-, ⟨value, hval⟩, hshort⟩ := hallowed
  have houtgrown := outgrown_iff hnd htool hname hval
  cases tool with
  | function toolNamespace name =>
      have hfits := (byteLen_trim_le call.arguments).trans hshort
      refine .inr ⟨fun h => ?_, fun _ => ⟨value, hval, ?_⟩⟩
      · obtain ⟨⟨execution, htype⟩, -⟩ := houtgrown.mp h
        cases htype
      · unfold replayedText
        rw [normalizeToolCallArguments_eq hserde hval, if_neg (Nat.not_lt.mpr hfits)]
        exact hserde.ignoresSpace _ _ hval
  | toolSearch execution =>
      unfold replayedText
      dsimp only
      rw [hval, Option.getD_some]
      by_cases hlong : 32768 < byteLen (serde.toText value).trim
      · exact .inl ⟨houtgrown.mpr ⟨⟨execution, rfl⟩, hlong⟩, normalizeToolCallArguments_of_long hlong⟩
      · refine .inr ⟨fun h => hlong (houtgrown.mp h).2, fun hback => ⟨value, hval, ?_⟩⟩
        have hwr := hback _ (toolIndex_eq ▸ mem_map_of_mem htool) execution hname rfl value hval
        rw [normalizeToolCallArguments_eq hserde hwr, if_neg hlong]
        exact hserde.ignoresSpace _ _ hwr

/-! ## Calls -/

theorem translateItem_callItem (tool : DeclaredTool) (call : TurnCall) : st.translateItem serde allowImageParts
        (callItem serde (some tool.descriptor) call.id tool.flatName call.arguments) =
      st.setPending (st.pending.pushToolCall
        (toolCallJson serde call.id tool.flatName (replayedText serde tool call))) := by
  rw [translateItem_eq]
  cases tool with
  | toolSearch execution => rfl
  | function toolNamespace name =>
      cases toolNamespace with
      | none => rfl
      | some toolNamespace => rfl

theorem doneItem_outputItemDone (item : Json) : (outputItemDone item).doneItem = some item := rfl

theorem toolCallEvent_eq {toolCall : Json} (hsent : call.SentAs (fun call text => text = call.arguments) toolCall)
    (hnd : ((declaredTools tools).map flatName).Nodup) (htool : tool ∈ declaredTools tools)
    (hname : tool.flatName = call.name) :
    toolCallEvent serde (descriptorByName (translateTools serde (some tools)).2) toolCall =
      some (outputItemDone (callItem serde (some tool.descriptor) call.id tool.flatName call.arguments)) := by
  obtain ⟨hid, function, text, hfunction, hcalled, htext, rfl⟩ := hsent
  have harguments : toolCallArguments serde function = call.arguments := by
    obtain ⟨value, hval, hstr⟩ := Option.bind_eq_some_iff.mp htext
    unfold toolCallArguments
    rw [hval]
    cases value with
    | string written => exact Option.some.inj hstr
    | _ => cases hstr
  unfold toolCallEvent calledName
  rw [hfunction, Option.map_some, hcalled, harguments, hid]
  dsimp only [Option.getD_some]
  rw [← hname, lookup_descriptorByName hnd htool]

include hserde hnd in
theorem translateItems_calls {calls : List TurnCall} {toolCalls : List Json}
    (hsent : List.Forall₂ (fun call => call.SentAs fun call text => text = call.arguments) calls toolCalls)
    (hallowed : ∀ call ∈ calls, call.Allowed serde tools) : ∃ sent, st.translateItems serde allowImageParts
        ((toolCalls.filterMap (toolCallEvent serde (descriptorByName (translateTools serde (some tools)).2))).filterMap
          doneItem) = st.setPending { st.pending with toolCalls := st.pending.toolCalls ++ sent } ∧
      List.Forall₂ (fun call => call.SentAs (ReplayedArguments serde tools)) calls sent := by
  induction hsent generalizing st with
  | nil => exact ⟨[], by rw [append_nil]; rfl, .nil⟩
  | @cons call toolCall calls toolCalls hcall _ ih =>
      have hallowedCall := hallowed call (mem_cons_self ..)
      obtain ⟨descriptor, hdescriptor, hname⟩ := hallowedCall.1
      rw [toolIndex_eq] at hdescriptor
      obtain ⟨tool, htool, rfl⟩ := mem_map.mp hdescriptor
      have hflat : tool.flatName = call.name := hname
      obtain ⟨sent, htr, hsent⟩ := @ih
        (st.setPending (st.pending.pushToolCall
          (toolCallJson serde call.id tool.flatName (replayedText serde tool call))))
        fun call hmem => hallowed call (mem_cons_of_mem _ hmem)
      refine ⟨toolCallJson serde call.id tool.flatName (replayedText serde tool call) :: sent, ?_, ?_⟩
      · rw [filterMap_cons_some (toolCallEvent_eq hcall hnd htool hflat),
          filterMap_cons_some (doneItem_outputItemDone _), translateItems_cons, translateItem_callItem, htr]
        exact congrArg st.setPending (congrArg _ (append_assoc ..))
      · refine .cons ⟨rfl, _, _, rfl, hflat ▸ rfl, rfl, ?_⟩ hsent
        exact replayedArguments hserde hnd htool hflat hallowedCall

/-! ## Texts -/

theorem translateItems_append (input input' : List Json) :
    st.translateItems serde allowImageParts (input ++ input') =
      (st.translateItems serde allowImageParts input).translateItems serde allowImageParts input' := foldl_append

theorem join_singleton (text : Text) : Text.join newline [text] = text := append_nil text

theorem doneItems_reasoning (responseId : Text) (h : nonBlank text = some text) :
    ∃ item, (reasoningEvents responseId text).filterMap doneItem = [item] ∧ itemKind item = .reasoning ∧
      reasoningItemText item = some text := by
  have hbl : text.trim.isEmpty ≠ true := mt nonBlank_eq_none_iff.mpr (by rw [h]; simp)
  unfold reasoningEvents
  rw [if_neg hbl]
  refine ⟨_, rfl, rfl, ?_⟩
  have htexts : nonBlank (Text.join newline [text]) = some text := by rw [join_singleton, h]
  exact (congrArg (· <|> _) htexts).trans rfl

theorem translateItems_reasoning (responseId text : Text) :
    st.translateItems serde allowImageParts ((reasoningEvents responseId text).filterMap doneItem) = st.setPending
        { st.pending with reasoningParts := st.pending.reasoningParts ++ (nonBlank text).toList } := by
  cases htext : nonBlank text with
  | none =>
      unfold reasoningEvents
      rw [if_pos (nonBlank_eq_none_iff.mp htext), Option.toList_none, append_nil]
      rfl
  | some text' =>
      obtain ⟨rfl, h⟩ := nonBlank_eq_some htext
      obtain ⟨item, hits, hkind, hitem⟩ := doneItems_reasoning responseId h
      rw [hits, translateItems_cons, translateItem_eq, hkind]
      dsimp only
      rw [hitem]
      exact congrArg st.setPending (pushReasoning_eq h)

variable (allowImageParts) in
theorem doneItems_text {text : Text} (h : nonBlank text = some text) :
    ∃ item, (textEvents text).filterMap doneItem = [item] ∧ itemKind item = .message ∧
      translateMessageItem item allowImageParts = some (assistantSays text) := by
  have hblank : text.trim.isEmpty ≠ true := mt nonBlank_eq_none_iff.mpr (by rw [h]; simp)
  unfold textEvents
  rw [if_neg hblank]
  refine ⟨_, rfl, rfl, ?_⟩
  rw [translateMessageItem_eq rfl]
  have htexts : nonBlank (Text.join newline [text]) = some text := by rw [join_singleton, h]
  exact (congrArg (Option.map assistantSays) htexts).trans rfl

theorem translateItems_text (text : Text) :
    st.translateItems serde allowImageParts ((textEvents text).filterMap doneItem) =
      st.setPending { st.pending with contentParts := st.pending.contentParts ++ (nonBlank text).toList } := by
  cases htext : nonBlank text with
  | none =>
      unfold textEvents
      rw [if_pos (nonBlank_eq_none_iff.mp htext), Option.toList_none, append_nil]
      rfl
  | some text' =>
      obtain ⟨rfl, h⟩ := nonBlank_eq_some htext
      obtain ⟨item, hits, hkind, hitem⟩ := doneItems_text allowImageParts h
      rw [hits, translateItems_cons, translateItem_eq, hkind]
      dsimp only
      rw [hitem]
      exact speak_assistant st h

/-! ## The completion -/

variable {completion : Json} {turn : AssistantTurn}

theorem assistantReasoningText_eq {message : Json}
    (hrsn : (message.get "reasoning_content").getD .null = textOrNull turn.reasoning)
    (hoth : message.get "reasoning" = none) :
    nonBlank (assistantReasoningText serde message) = turn.reasoning.bind nonBlank := by
  unfold assistantReasoningText
  rw [hoth]
  cases hval : message.get "reasoning_content" with
  | none =>
      rw [hval] at hrsn
      cases hturn : turn.reasoning with
      | none => rfl
      | some text =>
          rw [hturn] at hrsn
          cases hrsn
  | some value =>
      rw [hval, Option.getD_some] at hrsn
      rw [hrsn]
      cases turn.reasoning <;> rfl

theorem assistantContentText_eq {message : Json}
    (hcont : (message.get "content").getD .null = textOrNull turn.content) :
    nonBlank (assistantContentText serde (message.get "content")) = turn.content.bind nonBlank := by
  cases hval : message.get "content" with
  | none =>
      rw [hval] at hcont
      cases hturn : turn.content with
      | none => rfl
      | some text =>
          rw [hturn] at hcont
          cases hcont
  | some value =>
      rw [hval, Option.getD_some] at hcont
      rw [hcont]
      cases turn.content <;> rfl

variable (allowImageParts) in
theorem translateItems_replay (hserde : serde.Lawful)
    (hnodup : ((declaredTools tools).map flatName).Nodup) (hturn : turn.IsIn completion)
    (hallowed : ∀ call ∈ turn.calls, call.Allowed serde tools) :
    ∃ events sent, responsesEvents serde completion (translateTools serde (some tools)).2 = .ok events ∧
      ({} : MessagesState).translateItems serde allowImageParts (events.filterMap doneItem) =
        { pending := ⟨(turn.content.bind nonBlank).toList, (turn.reasoning.bind nonBlank).toList, sent⟩ } ∧
      List.Forall₂ (fun call => call.SentAs (ReplayedArguments serde tools)) turn.calls sent := by
  obtain ⟨choice, choices, message, hchoices, hmessage, hcontent, hreasoning, hother, hcalls⟩ := hturn.message
  obtain ⟨sent, hsent, hreplayed⟩ := @translateItems_calls serde tools allowImageParts
    { pending := ⟨(turn.content.bind nonBlank).toList, (turn.reasoning.bind nonBlank).toList, []⟩ }
    hserde hnodup _ _ hcalls hallowed
  refine ⟨_, sent, responsesEvents_eq hchoices hmessage, ?_, hreplayed⟩
  have hcompleted : ∀ responseId usage endTurn, [completedEvent responseId usage endTurn].filterMap doneItem =
      [] := fun _ _ _ => rfl
  unfold messageEvents
  dsimp only
  rw [cons_append, cons_append, cons_append, filterMap_cons_none rfl, filterMap_append,
    filterMap_append, filterMap_append, hcompleted, append_nil, translateItems_append,
    translateItems_append, translateItems_reasoning, translateItems_text, assistantReasoningText_eq hreasoning hother,
    assistantContentText_eq hcontent]
  exact hsent

theorem reasoningContent_eq (hrsn : turn.reasoning.bind nonBlank = reasoning) :
    reasoningContent ⟨content.toList, reasoning.toList, sent⟩ = reasoning := by
  cases reasoning with
  | none => rfl
  | some text =>
      obtain ⟨written, -, htext⟩ := Option.bind_eq_some_iff.mp hrsn
      have hjoin : reasoningContent ⟨content.toList, (some text).toList, sent⟩ =
          nonBlank (Text.join newline [text]) := rfl
      rw [hjoin, join_singleton]
      exact (nonBlank_eq_some htext).2

theorem sentAs_message
    (hcont : turn.content.bind nonBlank = content) (hrsn : turn.reasoning.bind nonBlank = reasoning)
    (hcs : List.Forall₂ (fun call => call.SentAs arguments) turn.calls sent) :
    turn.SentAs arguments (message ⟨content.toList, reasoning.toList, sent⟩) := by
  constructor
  case role => rfl
  case content =>
    rw [hcont]
    cases content with
    | none => rfl
    | some text => exact congrArg (some ∘ Json.string) (join_singleton text)
  case reasoning =>
    rw [hrsn]
    unfold message
    rw [reasoningContent_eq hrsn]
    cases sent <;> cases reasoning <;> rfl
  case calls =>
    unfold message
    rw [reasoningContent_eq hrsn]
    cases sent with
    | cons toolCall sent => exact hcs
    | nil => cases reasoning <;> exact hcs

theorem isEmpty_iff_isBlank
    (hsent : List.Forall₂ (fun call => call.SentAs arguments) turn.calls sent) : PendingAssistantMessage.isEmpty
      ⟨(turn.content.bind nonBlank).toList, (turn.reasoning.bind nonBlank).toList, sent⟩ = true ↔ turn.IsBlank := by
  have hcs : sent = [] ↔ turn.calls = [] := by
    constructor
    · rintro rfl
      exact List.forall₂_nil_right_iff.mp hsent
    · intro hnone
      rw [hnone] at hsent
      exact List.forall₂_nil_left_iff.mp hsent
  unfold PendingAssistantMessage.isEmpty AssistantTurn.IsBlank
  simp only [Bool.and_eq_true, List.isEmpty_iff, Option.toList_eq_nil_iff, hcs, and_assoc]

theorem translateMessages_replayBody {events : List SseEvent} {pending : PendingAssistantMessage}
    (h : ({} : MessagesState).translateItems serde allowImageParts (events.filterMap doneItem) =
      { pending := pending }) :
    translateMessages serde (replayBody events) allowImageParts = pending.takeMessage.toList := by
  have hmsgs : translateMessages serde (replayBody events) allowImageParts =
      (({} : MessagesState).translateItems serde allowImageParts
        (events.filterMap doneItem)).flush.messages := rfl
  rw [hmsgs, h]
  exact nil_append _

theorem nodup_of_distinct (hdist : ((translateTools serde (some tools)).2.map CompatToolDescriptor.flatName).Nodup) :
    ((declaredTools tools).map flatName).Nodup := by
  rw [toolIndex_eq, map_map] at hdist
  exact hdist

end

@[irreducible] def letters : Text := replicate 32760 'a'

def numberAndText (number : Text) : Text := '[' :: (number ++ ",\"" ++ letters ++ ['"']) ++ [']']

def searchValue : Json := .array [.float "1000000000.0", .string letters]

/-- Reads the number `1e9`, writes it as `1000000000.0`, and reads and writes the empty object. -/
def searchSerde : SerdeJson where
  toText value :=
    match value with
    | .array _ => numberAndText "1000000000.0"
    | _ => emptyObject
  fromStr text :=
    if text = numberAndText "1e9" ∨ text = numberAndText "1000000000.0" then
      some searchValue
    else if text = emptyObject then some (.object [])
    else none

theorem trim_numberAndText (number : Text) : (numberAndText number).trim = numberAndText number := by
  have hhead : (numberAndText number).head? = some '[' := rfl
  rw [Text.trim_eq_trimEnd hhead rfl]
  exact rdropWhile_concat_neg _ _ _ (by decide)

theorem byteLen_append (text text' : Text) : byteLen (text ++ text') = byteLen text + byteLen text' := by
  unfold byteLen
  rw [map_append, sum_append]

theorem byteLen_numberAndText (number : Text) : byteLen (numberAndText number) = byteLen number + 32765 := by
  have hletters : byteLen letters = 32760 := by
    unfold byteLen letters
    rw [map_replicate, sum_replicate]
    rfl
  have hspl : numberAndText number =
      ['['] ++ (number ++ ",\"" ++ letters ++ ['"']) ++ [']'] := rfl
  rw [hspl, byteLen_append, byteLen_append, byteLen_append, byteLen_append, byteLen_append, hletters]
  have hends : byteLen ['['] = 1 ∧ byteLen ",\"" = 2 ∧ byteLen ['"'] = 1 ∧ byteLen [']'] = 1 := by decide
  omega

theorem numberAndText_ne_emptyObject (number : Text) : numberAndText number ≠ emptyObject := fun h => by cases h

theorem fromStr_searchArguments : searchSerde.fromStr (numberAndText "1e9") = some searchValue := by
  unfold searchSerde
  exact if_pos (.inl rfl)

theorem fromStr_emptyObject : searchSerde.fromStr emptyObject = some (.object []) := by
  have hne : ¬(emptyObject = numberAndText "1e9" ∨ emptyObject = numberAndText "1000000000.0") := by
    rintro (h | h)
    · exact numberAndText_ne_emptyObject _ h.symm
    · exact numberAndText_ne_emptyObject _ h.symm
  unfold searchSerde
  dsimp only
  rw [if_neg hne, if_pos rfl]

theorem fromStr_cases (h : searchSerde.fromStr text = some value) :
    (∃ number, text = numberAndText number) ∧ value = searchValue ∨ text = emptyObject ∧ value = .object [] := by
  unfold searchSerde at h
  dsimp only at h
  split at h
  next htext =>
    cases h
    rcases htext with htext | htext
    · exact .inl ⟨⟨_, htext⟩, rfl⟩
    · exact .inl ⟨⟨_, htext⟩, rfl⟩
  next =>
    split at h
    next htext =>
      cases h
      exact .inr ⟨htext, rfl⟩
    next => cases h

theorem searchSerde_lawful : searchSerde.Lawful := by
  constructor
  case ignoresSpace =>
    intro text value h
    rcases fromStr_cases h with ⟨⟨number, rfl⟩, -⟩ | ⟨rfl, -⟩
    · rwa [trim_numberAndText]
    · exact h
  case readsNoBlank =>
    intro text value h
    rcases fromStr_cases h with ⟨⟨number, rfl⟩, -⟩ | ⟨rfl, -⟩
    · rw [trim_numberAndText]
      exact cons_ne_nil _ _
    · decide

def searchCall : TurnCall := ⟨"call_1", "tool_search", numberAndText "1e9"⟩

def searchTools : List Json := [.obj [("type", .str "tool_search")]]

def completionOf (fields : List (String × Json)) : Json :=
  .obj [("choices", .array [.obj [("message",
    .obj ([("role", .str "assistant"), ("content", .null)] ++ fields))]])]

def searchCompletion : Json :=
  completionOf [("tool_calls", .array [.obj [("id", .string searchCall.id), ("type", .str "function"),
    ("function", .obj [("name", .string searchCall.name), ("arguments", .string searchCall.arguments)])]])]

theorem searchCompletion_isIn : AssistantTurn.IsIn ⟨none, none, [searchCall]⟩ searchCompletion :=
  ⟨_, _, _, rfl, rfl, rfl, rfl, rfl, .cons ⟨rfl, _, _, rfl, rfl, rfl, rfl⟩ .nil⟩

theorem searchCall_allowed : ∀ call ∈ [searchCall], call.Allowed searchSerde searchTools := by
  intro call hcall
  obtain rfl := mem_singleton.mp hcall
  refine ⟨⟨_, mem_singleton_self _, rfl⟩, ⟨_, fromStr_searchArguments⟩, ?_⟩
  exact (byteLen_numberAndText _).le

theorem searchCall_outgrown : Outgrown searchSerde searchTools searchCall := by
  refine ⟨⟨_, mem_singleton_self _, _, rfl, rfl⟩, _, fromStr_searchArguments, ?_⟩
  have hwr : searchSerde.toText searchValue = numberAndText "1000000000.0" := rfl
  have hnumber : byteLen "1000000000.0" = 12 := by decide
  rw [hwr, trim_numberAndText, byteLen_numberAndText, hnumber]
  decide

theorem searchTools_distinct :
    ((translateTools searchSerde (some searchTools)).2.map CompatToolDescriptor.flatName).Nodup :=
  nodup_singleton _

def shellTurn : AssistantTurn :=
  ⟨some "Listing.", some "Look first.",
    [⟨"call_1", "shell", emptyObject⟩, ⟨"call_2", "tool_search", emptyObject⟩]⟩

def shellCompletion : Json :=
  .obj [("choices", .array [.obj [("message", .obj [("content", .str "Listing."),
    ("reasoning_content", .str "Look first."), ("tool_calls", .array (shellTurn.calls.map fun call =>
      .obj [("id", .string call.id),
        ("function", .obj [("name", .string call.name), ("arguments", .string call.arguments)])]))])]])]

def shellTools : List Json := .obj [("type", .str "function"), ("name", .str "shell")] :: searchTools

end CodexStudy.Bridge
