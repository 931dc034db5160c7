import CodexStudy.Lib.Answers
import CodexStudy.Bridge.Responses

/-!
# The messages of a bridged request (`provider_compat_bridge.rs`)

The input items become chat messages.
-/

namespace CodexStudy.Bridge

open CodexStudy.Lib
open CodexStudy.Lib.Text (join)
open CodexStudy.ChatAgent (byteLen)

def emptyObject : Text := "\x7b\x7d"

/-! ## Outputs of tools -/

def truncateCompatToolOutput (text : Text) : Text :=
  let trimmed := text.trim
  if trimmed.isEmpty then []
  else if byteLen trimmed ≤ MAX_COMPAT_TOOL_OUTPUT_CHARS then text
  else
    let looksLikeBase64 := 256 < byteLen trimmed &&
      trimmed.all fun ch => ch.isAlphanum || ['+', '/', '=', '\n', '\r'].contains ch
    if looksLikeBase64 then
      "[Tool output omitted: screenshot/binary payload was too large for this model provider.]"
    else
      truncateCompatText trimmed MAX_COMPAT_TOOL_OUTPUT_CHARS ++
        "\n\n[Tool output truncated for model provider compatibility.]"

variable (serde : SerdeJson) (item : Json)

def outputPayloadText (output : Json) : Text :=
  truncateCompatToolOutput <|
    match output with
    | .string text => text
    | .array items => join newline (items.filterMap (·.getStr "text"))
    | .object _ => (output.getStr "content").getD (serde.toText output)
    | .null => []
    | _ => serde.toText output

def toolMessage (callId content : Text) : Json :=
  .obj [("role", .str "tool"), ("tool_call_id", .string callId), ("content", .string content)]

def toolSearchContent : Text :=
  serde.toText (.obj [
    ("status", (item.get "status").getD (.str "completed")),
    ("execution", (item.get "execution").getD (.str "client")),
    ("tools", (item.get "tools").getD (.array []))])

/-! ## Tool calls -/

def normalizeToolCallArguments (arguments : Text) : Text :=
  let trimmed := arguments.trim
  if trimmed.isEmpty then emptyObject
  else if (serde.fromStr trimmed).isSome then
    if byteLen trimmed > 32768 then emptyObject else trimmed
  else emptyObject

def toolCallJson (callId flatName arguments : Text) : Json :=
  .obj [("id", .string callId), ("type", .str "function"), ("function", .obj [
    ("name", .string flatName), ("arguments", .string (normalizeToolCallArguments serde arguments))])]

/-! ## Messages -/

def textOnlyImagePlaceholder : Text :=
  "[Image omitted: this thread is currently being translated for a text-only model.]"

def textPart (text : Text) : Json := .obj [("type", .str "text"), ("text", .string text)]

def userPart (allowImageParts : Bool) (entry : Json) : Option Json :=
  match entry.getStr "type" with
  | none => none
  | some type =>
      if type = "input_text" ∨ type = "output_text" then (entry.getStr "text").map textPart
      else if type = "input_image" then
        if allowImageParts then
          (entry.getStr "image_url").map fun url =>
            .obj [("type", .str "image_url"), ("image_url", .obj [("url", .string url)])]
        else some (textPart textOnlyImagePlaceholder)
      else none

/-- What a message says, with the role that it has upstream. -/
structure Spoken where
  role : Text
  content : Json

def userContent (allowImageParts : Bool) (content : List Json) : Option Json :=
  match content.filterMap (userPart allowImageParts) with
  | [] => none
  | [part] =>
      if part.getStr "type" = some "text".toList then
        match part.getStr "text" with
        | some text => some (.string text)
        | none => some (.array [part])
      else some (.array [part])
  | parts => some (.array parts)

def translateMessageItem (allowImageParts : Bool) : Option Spoken :=
  match item.getStr "role", item.getArray "content" with
  | some role, some content =>
      let role := if role = "developer".toList then "system".toList else role
      if role = "user".toList then (userContent allowImageParts content).map fun content => ⟨role, content⟩
      else
        let text := join newline (content.filterMap (·.getStr "text"))
        if text.trim.isEmpty then none else some ⟨role, .string text⟩
  | _, _ => none

def Spoken.message (spoken : Spoken) : Json :=
  .obj [("role", .string spoken.role), ("content", spoken.content)]

def reasoningItemText : Option Text :=
  let texts := fun (key : String) =>
    ((item.getArray key).map fun entries => join newline (entries.filterMap (·.getStr "text"))).bind nonBlank
  texts "content" <|> texts "summary"

/-! ## The pending message -/

structure PendingAssistantMessage where
  contentParts : List Text := []
  reasoningParts : List Text := []
  toolCalls : List Json := []

namespace PendingAssistantMessage

variable (pending : PendingAssistantMessage)

def pushContent (content : Option Text) : PendingAssistantMessage :=
  match content.bind nonBlank with
  | some content => { pending with contentParts := pending.contentParts ++ [content] }
  | none => pending

def pushReasoning (reasoning : Text) : PendingAssistantMessage :=
  match nonBlank reasoning with
  | some reasoning => { pending with reasoningParts := pending.reasoningParts ++ [reasoning] }
  | none => pending

def pushToolCall (toolCall : Json) : PendingAssistantMessage :=
  { pending with toolCalls := pending.toolCalls ++ [toolCall] }

def isEmpty : Bool := pending.contentParts.isEmpty && pending.reasoningParts.isEmpty && pending.toolCalls.isEmpty

def content : Json :=
  if pending.contentParts.isEmpty then .null else .string (join newline pending.contentParts)

def reasoningContent : Option Text :=
  if pending.reasoningParts.isEmpty then none else nonBlank (join newline pending.reasoningParts)

def message : Json :=
  .obj ([("role", .str "assistant"), ("content", pending.content)] ++
    (if pending.toolCalls.isEmpty then [] else [("tool_calls", .array pending.toolCalls)]) ++
    (pending.reasoningContent.map fun text => ("reasoning_content", Json.string text)).toList)

def takeMessage : Option Json := if pending.isEmpty then none else some pending.message

end PendingAssistantMessage

/-! ## The items one after the other -/

structure MessagesState where
  messages : List Json := []
  pending : PendingAssistantMessage := {}

namespace MessagesState

variable (st : MessagesState)

def flush : MessagesState := { messages := st.messages ++ st.pending.takeMessage.toList }

def push (message : Json) : MessagesState := { st with messages := st.messages ++ [message] }

def setPending (pending : PendingAssistantMessage) : MessagesState := { st with pending := pending }

def callTool (serde : SerdeJson) (item : Json) (flatName arguments : Text) : MessagesState :=
  match item.getStr "call_id" with
  | some callId => st.setPending (st.pending.pushToolCall (toolCallJson serde callId flatName arguments))
  | none => st

def answerTool (item : Json) (content : Text) : MessagesState :=
  match item.getStr "call_id" with
  | some callId => st.flush.push (toolMessage callId content)
  | none => st.flush

def speak (spoken : Spoken) : MessagesState :=
  if spoken.role = "assistant" then
    st.setPending (st.pending.pushContent (nonBlank (spoken.content.asStr.getD [])))
  else st.flush.push spoken.message

/-- The item is passed over when its type is not one of these, as that of a custom tool call. -/
def translateItem (serde : SerdeJson) (allowImageParts : Bool) (item : Json) : MessagesState :=
  match item.getStr "type" with
  | none => st
  | some type =>
      if type = "reasoning" then
        match reasoningItemText item with
        | some text => st.setPending (st.pending.pushReasoning text)
        | none => st
      else if type = "message" then
        match translateMessageItem item allowImageParts with
        | some spoken => st.speak spoken
        | none => st
      else if type = "function_call" then
        st.callTool serde item
          (flattenToolName (item.getStr "namespace") ((item.getStr "name").getD SHELL_COMMAND_FLAT_NAME))
          ((item.getStr "arguments").getD emptyObject)
      else if type = "tool_search_call" then
        st.callTool serde item TOOL_SEARCH_FLAT_NAME
          (serde.toText ((item.get "arguments").getD (.object [])))
      else if type = "local_shell_call" then
        st.callTool serde item SHELL_COMMAND_FLAT_NAME (serde.toText ((item.get "action").getD .null))
      else if type = "function_call_output" ∨ type = "custom_tool_call_output" then
        st.answerTool item (outputPayloadText serde ((item.get "output").getD .null))
      else if type = "tool_search_output" then st.answerTool item (toolSearchContent serde item)
      else st

def translateItems (serde : SerdeJson) (allowImageParts : Bool) (input : List Json) : MessagesState :=
  input.foldl (fun st item => st.translateItem serde allowImageParts item) st

end MessagesState

def instructionsOf (body : Json) : Option Text :=
  (body.getStr "instructions").bind fun value => if value.trim.isEmpty then none else some value.trim

def translateMessages (body : Json) (allowImageParts : Bool) : List Json :=
  let messages := (instructionsOf body).toList.map fun text => Spoken.message ⟨"system", .string text⟩
  match body.getArray "input" with
  | none => messages
  | some input => (({ messages } : MessagesState).translateItems serde allowImageParts input).flush.messages

/-! ## Batches of calls -/

inductive ItemKind where
  | reasoning
  | message
  | functionCall
  | toolSearchCall
  | localShellCall
  | customToolCall
  | functionOutput
  | toolSearchOutput
  | other
  deriving DecidableEq

def itemKind : ItemKind :=
  match item.getStr "type" with
  | none => .other
  | some type =>
      if type = "reasoning" then .reasoning
      else if type = "message" then .message
      else if type = "function_call" then .functionCall
      else if type = "tool_search_call" then .toolSearchCall
      else if type = "local_shell_call" then .localShellCall
      else if type = "function_call_output" ∨ type = "custom_tool_call_output" then .functionOutput
      else if type = "tool_search_output" then .toolSearchOutput
      else if type = "custom_tool_call" then .customToolCall
      else .other

def ItemKind.isCall : ItemKind → Bool
  | functionCall | toolSearchCall | localShellCall | customToolCall => true
  | _ => false

def ItemKind.isOutput : ItemKind → Bool
  | functionOutput | toolSearchOutput => true
  | _ => false

def callIdOf : Option Text := if (itemKind item).isCall then item.getStr "call_id" else none

/-- The calls that wait for their outputs, and whether an output of their batch has come. -/
structure Batch where
  awaiting : List Text := []
  answering : Bool := false
  deriving DecidableEq

def Batch.next (batch : Batch) (item : Json) : Option Batch :=
  if (itemKind item).isCall then
    if batch.answering = true ∧ batch.awaiting ≠ [] then none
    else (item.getStr "call_id").map fun id => { awaiting := batch.awaiting ++ [id], answering := false }
  else if (itemKind item).isOutput then
    (item.getStr "call_id").bind fun id =>
      if id ∈ batch.awaiting then some { awaiting := batch.awaiting.erase id, answering := true } else none
  else if itemKind item = .message then
    match item.getStr "role" with
    | none => some batch
    | some role =>
        if role = "assistant".toList then some batch
        else if ["user".toList, "system".toList, "developer".toList].contains role && batch.awaiting.isEmpty then
          some batch
        else none
  else some batch

/-- The calls have different ids, and each batch of calls is followed by one output for each of its calls. -/
structure WellPaired (input : List Json) : Prop where
  paired : ∃ batch, input.foldlM Batch.next {} = some batch ∧ batch.awaiting = []
  unique : (input.filterMap callIdOf).Nodup

/-! ## Transcripts -/

/-- What a chat message calls or answers. -/
def entryOf (message : Json) : LogEntry (Option Text) :=
  match message.getStr "role" with
  | none => .other
  | some role =>
      if role = "tool" then .answer (message.getStr "tool_call_id")
      else if role = "assistant" then
        .calls (((message.getArray "tool_calls").getD []).map (·.getStr "id"))
      else .other

/-- What a chat message says, if it is not the output of a tool. -/
def saidIn (message : Json) : Option Spoken :=
  match message.getStr "role", message.get "content" with
  | _, none | none, _ | _, some .null => none
  | some role, some content => if role = "tool" then none else some ⟨role, content⟩

def assistantSays (text : Text) : Spoken := ⟨"assistant", .string text⟩

/-- The same is said in the same order, but texts of the assistant may have been joined by line feeds. -/
inductive Merged : List Spoken → List Spoken → Prop where
  | nil : Merged [] []
  | alone {said merged : List Spoken} (spoken : Spoken) : Merged said merged →
      Merged (said ++ [spoken]) (merged ++ [spoken])
  | joined {said merged : List Spoken} (texts : List Text) : texts ≠ [] → Merged said merged →
      Merged (said ++ texts.map assistantSays) (merged ++ [assistantSays (join newline texts)])

section

variable (serde : SerdeJson) (allowImageParts : Bool)

def saidBy (item : Json) : Option Spoken :=
  if itemKind item = .message then translateMessageItem item allowImageParts else none

def bringsText (item : Json) : Bool :=
  match itemKind item with
  | .reasoning => (reasoningItemText item).isSome
  | .message => (translateMessageItem item allowImageParts).any fun spoken => spoken.role == "assistant".toList
  | _ => false

/-- No item brings a text while a batch has some but not all of its outputs. -/
def Undisturbed : Batch → List Json → Prop
  | _, [] => True
  | batch, item :: input =>
      (batch.answering = true → batch.awaiting ≠ [] → bringsText allowImageParts item = false) ∧
        ∀ next, batch.next item = some next → Undisturbed next input

instance decidableUndisturbed (batch : Batch) : (input : List Json) → Decidable (Undisturbed allowImageParts batch input)
  | [] => .isTrue trivial
  | item :: input =>
      match hnext : batch.next item with
      | none => decidable_of_iff
          (batch.answering = true → batch.awaiting ≠ [] → bringsText allowImageParts item = false)
          ⟨fun h => ⟨h, fun next hsome => by rw [hnext] at hsome; cases hsome⟩, And.left⟩
      | some next =>
          have := decidableUndisturbed next input
          decidable_of_iff
            ((batch.answering = true → batch.awaiting ≠ [] → bringsText allowImageParts item = false) ∧
              Undisturbed allowImageParts next input)
            (and_congr_right fun _ => ⟨fun h _ hsome => Option.some.inj (hnext.symm.trans hsome) ▸ h,
              fun h => h next hnext⟩)

def inputOf (body : Json) : List Json := (body.getArray "input").getD []

def saidInRequest (body : Json) : List Spoken :=
  ((instructionsOf body).toList.map fun text => ⟨"system", .string text⟩) ++
    (inputOf body).filterMap (saidBy allowImageParts)

/-- The tool calls of the transcript are answered, and everything is said in the order of the request. -/
structure ValidTranscript (body : Json) : Prop where
  answered : LogEntry.Answered ((translateMessages serde body allowImageParts).map entryOf)
  inOrder : Merged (saidInRequest allowImageParts body)
    ((translateMessages serde body allowImageParts).filterMap saidIn)

end

end CodexStudy.Bridge
