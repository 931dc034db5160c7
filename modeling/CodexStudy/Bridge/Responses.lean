import CodexStudy.ChatAgent.Protocol
import CodexStudy.Lib.Json
import CodexStudy.Lib.HashMap

/-!
# The response of a bridged request (`provider_compat_bridge.rs`)

The completion of the provider is given back as the events of a Responses stream.
-/

namespace CodexStudy.Bridge

open CodexStudy.Lib Json
open CodexStudy.ChatAgent (byteLen)

/-!
## Tools of a bridged request (`provider_compat_bridge.rs`)

The settings, which the source passes on to `sanitize_tool_parameters` unread, are left out.
-/

structure SerdeJson where
  toText : Json → Text
  fromStr : Text → Option Json

def TOOL_SEARCH_FLAT_NAME : Text := "tool_search"

def SHELL_COMMAND_FLAT_NAME : Text := "shell_command"

def MAX_COMPAT_TOOL_OUTPUT_CHARS : Nat := 12000

def MAX_COMPAT_TOOL_SCHEMA_CHARS : Nat := 8192

def MAX_COMPAT_TOOL_SCHEMA_DEPTH : Nat := 8

inductive CompatToolType where
  | function
  | toolSearch (execution : Text)

structure CompatToolDescriptor where
  flatName : Text
  name : Text
  toolNamespace : Option Text
  toolType : CompatToolType

/-! ## Flat names -/

def sanitizeFunctionName (raw : Text) : Text :=
  let sanitized := raw.trim.map fun ch => if ch.isAlphanum || ch == '_' || ch == '-' then ch else '_'
  if sanitized.isEmpty then "tool" else sanitized.take 64

def flattenToolName (toolNamespace : Option Text) (name : Text) : Text :=
  let raw :=
    match toolNamespace.filter fun value => !value.trim.isEmpty with
    | some toolNamespace => toolNamespace ++ "__" ++ name
    | none => name
  sanitizeFunctionName raw

/-! ## Parameters -/

def truncateCompatText (text : Text) (maxChars : Nat) : Text :=
  if text.length ≤ maxChars then text else text.take maxChars

def anyObject : Json := .obj [("type", .str "object"), ("properties", .object []), ("additionalProperties", .bool true)]

def sanitizeJsonSchemaItems (sanitizeJsonSchema : Json → Json) (value : Json) : Json :=
  match value with
  | .object map =>
      if (map.lookup "type".toList).isSome || (map.lookup "properties".toList).isSome then sanitizeJsonSchema value
      else .obj [("type", .str "string")]
  | .array (first :: _) => sanitizeJsonSchema first
  | _ => .obj [("type", .str "string")]

def sanitizeJsonSchema : (depthLeft : Nat) → Json → Json
  | 0, _ => .obj [("type", .str "object"), ("additionalProperties", .bool true)]
  | depthLeft + 1, .object map =>
      let value : Json := .object map
      let declaredType := (value.getStr "type").map fun text => ("type".toList, string text)
      let description := (value.getStr "description").map fun text =>
        ("description".toList, string (truncateCompatText text 512))
      let enum := (value.get "enum".toList).map fun enum => ("enum".toList, enum)
      let properties := ((value.get "properties".toList).bind asObject).map fun properties =>
        ("properties".toList, object (properties.map fun (key, property) =>
          (key, sanitizeJsonSchema depthLeft property)))
      let required := (value.getArray "required").bind fun values =>
        let required := values.filterMap asStr
        if required.isEmpty then none else some ("required".toList, array (required.map .string))
      let items := (value.get "items".toList).map fun items =>
        ("items".toList, sanitizeJsonSchemaItems (sanitizeJsonSchema depthLeft) items)
      let inferredType :=
        if declaredType.isSome then none
        else if properties.isNone && items.isSome then some ("type".toList, str "array")
        else some ("type".toList, str "object")
      let sanitized := declaredType.toList ++ description.toList ++ enum.toList ++ properties.toList ++
        required.toList ++ items.toList ++ inferredType.toList
      let isObject := (object sanitized).getStr "type" == some "object".toList
      let noProperties := if isObject && properties.isNone then [("properties".toList, object [])] else []
      .object (sanitized ++ noProperties ++ [("additionalProperties".toList, .bool true)])
  | _ + 1, _ => anyObject

variable (serde : SerdeJson)

def sanitizeToolParameters (parameters : Json) : Json :=
  let parsed :=
    match parameters with
    | .string raw => (serde.fromStr raw).getD anyObject
    | other => other
  let sanitized := sanitizeJsonSchema (MAX_COMPAT_TOOL_SCHEMA_DEPTH + 1) parsed
  if byteLen (serde.toText sanitized) > MAX_COMPAT_TOOL_SCHEMA_CHARS then anyObject else sanitized

/-! ## Translation -/

def functionTool (toolNamespace : Option Text) (tool : Json) :
    Option (CompatToolDescriptor × Json) :=
  (tool.getStr "name").bind fun name =>
    let name := name.trim
    if name.isEmpty then none
    else
      let flatName := flattenToolName toolNamespace name
      some (⟨flatName, name, toolNamespace, .function⟩,
        .obj [("type", .str "function"), ("function", .obj [
          ("name", .string flatName),
          ("description", (tool.get "description").getD (.str "")),
          ("parameters", sanitizeToolParameters serde ((tool.get "parameters").getD anyObject))])])

def toolSearchTool (tool : Json) : CompatToolDescriptor × Json :=
  (⟨TOOL_SEARCH_FLAT_NAME, TOOL_SEARCH_FLAT_NAME, none,
      .toolSearch ((tool.getStr "execution").getD "client")⟩,
    .obj [("type", .str "function"), ("function", .obj [
      ("name", .string TOOL_SEARCH_FLAT_NAME),
      ("description", (tool.get "description").getD (.str "Search deferred tools.")),
      ("parameters", sanitizeToolParameters serde ((tool.get "parameters").getD anyObject))])])

def translateTool (tool : Json) : List (CompatToolDescriptor × Json) :=
  match tool.getStr "type" with
  | none => []
  | some type =>
      if type = "function" then (functionTool serde none tool).toList
      else if type = "namespace" then
        ((tool.getArray "tools").getD []).filterMap (functionTool serde (tool.getStr "name"))
      else if type = "tool_search" then [toolSearchTool serde tool]
      else []

def translateTools (tools : Option (List Json)) : List Json × List CompatToolDescriptor :=
  let pairs := (tools.getD []).flatMap (translateTool serde)
  (pairs.map Prod.snd, pairs.map Prod.fst)

/-! ## Texts of a message -/

def newline : Text := ['\n']

def itemText (item : Json) : Option Text := item.getStr "text" <|> item.getStr "content"

def assistantContentText : Option Json → Text
  | some (.string text) => text
  | some (.array items) => Text.join newline (items.filterMap itemText)
  | some (.object fields) => ((object fields).getStr "text").getD []
  | some .null | none => []
  | some other => serde.toText other

def nonBlank (text : Text) : Option Text := if text.trim.isEmpty then none else some text

def valueText : Option Json → Option Text
  | some (.string text) => some text
  | some (.array items) => nonBlank (Text.join newline (items.filterMap itemText))
  | some (.object fields) => ((object fields).getStr "text").bind nonBlank
  | some .null | none => none
  | some other => nonBlank (serde.toText other)

def assistantReasoningText (message : Json) : Text :=
  (valueText serde (message.get "reasoning_content") <|>
    valueText serde (message.get "reasoning")).getD []

/-! ## Usage -/

/-- The sum of two integers of 64 bits, which wraps around. -/
def i64Add (a b : Int) : Int := (a + b).bmod (2 ^ 64)

def usageValue : Option Json → Json
  | none => .null
  | some usage =>
      let count := fun (value : Json) (key : String) => (value.get key.toList).bind asI64
      let inputTokens := (count usage "prompt_tokens").getD 0
      let outputTokens := (count usage "completion_tokens").getD 0
      let totalTokens := (count usage "total_tokens").getD (i64Add inputTokens outputTokens)
      let cachedTokens :=
        ((usage.get "prompt_tokens_details").bind fun details => count details "cached_tokens").getD 0
      let reasoningTokens :=
        ((usage.get "completion_tokens_details").bind fun details => count details "reasoning_tokens").getD 0
      .obj [
        ("input_tokens", .int inputTokens),
        ("input_tokens_details", .obj [("cached_tokens", .int cachedTokens)]),
        ("output_tokens", .int outputTokens),
        ("output_tokens_details", .obj [("reasoning_tokens", .int reasoningTokens)]),
        ("total_tokens", .int totalTokens)]

/-! ## Events -/

structure SseEvent where
  name : String
  data : Json

def outputItemDone (item : Json) : SseEvent :=
  ⟨"response.output_item.done", .obj [("type", .str "response.output_item.done"), ("item", item)]⟩

def createdEvent (responseId : Text) (model : Option Text) : SseEvent :=
  ⟨"response.created", .obj [("type", .str "response.created"), ("response", .obj
    (("id", .string responseId) ::
      (model.map fun model => ("headers", obj [("openai-model", .string model)])).toList))]⟩

def reasoningEvents (responseId reasoningText : Text) : List SseEvent :=
  if reasoningText.trim.isEmpty then []
  else
    let item := fun (summary : Json) (content : List (String × Json)) =>
      obj ([("type", .str "reasoning"), ("id", .string (responseId ++ "-reasoning")),
        ("summary", summary)] ++ content)
    let summary := array [.obj [("type", .str "summary_text"), ("text", .str "")]]
    [⟨"response.output_item.added",
        .obj [("type", .str "response.output_item.added"), ("item", item summary [])]⟩,
      outputItemDone (item summary
        [("content", .array [.obj [("type", .str "reasoning_text"), ("text", .string reasoningText)]])])]

def textEvents (text : Text) : List SseEvent :=
  if text.trim.isEmpty then []
  else [outputItemDone (.obj [("type", .str "message"), ("role", .str "assistant"),
    ("content", .array [.obj [("type", .str "output_text"), ("text", .string text)]])])]

variable (completion : Json) (toolIndex : List CompatToolDescriptor)

def descriptorByName : HashMap Text CompatToolDescriptor :=
  toolIndex.foldl (fun byName descriptor => byName.insert descriptor.flatName descriptor) ∅

def toolCallArguments (function : Json) : Text :=
  match function.get "arguments" with
  | some (.string text) => text
  | some value => serde.toText value
  | none => "\x7b\x7d"

def calledName (function : Json) : Text := (function.getStr "name").getD SHELL_COMMAND_FLAT_NAME

def callItem (descriptor : Option CompatToolDescriptor) (callId flatName arguments : Text) : Json :=
  match descriptor with
  | some ⟨_, _, _, .toolSearch execution⟩ =>
      .obj [("type", .str "tool_search_call"), ("call_id", .string callId), ("execution", .string execution),
        ("arguments", (serde.fromStr arguments).getD (.obj [("query", .string arguments)]))]
  | some ⟨_, name, toolNamespace, .function⟩ =>
      .obj ([("type", .str "function_call"), ("call_id", .string callId), ("name", .string name),
        ("arguments", .string arguments)] ++
        (toolNamespace.map fun toolNamespace => ("namespace", string toolNamespace)).toList)
  | none =>
      .obj [("type", .str "function_call"), ("call_id", .string callId), ("name", .string flatName),
        ("arguments", .string arguments)]

def toolCallEvent (byName : HashMap Text CompatToolDescriptor) (toolCall : Json) :
    Option SseEvent :=
  (toolCall.get "function").map fun function =>
    let flatName := calledName function
    outputItemDone (callItem serde (byName.lookup flatName) ((toolCall.getStr "id").getD "compat-call") flatName
      (toolCallArguments serde function))

def completedEvent (responseId : Text) (usage : Json) (endTurn : Bool) : SseEvent :=
  ⟨"response.completed", .obj [("type", .str "response.completed"), ("response",
    .obj [("id", .string responseId), ("usage", usage), ("end_turn", .bool endTurn)])]⟩

def SseEvent.text (event : SseEvent) : Text :=
  "event: " ++ event.name.toList ++ newline ++ "data: " ++ serde.toText event.data ++ "\n\n"

def messageEvents (message : Json) :
    List SseEvent :=
  let responseId := (completion.getStr "id").getD "compat-response"
  let toolCalls := (message.getArray "tool_calls").getD []
  createdEvent responseId (completion.getStr "model") ::
    reasoningEvents responseId (assistantReasoningText serde message) ++
    textEvents (assistantContentText serde (message.get "content")) ++
    toolCalls.filterMap (toolCallEvent serde (descriptorByName toolIndex)) ++
    [completedEvent responseId (usageValue (completion.get "usage")) toolCalls.isEmpty]

def responsesEvents :
    Except Text (List SseEvent) :=
  match (completion.getArray "choices").bind List.head? with
  | none => .error "Upstream response did not include any choices."
  | some choice =>
      match choice.get "message" with
      | none => .error "Upstream response did not include a message."
      | some message => .ok (messageEvents serde completion toolIndex message)

def buildResponsesSse :
    Except Text Text :=
  (responsesEvents serde completion toolIndex).map fun events => events.flatMap (SseEvent.text serde)

end CodexStudy.Bridge
