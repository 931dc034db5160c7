import CodexStudy.Lib.Text

/-!
# The history of a conversation

The history records the items that the model has to see, is replaced when it is compacted, and loses its
newest user turns when the thread is rolled back.
-/

namespace CodexStudy.Core

open CodexStudy.Lib

/-! ## Response items -/

inductive ImageDetail where
  | auto
  | low
  | high
  | original
  deriving DecidableEq

inductive ContentItem where
  | inputText (text : Text)
  | inputImage (imageUrl : Text) (detail : Option ImageDetail)
  | outputText (text : Text)
  deriving DecidableEq

inductive FunctionCallOutputContentItem where
  | inputText (text : Text)
  | inputImage (imageUrl : Text) (detail : Option ImageDetail)
  deriving DecidableEq

inductive FunctionCallOutputBody where
  | text (content : Text)
  | contentItems (items : List FunctionCallOutputContentItem)
  deriving DecidableEq

structure FunctionCallOutputPayload where
  body : FunctionCallOutputBody
  success : Option Bool
  deriving DecidableEq

def FunctionCallOutputPayload.fromText (content : Text) : FunctionCallOutputPayload :=
  { body := .text content, success := none }

inductive MessagePhase where
  | commentary
  | finalAnswer
  deriving DecidableEq

inductive LocalShellStatus where
  | completed
  | inProgress
  | incomplete
  deriving DecidableEq

inductive ResponseItem where
  | message (id : Option Text) (role : Text) (content : List ContentItem) (phase : Option MessagePhase)
  | reasoning (id : Text) (summary : List Text) (content : Option (List Text)) (encryptedContent : Option Text)
  | localShellCall (id callId : Option Text) (status : LocalShellStatus) (action : Text)
  | functionCall (id : Option Text) (name : Text) (callNamespace : Option Text) (arguments callId : Text)
  | toolSearchCall (id callId status : Option Text) (execution arguments : Text)
  | functionCallOutput (callId : Text) (output : FunctionCallOutputPayload)
  | customToolCall (id status : Option Text) (callId name input : Text)
  | customToolCallOutput (callId : Text) (name : Option Text) (output : FunctionCallOutputPayload)
  | toolSearchOutput (callId : Option Text) (status execution : Text) (tools : List Text)
  | webSearchCall (id status action : Option Text)
  | imageGenerationCall (id status : Text) (revisedPrompt : Option Text) (result : Text)
  | compaction (encryptedContent : Text)
  | compactionTrigger
  | contextCompaction (encryptedContent : Option Text)
  | other
  deriving DecidableEq

/-- What of the items is read or computed elsewhere: the two formats with parsers of their own, the shortening of
outputs, and the history that a compaction of the old form leaves. -/
structure ItemReaders where
  parseHookPromptFragment : Text → Bool
  isInterAgentCommunication : Text → Bool
  truncateFunctionOutputPayload : FunctionCallOutputPayload → FunctionCallOutputPayload
  buildCompactedHistory : List ResponseItem → (message : Text) → List ResponseItem

/-! ## Contextual fragments -/

def eqIgnoreAsciiCase (s t : Text) : Bool := s.map Char.toLower == t.map Char.toLower

def startsWithIgnoreAsciiCase (p s : Text) : Bool := eqIgnoreAsciiCase (s.take p.length) p

def endsWithIgnoreAsciiCase (p s : Text) : Bool := eqIgnoreAsciiCase (s.drop (s.length - p.length)) p

def matchesMarkers (startMarker endMarker : String) (text : Text) : Bool :=
  let trimmed := text.trimStart
  startsWithIgnoreAsciiCase startMarker.toList trimmed && endsWithIgnoreAsciiCase endMarker.toList trimmed.trimEnd

/-- The start and end markers of the fragments that are put into user messages. -/
def contextualUserMarkers : List (String × String) :=
  [("# AGENTS.md instructions for ", "</INSTRUCTIONS>"),
   ("<environment_context>", "</environment_context>"),
   ("<skill>", "</skill>"),
   ("<user_shell_command>", "</user_shell_command>"),
   ("<turn_aborted>", "</turn_aborted>"),
   ("<subagent_notification>", "</subagent_notification>"),
   ("<goal_context>", "</goal_context>")]

/-- A warning that older sessions have written as a user message. -/
def isLegacyWarning (text : Text) : Bool :=
  let trimmed := text.trim
  "Warning: The maximum number of unified exec processes you can keep open is".toList.isPrefixOf trimmed ||
    ("Warning: apply_patch was requested via ".toList.isPrefixOf trimmed &&
      "Use the apply_patch tool instead of exec_command.".toList.isSuffixOf trimmed) ||
    "Warning: Your account was flagged for potentially high-risk cyber activity".toList.isPrefixOf trimmed

def isStandardContextualUserText (text : Text) : Bool :=
  contextualUserMarkers.any (fun markers => matchesMarkers markers.1 markers.2 text) || isLegacyWarning text

variable (rd : ItemReaders) (items : List ResponseItem)

def isContextualUserFragment : ContentItem → Bool
  | .inputText text => rd.parseHookPromptFragment text || isStandardContextualUserText text
  | _ => false

def isContextualUserMessageContent (content : List ContentItem) : Bool :=
  content.any (isContextualUserFragment rd)

def contextualDeveloperPrefixes : List String :=
  ["<permissions instructions>", "<model_switch>", "<collaboration_mode>", "<realtime_conversation>",
   "<personality_spec>"]

def isContextualDevFragment : ContentItem → Bool
  | .inputText text =>
      contextualDeveloperPrefixes.any fun pfx => startsWithIgnoreAsciiCase pfx.toList text.trimStart
  | _ => false

def isContextualDevMessageContent (content : List ContentItem) : Bool := content.any isContextualDevFragment

def hasNonContextualDevMessageContent (content : List ContentItem) : Bool :=
  content.any fun item => !isContextualDevFragment item

/-! ## User turns -/

def isInterAgentInstructionContent : List ContentItem → Bool
  | [.inputText text] | [.outputText text] => rd.isInterAgentCommunication text
  | _ => false

def isUserTurnBoundary : ResponseItem → Bool
  | .message _ role content _ =>
      (role == "user" && !isContextualUserMessageContent rd content) ||
        (role == "assistant" && isInterAgentInstructionContent rd content)
  | _ => false

def userMessagePositions : List Nat :=
  items.findIdxs (isUserTurnBoundary rd)

/-! ## The history -/

structure TurnContextItem where
  turnId : Option Text
  model : Text
  realtimeActive : Option Bool
  deriving DecidableEq

structure ContextManager where
  items : List ResponseItem := []
  referenceContextItem : Option TurnContextItem := none

namespace ContextManager

def replace (cm : ContextManager) (items : List ResponseItem) : ContextManager := { cm with items := items }

/-- The item is one of those that are sent to the model. -/
def isApiMessage : ResponseItem → Bool
  | .message _ role _ _ => role != "system"
  | .compactionTrigger => false
  | .other => false
  | _ => true

def processItem : ResponseItem → ResponseItem
  | .functionCallOutput callId output =>
      .functionCallOutput callId (rd.truncateFunctionOutputPayload output)
  | .customToolCallOutput callId name output =>
      .customToolCallOutput callId name (rd.truncateFunctionOutputPayload output)
  | item => item

def recordItem (cm : ContextManager) (item : ResponseItem) : ContextManager :=
  if isApiMessage item then { cm with items := cm.items ++ [processItem rd item] } else cm

def isPreTurnContext : ResponseItem → Bool
  | .message _ role content _ =>
      (role == "developer" && isContextualDevMessageContent content) ||
        (role == "user" && isContextualUserMessageContent rd content)
  | _ => false

def isMixedDevMessage : ResponseItem → Bool
  | .message _ role content _ =>
      role == "developer" && isContextualDevMessageContent content && hasNonContextualDevMessageContent content
  | _ => false

def trimPreTurnContextUpdates (rd : ItemReaders) (cm : ContextManager) (snapshot : List ResponseItem)
    (firstInstructionTurnIdx : Nat) : Nat → ContextManager × Nat
  | 0 => (cm, 0)
  | cut + 1 =>
      if firstInstructionTurnIdx < cut + 1 then
        match snapshot[cut]? with
        | some item =>
            if isPreTurnContext rd item then
              let cm := if isMixedDevMessage item then { cm with referenceContextItem := none } else cm
              trimPreTurnContextUpdates rd cm snapshot firstInstructionTurnIdx cut
            else (cm, cut + 1)
        | none => (cm, cut + 1)
      else (cm, cut + 1)

def dropLastNUserTurns (cm : ContextManager) (numTurns : UInt32) : ContextManager :=
  if numTurns = 0 then cm
  else
    let snapshot := cm.items
    match userMessagePositions rd snapshot with
    | [] => cm.replace snapshot
    | first :: rest =>
        let userPositions := first :: rest
        let nFromEnd := numTurns.toNat
        let cutIdx :=
          if nFromEnd ≥ userPositions.length then first else userPositions.getD (userPositions.length - nFromEnd) 0
        let (cm, cutIdx) := trimPreTurnContextUpdates rd cm snapshot first cutIdx
        cm.replace (snapshot.take cutIdx)

end ContextManager

/-!
## Normalizing the history for the model

What the source only logs is not part of the result.
-/

inductive InputModality where
  | text
  | image
  deriving DecidableEq

namespace Normalize

/-! ## Outputs for calls -/

variable (callId : Text)

def hasFunctionCallOutput : Bool :=
  items.any fun
    | .functionCallOutput existing _ => existing == callId
    | _ => false

def hasToolSearchOutput : Bool :=
  items.any fun
    | .toolSearchOutput (some existing) _ _ _ => existing == callId
    | _ => false

def hasCustomToolCallOutput : Bool :=
  items.any fun
    | .customToolCallOutput existing _ _ => existing == callId
    | _ => false

def missingOutput? : ResponseItem → Option ResponseItem
  | .functionCall _ _ _ _ callId =>
      if hasFunctionCallOutput items callId then none
      else some (.functionCallOutput callId (.fromText "aborted"))
  | .toolSearchCall _ (some callId) _ _ _ =>
      if hasToolSearchOutput items callId then none
      else some (.toolSearchOutput (some callId) "completed" "client" [])
  | .customToolCall _ _ callId _ _ =>
      if hasCustomToolCallOutput items callId then none
      else some (.customToolCallOutput callId none (.fromText "aborted"))
  | .localShellCall _ (some callId) _ _ =>
      if hasFunctionCallOutput items callId then none
      else some (.functionCallOutput callId (.fromText "aborted"))
  | _ => none

def missingOutputsToInsert : List (Nat × ResponseItem) :=
  items.zipIdx.filterMap fun (item, idx) => (missingOutput? items item).map fun output => (idx, output)

def ensureCallOutputsPresent : List ResponseItem :=
  (missingOutputsToInsert items).reverse.foldl (fun items (idx, output) => items.insertIdx (idx + 1) output) items

/-! ## Outputs without a call -/

def functionCallIds : List Text :=
  items.filterMap fun
    | .functionCall _ _ _ _ callId => some callId
    | _ => none

def toolSearchCallIds : List Text :=
  items.filterMap fun
    | .toolSearchCall _ (some callId) _ _ _ => some callId
    | _ => none

def localShellCallIds : List Text :=
  items.filterMap fun
    | .localShellCall _ (some callId) _ _ => some callId
    | _ => none

def customToolCallIds : List Text :=
  items.filterMap fun
    | .customToolCall _ _ callId _ _ => some callId
    | _ => none

def hasMatch : ResponseItem → Bool
  | .functionCallOutput callId _ =>
      (functionCallIds items).contains callId || (localShellCallIds items).contains callId
  | .customToolCallOutput callId _ _ => (customToolCallIds items).contains callId
  | .toolSearchOutput callId _ execution _ =>
      if execution == "server" then true
      else
        match callId with
        | some callId => (toolSearchCallIds items).contains callId
        | none => true
  | _ => true

def removeOrphanOutputs : List ResponseItem := items.filter (hasMatch items)

/-! ## The counterpart of an item that is removed -/

def isFunctionCall : ResponseItem → Bool
  | .functionCall _ _ _ _ existing => existing == callId
  | _ => false

def isLocalShellCall : ResponseItem → Bool
  | .localShellCall _ (some existing) _ _ => existing == callId
  | _ => false

def isFunctionCallOutput : ResponseItem → Bool
  | .functionCallOutput existing _ => existing == callId
  | _ => false

def isToolSearchCall : ResponseItem → Bool
  | .toolSearchCall _ (some existing) _ _ _ => existing == callId
  | _ => false

def isToolSearchOutput : ResponseItem → Bool
  | .toolSearchOutput (some existing) _ _ _ => existing == callId
  | _ => false

def isCustomToolCall : ResponseItem → Bool
  | .customToolCall _ _ existing _ _ => existing == callId
  | _ => false

def isCustomToolCallOutput : ResponseItem → Bool
  | .customToolCallOutput existing _ _ => existing == callId
  | _ => false

def removeFirstMatching (predicate : ResponseItem → Bool) : List ResponseItem :=
  items.eraseP predicate

def removeCorrespondingFor : ResponseItem → List ResponseItem
  | .functionCall _ _ _ _ callId => removeFirstMatching items (isFunctionCallOutput callId)
  | .functionCallOutput callId _ =>
      if items.any (isFunctionCall callId) then items.eraseP (isFunctionCall callId)
      else items.eraseP (isLocalShellCall callId)
  | .toolSearchCall _ (some callId) _ _ _ => removeFirstMatching items (isToolSearchOutput callId)
  | .toolSearchOutput (some callId) _ _ _ => removeFirstMatching items (isToolSearchCall callId)
  | .customToolCall _ _ callId _ _ => removeFirstMatching items (isCustomToolCallOutput callId)
  | .customToolCallOutput callId _ _ => removeFirstMatching items (isCustomToolCall callId)
  | .localShellCall _ (some callId) _ _ => removeFirstMatching items (isFunctionCallOutput callId)
  | _ => items

/-! ## Images -/

def imageContentOmittedPlaceholder : Text :=
  "image content omitted because you do not support image input"

def stripContentItem : ContentItem → ContentItem
  | .inputImage _ _ => .inputText imageContentOmittedPlaceholder
  | item => item

def stripOutputContentItem : FunctionCallOutputContentItem → FunctionCallOutputContentItem
  | .inputImage _ _ => .inputText imageContentOmittedPlaceholder
  | item => item

def stripOutput (output : FunctionCallOutputPayload) : FunctionCallOutputPayload :=
  match output.body with
  | .text _ => output
  | .contentItems items => { output with body := .contentItems (items.map stripOutputContentItem) }

def stripItem : ResponseItem → ResponseItem
  | .message id role content phase => .message id role (content.map stripContentItem) phase
  | .functionCallOutput callId output => .functionCallOutput callId (stripOutput output)
  | .customToolCallOutput callId name output => .customToolCallOutput callId name (stripOutput output)
  | .imageGenerationCall id status revisedPrompt _ => .imageGenerationCall id status revisedPrompt []
  | item => item

def stripImagesWhenUnsupported (inputModalities : List InputModality) (items : List ResponseItem) : List ResponseItem :=
  if inputModalities.contains .image then items else items.map stripItem

end Normalize

namespace ContextManager

def normalizeHistory (cm : ContextManager) (inputModalities : List InputModality) : ContextManager :=
  let items := Normalize.ensureCallOutputsPresent cm.items
  let items := Normalize.removeOrphanOutputs items
  let items := Normalize.stripImagesWhenUnsupported inputModalities items
  { cm with items := items }

def forPrompt (cm : ContextManager) (inputModalities : List InputModality) : List ResponseItem :=
  (cm.normalizeHistory inputModalities).items

def removeFirstItem (cm : ContextManager) : ContextManager :=
  match cm.items with
  | [] => cm
  | removed :: items => { cm with items := Normalize.removeCorrespondingFor items removed }

/-- Remove the newest item together with its counterpart; the flag says whether there was one. -/
def removeLastItem (cm : ContextManager) : ContextManager × Bool :=
  match cm.items.getLast? with
  | some removed => ({ cm with items := Normalize.removeCorrespondingFor cm.items.dropLast removed }, true)
  | none => (cm, false)

end ContextManager

end CodexStudy.Core
