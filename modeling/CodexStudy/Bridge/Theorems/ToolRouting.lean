import CodexStudy.Bridge.Responses
import Mathlib.Data.List.Pairwise

/-!
# Bridged tool calls come back to their tools

A call that comes back under a flat name is taken for a call of the last tool that went upstream under it.
-/

namespace CodexStudy.Bridge

open CodexStudy.Lib List Text

/-! ## When two tools have one flat name -/

/-- The character is kept, and nothing else is written as it is. -/
def IsPlain (c : Char) : Prop := c.isAlphanum = true ∨ c = '-'

/-- Two characters that a flat name does not tell apart. -/
def LooksAlike (a b : Char) : Prop := a = b ∨ ¬IsPlain a ∧ ¬IsPlain b

def joinedName (toolNamespace : Option Text) (name : Text) : Text :=
  match toolNamespace with
  | none => name
  | some toolNamespace => if toolNamespace.trim = [] then name else toolNamespace ++ "__" ++ name

/-- The texts are alike in their first 64 characters. -/
def TextsAlike (raw raw' : Text) : Prop := List.Forall₂ LooksAlike (raw.trim.take 64) (raw'.trim.take 64)

def flatChar (c : Char) : Char := if c.isAlphanum || c == '_' || c == '-' then c else '_'

variable {c : Char} {raw s name : Text} {tool : DeclaredTool}

theorem flatChar_of_isPlain (h : IsPlain c) : flatChar c = c := by
  unfold flatChar
  refine if_pos ?_
  rcases h with h | rfl
  · rw [h]
    rfl
  · rfl

theorem flatChar_of_not_isPlain (h : ¬IsPlain c) : flatChar c = '_' := by
  obtain ⟨hletter, hhyphen⟩ := not_or.mp h
  unfold flatChar
  split
  next hkept =>
    rw [Bool.or_eq_true, Bool.or_eq_true, beq_iff_eq, beq_iff_eq] at hkept
    rcases hkept with (hkept | hkept) | hkept
    · exact absurd hkept hletter
    · exact hkept
    · exact absurd hkept hhyphen
  next => rfl

theorem not_isPlain_underscore : ¬IsPlain '_' := by
  unfold IsPlain
  decide

theorem flatChar_eq_iff {a b : Char} : flatChar a = flatChar b ↔ LooksAlike a b := by
  by_cases ha : IsPlain a
  · by_cases hb : IsPlain b
    · rw [flatChar_of_isPlain ha, flatChar_of_isPlain hb]
      exact ⟨.inl, fun h => h.resolve_right fun hboth => hboth.1 ha⟩
    · rw [flatChar_of_isPlain ha, flatChar_of_not_isPlain hb]
      constructor
      · rintro rfl
        exact absurd ha not_isPlain_underscore
      · rintro (rfl | hboth)
        · exact absurd ha hb
        · exact absurd ha hboth.1
  · by_cases hb : IsPlain b
    · rw [flatChar_of_not_isPlain ha, flatChar_of_isPlain hb]
      constructor
      · rintro rfl
        exact absurd hb not_isPlain_underscore
      · rintro (rfl | hboth)
        · exact absurd hb ha
        · exact absurd hb hboth.2
    · rw [flatChar_of_not_isPlain ha, flatChar_of_not_isPlain hb]
      exact iff_of_true rfl (.inr ⟨ha, hb⟩)

theorem sanitizeFunctionName_eq (h : raw.trim ≠ []) :
    sanitizeFunctionName raw = (raw.trim.take 64).map flatChar := by
  have hmap : raw.trim.map flatChar ≠ [] := fun hnil => h (map_eq_nil_iff.mp hnil)
  unfold sanitizeFunctionName
  change (if (raw.trim.map flatChar).isEmpty then _ else (raw.trim.map flatChar).take 64) = _
  rw [if_neg (by rwa [List.isEmpty_iff]), List.map_take]

theorem sanitizeFunctionName_eq_iff {raw' : Text} (h : raw.trim ≠ []) (h' : raw'.trim ≠ []) :
    sanitizeFunctionName raw = sanitizeFunctionName raw' ↔ TextsAlike raw raw' := by
  rw [sanitizeFunctionName_eq h, sanitizeFunctionName_eq h']
  unfold TextsAlike
  generalize raw.trim.take 64 = s, raw'.trim.take 64 = s'
  induction s generalizing s' with
  | nil =>
      cases s' with
      | nil => exact iff_of_true rfl .nil
      | cons b s' => exact iff_of_false (by intro h; cases h) (by intro h; cases h)
  | cons a s ih =>
      cases s' with
      | nil => exact iff_of_false (by intro h; cases h) (by intro h; cases h)
      | cons b s' => rw [map_cons, map_cons, cons.injEq, forall₂_cons, flatChar_eq_iff, ih]

theorem flattenToolName_eq (toolNamespace : Option Text) (name : Text) :
    flattenToolName toolNamespace name = sanitizeFunctionName (joinedName toolNamespace name) := by
  unfold flattenToolName joinedName
  cases toolNamespace with
  | none => rfl
  | some toolNamespace =>
      dsimp only
      by_cases hbl : toolNamespace.trim = []
      · rw [if_pos hbl, Option.filter_some, if_neg (by rw [hbl]; decide)]
      · rw [if_neg hbl, Option.filter_some, if_pos (by simpa using hbl)]

/-! ## Names that are not blank -/

theorem trim_eq_nil_iff : s.trim = [] ↔ ∀ c ∈ s, isWhitespace c = true := by
  unfold trim trimEnd
  rw [rdropWhile_eq_nil_iff]
  constructor
  · intro h c hc
    rw [← takeWhile_append_dropWhile (p := isWhitespace) (l := s), mem_append] at hc
    rcases hc with hc | hc
    · exact mem_takeWhile_imp hc
    · exact h c hc
  · exact fun h c hc => h c (dropWhile_sublist _ |>.mem hc)

theorem trim_joinedName_ne_nil (toolNamespace : Option Text) (h : name.trim ≠ []) :
    (joinedName toolNamespace name).trim ≠ [] := by
  unfold joinedName
  cases toolNamespace with
  | none => exact h
  | some toolNamespace =>
      dsimp only
      split
      next => exact h
      next =>
        intro hbl
        rw [trim_eq_nil_iff] at hbl
        exact h (trim_eq_nil_iff.mpr fun c hc => hbl c (mem_append_right _ hc))

theorem trim_trim_ne_nil (h : s.trim ≠ []) : s.trim.trim ≠ [] := by
  intro hbl
  rw [trim_eq_nil_iff] at hbl
  -- A trimmed text that is not empty ends with a character that is kept.
  have hlast := rdropWhile_last_not (p := isWhitespace) (l := s.trimStart) h
  exact hlast (hbl _ (getLast_mem h))

/-! ## The tools of a request -/

inductive DeclaredTool where
  | function (toolNamespace : Option Text) (name : Text)
  | toolSearch (execution : Text)
  deriving DecidableEq

def functionName (tool : Json) : Option Text :=
  (tool.getStr "name").bind fun name => if name.trim = [] then none else some name.trim

def declaredBy (tool : Json) : List DeclaredTool :=
  match tool.getStr "type" with
  | none => []
  | some type =>
      if type = "function" then (functionName tool).toList.map (.function none)
      else if type = "namespace" then
        ((tool.getArray "tools").getD []).filterMap fun child =>
          (functionName child).map (.function (tool.getStr "name"))
      else if type = "tool_search" then [.toolSearch ((tool.getStr "execution").getD "client")]
      else []

/-- The tools that are translated, in the order of the request. -/
def declaredTools (tools : List Json) : List DeclaredTool := tools.flatMap declaredBy

def DeclaredTool.joinedName : DeclaredTool → Text
  | .function toolNamespace name => Bridge.joinedName toolNamespace name
  | .toolSearch _ => "tool_search"

/-- The joined names agree in the first 64 characters but for characters that are no letters, digits or hyphens. -/
def DeclaredTool.Alike (tool tool' : DeclaredTool) : Prop := TextsAlike tool.joinedName tool'.joinedName

/-! ## Calls that come back -/

def upstreamName (value : Json) : Option Text := (value.get "function").bind (·.getStr "name")

/-- `toolCall` is a tool call of the completion, with the name `flatName`. -/
def Calls (completion toolCall : Json) (flatName : Text) : Prop :=
  ∃ choice choices message toolCalls, completion.getArray "choices" = some (choice :: choices) ∧
    choice.get "message" = some message ∧ message.getArray "tool_calls" = some toolCalls ∧
    toolCall ∈ toolCalls ∧ upstreamName toolCall = some flatName

/-- The item is a call of the tool, with its name and namespace. -/
def IsCallOf : DeclaredTool → Json → Prop
  | .function toolNamespace name, item =>
      item.getStr "type" = some "function_call".toList ∧ item.getStr "name" = some name ∧
        item.get "namespace".toList = toolNamespace.map .string
  | .toolSearch execution, item =>
      item.getStr "type" = some "tool_search_call".toList ∧ item.getStr "execution" = some execution

/-- Each tool goes upstream under a name of its own, and a call of that name is given back as a call of the tool. -/
def RoutesBack (serde : SerdeJson) (tools : List Json) : Prop :=
  ∀ (i : Nat) (tool : DeclaredTool), (declaredTools tools)[i]? = some tool → ∃ flatName,
    ((translateTools serde (some tools)).1[i]?).bind upstreamName = some flatName ∧
    (∀ j, j ≠ i → ((translateTools serde (some tools)).1[j]?).bind upstreamName ≠ some flatName) ∧
    ∀ completion toolCall, Calls completion toolCall flatName → ∃ item before after,
      IsCallOf tool item ∧ item.getStr "call_id" = some ((toolCall.getStr "id").getD "compat-call") ∧
      buildResponsesSse serde completion (translateTools serde (some tools)).2 =
        .ok (before ++ (outputItemDone item).text serde ++ after)

/-! ## The index -/

section

variable {serde : SerdeJson} {tools : List Json}

def DeclaredTool.descriptor : DeclaredTool → CompatToolDescriptor
  | .function toolNamespace name => ⟨flattenToolName toolNamespace name, name, toolNamespace, .function⟩
  | .toolSearch execution => ⟨TOOL_SEARCH_FLAT_NAME, TOOL_SEARCH_FLAT_NAME, none, .toolSearch execution⟩

def DeclaredTool.flatName (tool : DeclaredTool) : Text := tool.descriptor.flatName

variable (serde) in
theorem functionTool_eq (toolNamespace : Option Text) (tool : Json) :
    (functionTool serde toolNamespace tool).map (fun pair => (pair.1, upstreamName pair.2)) =
      (functionName tool).map fun name => ((DeclaredTool.function toolNamespace name).descriptor,
        some (DeclaredTool.function toolNamespace name).flatName) := by
  unfold functionTool functionName
  cases tool.getStr "name" with
  | none => rfl
  | some name =>
      dsimp only [Option.bind_some]
      by_cases hblank : name.trim = []
      · rw [if_pos hblank, if_pos (by rw [hblank]; rfl)]
        rfl
      · rw [if_neg hblank, if_neg (by rwa [List.isEmpty_iff])]
        rfl

theorem translateTool_eq (tool : Json) : (translateTool serde tool).map (fun pair => (pair.1, upstreamName pair.2)) =
      (declaredBy tool).map fun tool => (tool.descriptor, some tool.flatName) := by
  unfold translateTool declaredBy
  cases tool.getStr "type" with
  | none => rfl
  | some type =>
      dsimp only
      split
      next =>
        have hone := functionTool_eq serde none tool
        rw [← Option.toList_map, hone, map_map, Option.toList_map]
        rfl
      next =>
        split
        next =>
          rw [map_filterMap, map_filterMap]
          refine filterMap_congr fun child _ => ?_
          rw [functionTool_eq, Option.map_map]
          rfl
        next =>
          split
          next => rfl
          next => rfl

variable (serde tools) in
theorem translateTools_eq : ((tools.flatMap (translateTool serde)).map fun pair => (pair.1, upstreamName pair.2)) =
      (declaredTools tools).map fun tool => (tool.descriptor, some tool.flatName) := by
  unfold declaredTools
  rw [map_flatMap, map_flatMap]
  exact congrArg (tools.flatMap ·) (funext translateTool_eq)

theorem toolIndex_eq : (translateTools serde (some tools)).2 = (declaredTools tools).map DeclaredTool.descriptor := by
  have hfst := congrArg (map Prod.fst) (translateTools_eq serde tools)
  rw [map_map, map_map] at hfst
  exact hfst

theorem upstreamName_translateTools (i : Nat) : ((translateTools serde (some tools)).1[i]?).bind upstreamName =
      (declaredTools tools)[i]?.map DeclaredTool.flatName := by
  have hget := congrArg (·[i]?) (translateTools_eq serde tools)
  simp only [getElem?_map] at hget
  have htr : (translateTools serde (some tools)).1[i]? = (tools.flatMap (translateTool serde))[i]?.map Prod.snd :=
    getElem?_map ..
  rw [htr]
  cases hpair : (tools.flatMap (translateTool serde))[i]? with
  | none =>
      rw [hpair] at hget
      cases htool : (declaredTools tools)[i]? with
      | none => rfl
      | some tool =>
          rw [htool] at hget
          cases hget
  | some pair =>
      rw [hpair] at hget
      cases htool : (declaredTools tools)[i]? with
      | none =>
          rw [htool] at hget
          cases hget
      | some tool =>
          rw [htool] at hget
          exact congrArg Prod.snd (Option.some.inj hget)

/-! ## Flat names -/

theorem functionName_ne_nil {tool : Json} (h : functionName tool = some name) : name.trim ≠ [] := by
  unfold functionName at h
  obtain ⟨declared, -, h⟩ := Option.bind_eq_some_iff.mp h
  split at h
  next => cases h
  next hname =>
    cases h
    exact trim_trim_ne_nil hname

theorem trim_joinedName_of_mem (h : tool ∈ declaredTools tools) : tool.joinedName.trim ≠ [] := by
  obtain ⟨json, -, h⟩ := mem_flatMap.mp h
  unfold declaredBy at h
  split at h
  next => cases h
  next =>
    split at h
    next =>
      obtain ⟨name, hname, rfl⟩ := mem_map.mp h
      exact trim_joinedName_ne_nil none (functionName_ne_nil (Option.mem_toList.mp hname))
    next =>
      split at h
      next =>
        obtain ⟨child, -, h⟩ := mem_filterMap.mp h
        obtain ⟨name, hname, rfl⟩ := Option.map_eq_some_iff.mp h
        exact trim_joinedName_ne_nil _ (functionName_ne_nil hname)
      next =>
        split at h
        next =>
          obtain rfl := mem_singleton.mp h
          have hsearch : trim "tool_search" ≠ [] := by decide
          exact hsearch
        next => cases h

theorem flatName_eq (tool : DeclaredTool) : tool.flatName = sanitizeFunctionName tool.joinedName := by
  cases tool with
  | function toolNamespace name => exact flattenToolName_eq toolNamespace name
  | toolSearch execution =>
      change TOOL_SEARCH_FLAT_NAME = sanitizeFunctionName "tool_search"
      decide

theorem flatName_eq_iff {tool' : DeclaredTool} (h : tool ∈ declaredTools tools) (h' : tool' ∈ declaredTools tools) :
    tool.flatName = tool'.flatName ↔ tool.Alike tool' := by
  rw [flatName_eq, flatName_eq]
  exact sanitizeFunctionName_eq_iff (trim_joinedName_of_mem h) (trim_joinedName_of_mem h')

theorem nodup_flatName_iff : ((declaredTools tools).map DeclaredTool.flatName).Nodup ↔
      (declaredTools tools).Pairwise fun tool tool' => ¬tool.Alike tool' := by
  rw [List.Nodup, pairwise_map]
  constructor
  · intro h
    refine h.imp_of_mem fun hmem hmem' hne => ?_
    rwa [ne_eq, flatName_eq_iff hmem hmem'] at hne
  · intro h
    refine h.imp_of_mem fun hmem hmem' halike => ?_
    rwa [← flatName_eq_iff hmem hmem'] at halike

/-! ## The way back -/

variable (serde) in
theorem isCallOf_callItem (tool : DeclaredTool) (callId flatName arguments : Text) :
    IsCallOf tool (callItem serde (some tool.descriptor) callId flatName arguments) ∧
      (callItem serde (some tool.descriptor) callId flatName arguments).getStr "call_id" = some callId := by
  cases tool with
  | toolSearch execution => exact ⟨⟨rfl, rfl⟩, rfl⟩
  | function toolNamespace name =>
      cases toolNamespace with
      | none => exact ⟨⟨rfl, rfl, rfl⟩, rfl⟩
      | some toolNamespace => exact ⟨⟨rfl, rfl, rfl⟩, rfl⟩

theorem lookup_descriptorByName (hnd : ((declaredTools tools).map DeclaredTool.flatName).Nodup)
    (h : tool ∈ declaredTools tools) :
    (descriptorByName (translateTools serde (some tools)).2).lookup tool.flatName = some tool.descriptor := by
  rw [toolIndex_eq]
  unfold descriptorByName
  rw [foldl_map]
  exact HashMap.lookup_foldl_insert_of_mem DeclaredTool.flatName DeclaredTool.descriptor hnd h ∅

theorem responsesEvents_eq {completion choice message : Json} {choices : List Json}
    {toolIndex : List CompatToolDescriptor} (hchoices : completion.getArray "choices" = some (choice :: choices))
    (hmsg : choice.get "message" = some message) :
    responsesEvents serde completion toolIndex = .ok (messageEvents serde completion toolIndex message) := by
  unfold responsesEvents
  rw [hchoices, Option.bind_some, head?_cons]
  dsimp only
  rw [hmsg]

variable (serde) in
theorem toolCallEvent_mem {completion toolCall : Json} {flatName : Text} (toolIndex : List CompatToolDescriptor)
    (h : Calls completion toolCall flatName) : ∃ events arguments, responsesEvents serde completion toolIndex = .ok events ∧
      outputItemDone (callItem serde ((descriptorByName toolIndex).lookup flatName)
        ((toolCall.getStr "id").getD "compat-call") flatName arguments) ∈ events := by
  obtain ⟨choice, choices, message, toolCalls, hchoices, hmessage, hcalls, hmem, hname⟩ := h
  obtain ⟨function, hfunction, hname⟩ := Option.bind_eq_some_iff.mp hname
  have hevent : toolCallEvent serde (descriptorByName toolIndex) toolCall =
      some (outputItemDone (callItem serde ((descriptorByName toolIndex).lookup flatName)
        ((toolCall.getStr "id").getD "compat-call") flatName (toolCallArguments serde function))) := by
    unfold toolCallEvent calledName
    rw [hfunction, Option.map_some, hname]
    rfl
  refine ⟨_, toolCallArguments serde function, responsesEvents_eq hchoices hmessage, ?_⟩
  unfold messageEvents
  rw [hcalls]
  refine mem_append_left _ (mem_append_right _ ?_)
  exact mem_filterMap.mpr ⟨toolCall, hmem, hevent⟩

variable (serde) in
theorem text_of_event_mem {events : List SseEvent} {event : SseEvent} (h : event ∈ events) :
    ∃ before after, events.flatMap (SseEvent.text serde) = before ++ event.text serde ++ after := by
  obtain ⟨before, after, rfl⟩ := append_of_mem h
  refine ⟨before.flatMap (SseEvent.text serde), after.flatMap (SseEvent.text serde), ?_⟩
  rw [flatMap_append, flatMap_cons, append_assoc]

end

/-- In every request each tool has its own name upstream and gets its calls back exactly when no two translated tools
look alike in the first 64 characters of their joined names. -/
theorem routesBack_iff (serde : SerdeJson) (tools : List Json) :
    RoutesBack serde tools ↔ (declaredTools tools).Pairwise fun tool tool' => ¬tool.Alike tool' := by
  rw [← nodup_flatName_iff]
  constructor
  · intro h
    rw [List.Nodup, pairwise_iff_getElem]
    intro i j hi hj hlt heq
    rw [length_map] at hi hj
    rw [getElem_map, getElem_map] at heq
    obtain ⟨flatName, hsent, hoth, -⟩ := h i _ (getElem?_eq_getElem hi)
    refine hoth j (Nat.ne_of_gt hlt) ?_
    rw [upstreamName_translateTools, getElem?_eq_getElem hj, Option.map_some, ← heq]
    rw [upstreamName_translateTools, getElem?_eq_getElem hi, Option.map_some] at hsent
    exact hsent
  · intro hnd i tool htool
    have hmem : tool ∈ declaredTools tools := mem_of_getElem? htool
    refine ⟨tool.flatName, ?_, fun j hj hsent => ?_, fun completion toolCall hcs => ?_⟩
    · rw [upstreamName_translateTools, htool, Option.map_some]
    · rw [upstreamName_translateTools] at hsent
      have hi : ((declaredTools tools).map DeclaredTool.flatName)[i]? = some tool.flatName := by
        rw [getElem?_map, htool, Option.map_some]
      rw [← getElem?_map, ← hi] at hsent
      have hlt : i < ((declaredTools tools).map DeclaredTool.flatName).length := (List.getElem?_eq_some_iff.mp hi).1
      exact hj ((getElem?_inj hlt hnd).mp hsent.symm).symm
    · obtain ⟨events, arguments, hevents, hevent⟩ :=
        toolCallEvent_mem serde (translateTools serde (some tools)).2 hcs
      rw [lookup_descriptorByName hnd hmem] at hevent
      obtain ⟨before, after, htext⟩ := text_of_event_mem serde hevent
      obtain ⟨hcall, hid⟩ := isCallOf_callItem serde tool
        ((toolCall.getStr "id").getD "compat-call") tool.flatName arguments
      refine ⟨_, before, after, hcall, hid, ?_⟩
      unfold buildResponsesSse
      rw [hevents, ← htext]
      rfl

/-! ## Two tools with one name -/

def docsTools : List Json :=
  [.obj [("type", .str "namespace"), ("name", .str "docs"),
      ("tools", .array [.obj [("type", .str "function"), ("name", .str "read__page")]])],
    .obj [("type", .str "namespace"), ("name", .str "docs__read"),
      ("tools", .array [.obj [("type", .str "function"), ("name", .str "page")]])]]

/-- The tools are different, and both go upstream as `docs__read__page`. -/
theorem docsTools_share_name : ¬∃ serde, ∀ tools, (declaredTools tools).Nodup → RoutesBack serde tools := by
  rintro ⟨serde, h⟩
  have hdeclared : declaredTools docsTools =
      [.function (some "docs") "read__page", .function (some "docs__read") "page"] := rfl
  have hroutes := h docsTools (by rw [hdeclared]; decide)
  obtain ⟨flatName, hsent, hoth, -⟩ := hroutes 0 _ rfl
  have hname : flatName = "docs__read__page" := (Option.some.inj hsent).symm
  exact hoth 1 (by decide) (by rw [hname]; rfl)

end CodexStudy.Bridge
