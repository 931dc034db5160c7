import CodexStudy.Bridge.Responses

/-!
# Reduced schemas

The schema of a tool's parameters is reduced before it goes upstream. A value that the schema accepts is still accepted
exactly when it survives what the reduction asks in place of the keywords that it drops.
-/

namespace CodexStudy.Lib.Json

/-! ## JSON schemas -/

/-- Which values are equal, and which numbers that are kept as they are written are whole. -/
structure Meaning where
  same : Json → Json → Prop
  isWhole : Text → Prop

def Meaning.HasType (meaning : Meaning) (type : Text) : Json → Prop
  | .null => type = "null"
  | .bool _ => type = "boolean"
  | .int _ => type = "integer" ∨ type = "number"
  | .float literal => type = "number" ∨ type = "integer" ∧ meaning.isWhole literal
  | .string _ => type = "string"
  | .array _ => type = "array"
  | .object _ => type = "object"

def Meaning.Allows (meaning : Meaning) : (type value : Json) → Prop
  | .string type, value => meaning.HasType type value
  | .array types, value => ∃ type, .string type ∈ types ∧ meaning.HasType type value
  | _, _ => False

/-- The schema accepts the value; of the alternatives of an `anyOf` it is `choice` that accepts it. Descriptions and
allowed additional properties ask nothing. -/
inductive Accepts (meaning : Meaning) : (schema value : Json) → Prop
  | object {map : List (Text × Json)} {value : Json} (choice : Json)
      (type : ∀ type, map.lookup "type".toList = some type → meaning.Allows type value)
      (enum : ∀ values, map.lookup "enum".toList = some (.array values) → ∃ other ∈ values, meaning.same other value)
      (required : ∀ names members name, map.lookup "required".toList = some (.array names) → value = .object members →
        .string name ∈ names → (members.lookup name).isSome)
      (properties : ∀ properties members key property member, map.lookup "properties".toList = some (.object properties) →
        value = .object members → properties.lookup key = some property → members.lookup key = some member →
        Accepts meaning property member)
      (items : ∀ schema elements element, map.lookup "items".toList = some schema → value = .array elements →
        element ∈ elements → Accepts meaning schema element)
      (chosen : ∀ alternatives, map.lookup "anyOf".toList = some (.array alternatives) → choice ∈ alternatives)
      (anyOf : ∀ alternatives, map.lookup "anyOf".toList = some (.array alternatives) → Accepts meaning choice value) :
      Accepts meaning (.object map) value

end CodexStudy.Lib.Json

namespace CodexStudy.Bridge

open CodexStudy.Lib List Json Option
open CodexStudy.Lib.Json (Meaning Accepts)
open CodexStudy.ChatAgent (byteLen)

/-! ## What the reduction asks -/

/-- The type that a schema gets which does not name one. -/
def inferredType (schema : Json) : Text :=
  if ((schema.get "properties").bind asObject).isNone && (schema.get "items").isSome then "array" else "object"

/-- At each place the value has the type that the reduction puts there: items without a type and properties become
texts, and below the last level everything becomes an object. -/
def Withstands (meaning : Meaning) : (depthLeft : Nat) → (schema value : Json) → Prop
  | 0, _, value => meaning.HasType "object" value
  | depthLeft + 1, schema, value =>
      (schema.getStr "type" = none → meaning.HasType (inferredType schema) value) ∧
      (∀ properties members key property member, schema.get "properties" = some (.object properties) →
        value = .object members → properties.lookup key = some property → members.lookup key = some member →
        Withstands meaning depthLeft property member) ∧
      ∀ items elements element, schema.get "items" = some items → value = .array elements → element ∈ elements →
        if (items.get "type").isSome || (items.get "properties").isSome then
          Withstands meaning depthLeft items element
        else meaning.HasType "string" element

section

variable {meaning : Meaning} {map fields : List (Text × Json)} {schema value : Json} {depthLeft : Nat}

/-- The fields of a reduced schema, `map` being those of the schema. -/
structure Reduces (depthLeft : Nat) (map fields : List (Text × Json)) : Prop where
  type : fields.lookup "type".toList =
    some (.string (((object map).getStr "type").getD (inferredType (.object map))))
  enum : fields.lookup "enum".toList = map.lookup "enum".toList
  required : ∀ name, (∃ names, fields.lookup "required".toList = some (.array names) ∧ .string name ∈ names) ↔
    ∃ names, map.lookup "required".toList = some (.array names) ∧ .string name ∈ names
  properties : ∀ key property, (∃ properties, fields.lookup "properties".toList = some (.object properties) ∧
      properties.lookup key = some property) ↔
    ∃ properties, map.lookup "properties".toList = some (.object properties) ∧
      (properties.lookup key).map (sanitizeJsonSchema depthLeft) = some property
  items : fields.lookup "items".toList =
    (map.lookup "items".toList).map (sanitizeJsonSchemaItems (sanitizeJsonSchema depthLeft))
  anyOf : fields.lookup "anyOf".toList = none

def fieldOf (name : String) (found : Option Json) : Option (Text × Json) := found.map fun value => (name.toList, value)

theorem lookup_fieldOf (name key : String) (found : Option Json) :
    (fieldOf name found).toList.lookup key.toList = if key = name then found else none := by
  unfold fieldOf
  cases found with
  | none => exact (ite_self none).symm
  | some value =>
      by_cases hkey : key = name
      · simp [hkey]
      · have hbeq : (key.toList == name.toList) = false := by simpa [String.toList_inj] using hkey
        simp [lookup_cons, hbeq, hkey]

theorem asStr_eq_some {text : Text} : value.asStr = some text ↔ value = .string text := by
  cases value <;> simp [asStr]

theorem bind_asObject {found : Option Json} :
    found.bind asObject = some fields ↔ found = some (.object fields) := by
  rcases found with _ | value
  · simp
  · cases value <;> simp [asObject]

theorem lookup_map_snd {properties : List (Text × Json)} {f : Json → Json} {key : Text} :
    (properties.map fun (key, property) => (key, f property)).lookup key = (properties.lookup key).map f := by
  induction properties with
  | nil => rfl
  | cons first rest ih =>
      rw [map_cons, lookup_cons, lookup_cons, ih]
      split <;> rfl

theorem reduces_sanitizeJsonSchema (depthLeft : Nat) (map : List (Text × Json)) :
    ∃ fields, sanitizeJsonSchema (depthLeft + 1) (.object map) = .object fields ∧ Reduces depthLeft map fields := by
  have hmap : ∀ {α : Type} (found : Option α) (name : String) (f : α → Json),
      (found.map fun a => (name.toList, f a)) = fieldOf name (found.map f) := by
    intro α found name f
    cases found <;> rfl
  have henum : ∀ found : Option Json, (found.map fun enum => ("enum".toList, enum)) = fieldOf "enum" found := fun _ => rfl
  have hrequired : ∀ found : Option (List Json), (found.bind fun values =>
        let required := values.filterMap asStr
        if required.isEmpty then none else some ("required".toList, array (required.map .string))) =
      fieldOf "required" ((found.map (filterMap asStr)).bind fun required =>
        if required.isEmpty then none else some (.array (required.map .string))) := by
    intro found
    cases found with
    | none => rfl
    | some values =>
        dsimp only [map_some, bind_some]
        split <;> rfl
  have htype : ∀ (p q : Prop) [Decidable p] [Decidable q],
      (if p then none else if q then some ("type".toList, str "array") else some ("type".toList, str "object")) =
      fieldOf "type" (if p then none else if q then some (str "array") else some (str "object")) := by
    intro p q _ _
    split
    · rfl
    · split <;> rfl
  have hnone : ∀ (p : Prop) [Decidable p], (if p then [("properties".toList, object [])] else []) =
      (fieldOf "properties" (if p then some (.object []) else none)).toList := by
    intro p _
    split <;> rfl
  have hlast : [("additionalProperties".toList, bool true)] =
      (fieldOf "additionalProperties" (some (.bool true))).toList := rfl
  refine ⟨_, rfl, ?_⟩
  constructor
  all_goals
    simp only [henum, hmap, hrequired, htype, hnone, hlast, lookup_append, lookup_fieldOf, String.reduceEq, reduceIte,
      or_none, none_or, Json.getArray, Json.get]
  · have hinferred : inferredType (.object map) =
        if ((map.lookup "properties".toList).bind asObject).isNone && (map.lookup "items".toList).isSome then
          "array".toList
        else "object".toList := rfl
    rw [hinferred]
    cases (object map).getStr "type" with
    | none =>
        cases (map.lookup "properties".toList).bind Json.asObject with
        | none => cases map.lookup "items".toList <;> rfl
        | some properties => rfl
    | some type => rfl
  · intro name
    cases map.lookup "required".toList with
    | none => simp
    | some required =>
        cases required with
        | array names =>
            have hmem : string name ∈ (names.filterMap asStr).map .string ↔ .string name ∈ names := by
              simp [mem_filterMap, asStr_eq_some]
            dsimp only [bind_some, asArray, map_some]
            split
            next hemp =>
              refine iff_of_false (fun ⟨_, h, _⟩ => nomatch h) fun ⟨_, h, hname⟩ => ?_
              cases h
              rw [← hmem, isEmpty_iff.mp hemp] at hname
              cases hname
            next =>
              simp only [some.injEq, array.injEq, exists_eq_left']
              exact hmem
        | _ => simp [Json.asArray]
  · intro key property
    simp only [← bind_asObject]
    cases (map.lookup "properties".toList).bind asObject with
    | none =>
        refine iff_of_false (fun ⟨properties, h, hproperty⟩ => ?_) fun ⟨_, h, _⟩ => nomatch h
        rw [map_none, none_or, bind_asObject] at h
        obtain ⟨-, h⟩ := ite_none_right_eq_some.mp h
        cases h
        cases hproperty
    | some properties =>
        rw [map_some, some_or, bind_some]
        dsimp only [asObject]
        simp only [some.injEq, exists_eq_left', lookup_map_snd]

theorem accepts_type_iff {type : Text} (htype : map.lookup "type".toList = some (.string type))
    (hprops : (map.lookup "properties".toList).getD (.object []) = .object [])
    (hoth : ∀ key ∈ ["enum", "required", "items", "anyOf"], map.lookup key.toList = none) :
    Accepts meaning (.object map) value ↔ meaning.HasType type value := by
  simp only [forall_mem_cons, not_mem_nil, false_implies, implies_true, and_true] at hoth
  obtain ⟨henum, hrequired, hits, hanyOf⟩ := hoth
  constructor
  · intro h
    cases h with
    | object _ htyped => exact htyped _ htype
  · intro h
    refine .object .null ?_ ?_ ?_ ?_ ?_ ?_ ?_
    · intro type' htype'
      rw [htype] at htype'
      cases htype'
      exact h
    · exact fun _ hlk => nomatch henum.symm.trans hlk
    · exact fun _ _ _ hlk => nomatch hrequired.symm.trans hlk
    · intro properties _ key _ _ hlk _ hkey _
      rw [hlk, getD_some] at hprops
      cases hprops
      cases hkey
    · exact fun _ _ _ hlk => nomatch hits.symm.trans hlk
    · exact fun _ hlk => nomatch hanyOf.symm.trans hlk
    · exact fun _ hlk => nomatch hanyOf.symm.trans hlk

theorem accepts_items_iff (ih : ∀ {schema value : Json}, Accepts meaning schema value →
      (Accepts meaning (sanitizeJsonSchema depthLeft schema) value ↔ Withstands meaning depthLeft schema value))
    (h : Accepts meaning schema value) :
    Accepts meaning (sanitizeJsonSchemaItems (sanitizeJsonSchema depthLeft) schema) value ↔
      if (schema.get "type").isSome || (schema.get "properties").isSome then Withstands meaning depthLeft schema value
      else meaning.HasType "string" value := by
  cases h with
  | @object map _ choice htype henum hrequired hprops hits hcho hanyOf =>
      by_cases hkept : ((map.lookup "type".toList).isSome || (map.lookup "properties".toList).isSome) = true
      · have hitem : sanitizeJsonSchemaItems (sanitizeJsonSchema depthLeft) (.object map) =
            sanitizeJsonSchema depthLeft (.object map) := if_pos hkept
        rw [hitem, ih (.object choice htype henum hrequired hprops hits hcho hanyOf)]
        exact (iff_of_eq (if_pos hkept)).symm
      · have hitem : sanitizeJsonSchemaItems (sanitizeJsonSchema depthLeft) (.object map) =
            .obj [("type", .str "string")] := if_neg hkept
        rw [hitem]
        exact (accepts_type_iff rfl rfl (by decide)).trans (iff_of_eq (if_neg hkept)).symm

theorem accepts_sanitized_iff (h : Accepts meaning schema value) :
    Accepts meaning (sanitizeJsonSchema depthLeft schema) value ↔ Withstands meaning depthLeft schema value := by
  induction depthLeft generalizing schema value with
  | zero =>
      rw [sanitizeJsonSchema, Withstands]
      exact accepts_type_iff rfl rfl (by decide)
  | succ depthLeft ih =>
      cases h with
      | @object map _ choice htype henum hrequired hprops hits hcho hanyOf =>
          obtain ⟨fields, hfields, hreduces⟩ := reduces_sanitizeJsonSchema depthLeft map
          rw [hfields, Withstands]
          constructor
          · intro haccepts
            cases haccepts with
            | object choice' htype' _ _ hprops' hits' =>
                refine ⟨fun hnamed => ?_, fun properties members key property member hlk hval hkey hmember => ?_,
                  fun items elements element hlk hval helement => ?_⟩
                · have htyped := htype' _ hreduces.type
                  rwa [hnamed, Option.getD_none] at htyped
                · obtain ⟨properties', hlk', hkey'⟩ := (hreduces.properties key _).mpr
                    ⟨properties, hlk, by rw [hkey, Option.map_some]⟩
                  exact (ih (hprops _ _ _ _ _ hlk hval hkey hmember)).mp
                    (hprops' _ _ _ _ _ hlk' hval hkey' hmember)
                · have hlk' := hreduces.items.trans (congrArg (Option.map _) hlk)
                  exact (accepts_items_iff ih (hits _ _ _ hlk hval helement)).mp
                    (hits' _ _ _ hlk' hval helement)
          · rintro ⟨hnamed, hkept, hkeptItems⟩
            refine .object .null ?_ ?_ ?_ ?_ ?_ ?_ ?_
            · intro type hlk
              rw [hreduces.type] at hlk
              cases hlk
              cases hdeclared : (object map).getStr "type" with
              | none => exact hnamed hdeclared
              | some type =>
                  obtain ⟨found, hfnd, hstr⟩ := Option.bind_eq_some_iff.mp hdeclared
                  rw [asStr_eq_some] at hstr
                  cases hstr
                  exact htype _ hfnd
            · rw [hreduces.enum]
              exact henum
            · intro names members name hlk hval hname
              obtain ⟨names', hlk', hname'⟩ := (hreduces.required name).mp ⟨names, hlk, hname⟩
              exact hrequired _ _ _ hlk' hval hname'
            · intro properties members key property member hlk hval hkey hmember
              obtain ⟨properties', hlk', hmapped⟩ := (hreduces.properties key property).mp ⟨properties, hlk, hkey⟩
              obtain ⟨property', hkey', rfl⟩ := Option.map_eq_some_iff.mp hmapped
              exact (ih (hprops _ _ _ _ _ hlk' hval hkey' hmember)).mpr
                (hkept _ _ _ _ _ hlk' hval hkey' hmember)
            · intro schema elements element hlk hval helement
              rw [hreduces.items] at hlk
              obtain ⟨items, hlk', rfl⟩ := Option.map_eq_some_iff.mp hlk
              exact (accepts_items_iff ih (hits _ _ _ hlk' hval helement)).mpr
                (hkeptItems _ _ _ hlk' hval helement)
            · exact fun _ hlk => nomatch hreduces.anyOf.symm.trans hlk
            · exact fun _ hlk => nomatch hreduces.anyOf.symm.trans hlk

variable (serde : SerdeJson)

theorem sanitizeToolParameters_object (map : List (Text × Json)) : sanitizeToolParameters serde (.object map) =
    if byteLen (serde.toText (sanitizeJsonSchema (MAX_COMPAT_TOOL_SCHEMA_DEPTH + 1) (.object map))) >
      MAX_COMPAT_TOOL_SCHEMA_CHARS
    then anyObject else sanitizeJsonSchema (MAX_COMPAT_TOOL_SCHEMA_DEPTH + 1) (.object map) := rfl

/-- A value that a schema of parameters accepts is accepted by the reduced schema exactly when it survives; where that
is too long, when it is an object. -/
theorem sanitized_accepts_iff (h : Accepts meaning schema value) :
    Accepts meaning (sanitizeToolParameters serde schema) value ↔
      if byteLen (serde.toText (sanitizeJsonSchema (MAX_COMPAT_TOOL_SCHEMA_DEPTH + 1) schema)) > MAX_COMPAT_TOOL_SCHEMA_CHARS
      then meaning.HasType "object" value else Withstands meaning (MAX_COMPAT_TOOL_SCHEMA_DEPTH + 1) schema value := by
  have hparsed : ∃ map, schema = .object map := by
    cases h with
    | object => exact ⟨_, rfl⟩
  obtain ⟨map, rfl⟩ := hparsed
  rw [sanitizeToolParameters_object]
  split
  · exact accepts_type_iff rfl rfl (by decide)
  · exact accepts_sanitized_iff h

end

/-! ## A parameter with listed values -/

def modeMeaning : Meaning where
  same a b := a = b
  isWhole _ := False

def modeSchema : Json := .obj [("type", .str "object"), ("properties", .obj [("mode", .obj [("enum", .array [.str "fast"])])])]

def modeValue : Json := .obj [("mode", .str "fast")]

/-- The text of the reduced schema, its keys in order. -/
def modeSerde : SerdeJson where
  toText _ := "\x7b\"additionalProperties\":true,\"properties\":\x7b\"mode\":\x7b\"additionalProperties\":true," ++
    "\"enum\":[\"fast\"],\"properties\":\x7b\x7d,\"type\":\"object\"\x7d\x7d,\"type\":\"object\"\x7d"
  fromStr _ := none

theorem mode_accepts : Accepts modeMeaning (.obj [("enum", .array [.str "fast"])]) (.str "fast") := by
  refine .object .null ?_ ?_ ?_ ?_ ?_ ?_ ?_
  · exact fun _ hlk => nomatch hlk
  · intro values hlk
    cases hlk
    exact ⟨_, mem_singleton_self _, rfl⟩
  · exact fun _ _ _ hlk => nomatch hlk
  · exact fun _ _ _ _ _ hlk => nomatch hlk
  · exact fun _ _ _ hlk => nomatch hlk
  · exact fun _ hlk => nomatch hlk
  · exact fun _ hlk => nomatch hlk

theorem modeSchema_accepts : Accepts modeMeaning modeSchema modeValue := by
  refine .object .null ?_ ?_ ?_ ?_ ?_ ?_ ?_
  · intro type hlk
    cases hlk
    rfl
  · exact fun _ hlk => nomatch hlk
  · exact fun _ _ _ hlk => nomatch hlk
  · intro properties members key property member hlk hval hkey hmember
    cases hlk
    cases hval
    by_cases hmode : key = "mode".toList
    · subst hmode
      cases hkey
      cases hmember
      exact mode_accepts
    · have hbeq : (key == "mode".toList) = false := beq_eq_false_iff_ne.mpr hmode
      change (match key == "mode".toList with | true => _ | false => none) = _ at hkey
      rw [hbeq] at hkey
      cases hkey
  · exact fun _ _ _ hlk => nomatch hlk
  · exact fun _ hlk => nomatch hlk
  · exact fun _ hlk => nomatch hlk

theorem sanitized_accepts_iff_mode : Accepts modeMeaning (sanitizeToolParameters modeSerde modeSchema) modeValue ↔
    if byteLen (modeSerde.toText (sanitizeJsonSchema (MAX_COMPAT_TOOL_SCHEMA_DEPTH + 1) modeSchema)) >
      MAX_COMPAT_TOOL_SCHEMA_CHARS
    then modeMeaning.HasType "object" modeValue
    else Withstands modeMeaning (MAX_COMPAT_TOOL_SCHEMA_DEPTH + 1) modeSchema modeValue :=
  sanitized_accepts_iff modeSerde modeSchema_accepts

/-- A property without a type that lists its values only takes objects afterwards. -/
theorem modeSchema_forbids : Accepts modeMeaning modeSchema modeValue ∧
    ¬Accepts modeMeaning (sanitizeToolParameters modeSerde modeSchema) modeValue := by
  refine ⟨modeSchema_accepts, fun h => ?_⟩
  have hshort : ¬byteLen (modeSerde.toText (sanitizeJsonSchema (MAX_COMPAT_TOOL_SCHEMA_DEPTH + 1) modeSchema)) >
      MAX_COMPAT_TOOL_SCHEMA_CHARS := by decide +kernel
  have hsanitized : sanitizeToolParameters modeSerde modeSchema =
      sanitizeJsonSchema (MAX_COMPAT_TOOL_SCHEMA_DEPTH + 1) modeSchema :=
    (sanitizeToolParameters_object ..).trans (if_neg hshort)
  rw [hsanitized] at h
  change Accepts _ (.obj [("type", .str "object"), ("properties", .obj [("mode", .obj [("enum", .array [.str "fast"]),
    ("type", .str "object"), ("properties", .object []), ("additionalProperties", .bool true)])]),
    ("additionalProperties", .bool true)]) _ at h
  cases h with
  | object _ _ _ _ hprops =>
      have hmode := hprops _ _ "mode" _ _ rfl rfl rfl rfl
      cases hmode with
      | object _ htype => exact nomatch htype _ rfl

end CodexStudy.Bridge
