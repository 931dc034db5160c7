import CodexStudy.Lib.HashMap
import CodexStudy.Lib.Text

/-!
# Layers of the configuration (`config/src/{merge,key_aliases,fingerprint,state}.rs`)

A table is the list of its entries, and a value is well formed when no table in it has a key twice.
-/

namespace CodexStudy.Config

open CodexStudy.Lib

/-! ## Values -/

inductive TomlScalar where
  | string (text : Text)
  | integer (n : Int)
  | float (literal : Text)
  | boolean (b : Bool)
  | datetime (literal : Text)

inductive TomlValue where
  | scalar (value : TomlScalar)
  | array (items : List TomlValue)
  | table (entries : List (Text × TomlValue))

abbrev TomlTable := List (Text × TomlValue)

variable (path : List Text) (table : TomlTable)

namespace TomlTable

def keys : List Text := table.map (·.1)

def remove (key : Text) : TomlTable := table.filter fun entry => entry.1 ≠ key

def insert (key : Text) (value : TomlValue) : TomlTable :=
  if key ∈ table.keys then table.map fun entry => if entry.1 = key then (key, value) else entry
  else table ++ [(key, value)]

def orInsert (key : Text) (value : TomlValue) : TomlTable :=
  if key ∈ table.keys then table else table ++ [(key, value)]

end TomlTable

inductive TomlValue.WellFormed : TomlValue → Prop where
  | scalar (value : TomlScalar) : WellFormed (.scalar value)
  | array {items : List TomlValue} (hitems : ∀ item ∈ items, WellFormed item) : WellFormed (.array items)
  | table {entries : TomlTable} (hkeys : entries.keys.Nodup) (hentries : ∀ entry ∈ entries, WellFormed entry.2) :
      WellFormed (.table entries)

/-! ## Aliases of keys -/

structure ConfigKeyAlias where
  tablePath : List Text
  legacyKey : Text
  canonicalKey : Text

def CONFIG_KEY_ALIASES : List ConfigKeyAlias :=
  [{ tablePath := ["memories"]
     legacyKey := "no_memories_if_mcp_or_web_search"
     canonicalKey := "disable_on_external_context" }]

def normalizeKeyAlias (keyAlias : ConfigKeyAlias) : TomlTable :=
  if path = keyAlias.tablePath then
    match table.lookup keyAlias.legacyKey with
    | some value => (table.remove keyAlias.legacyKey).orInsert keyAlias.canonicalKey value
    | none => table
  else table

def normalizeKeyAliases : TomlTable :=
  CONFIG_KEY_ALIASES.foldl (normalizeKeyAlias path) table

mutual

def normalizedWithKeyAliases (path : List Text) : TomlValue → TomlValue
  | .table entries => .table (normalizeKeyAliases path (normalizedEntries path entries))
  | .array items => .array (normalizedItems path items)
  | .scalar value => .scalar value

def normalizedEntries (path : List Text) : List (Text × TomlValue) → List (Text × TomlValue)
  | [] => []
  | (key, child) :: entries => (key, normalizedWithKeyAliases (path ++ [key]) child) :: normalizedEntries path entries

def normalizedItems (path : List Text) : List TomlValue → List TomlValue
  | [] => []
  | item :: items => normalizedWithKeyAliases path item :: normalizedItems path items

end

/-! ## Merging -/

mutual

def TomlValue.size : TomlValue → Nat
  | .scalar _ => 1
  | .array items => itemsSize items + 1
  | .table entries => entriesSize entries + 1

def itemsSize : List TomlValue → Nat
  | [] => 0
  | item :: items => item.size + itemsSize items

def entriesSize : List (Text × TomlValue) → Nat
  | [] => 0
  | (_, value) :: entries => value.size + entriesSize entries + 1

end

theorem entriesSize_append (entries entries' : TomlTable) :
    entriesSize (entries ++ entries') = entriesSize entries + entriesSize entries' := by
  induction entries with
  | nil => simp [entriesSize]
  | cons entry entries ih =>
      simp only [List.cons_append, entriesSize, ih]
      omega

theorem entriesSize_remove_le (key : Text) : entriesSize (table.remove key) ≤ entriesSize table := by
  induction table with
  | nil => simp [TomlTable.remove]
  | cons entry table ih =>
      have hcons : (TomlTable.remove (entry :: table) key) = TomlTable.remove [entry] key ++ TomlTable.remove table key := by
        simp [TomlTable.remove, ← List.filter_append]
      have hhead : entriesSize (TomlTable.remove [entry] key) ≤ entriesSize [entry] := by
        by_cases hkey : entry.1 = key <;> simp [TomlTable.remove, hkey, entriesSize]
      have happ : entriesSize (entry :: table) = entriesSize [entry] + entriesSize table :=
        entriesSize_append [entry] table
      rw [hcons, entriesSize_append, happ]
      omega

theorem entriesSize_remove {table : TomlTable} {key : Text} {value : TomlValue} (h : table.lookup key = some value) :
    entriesSize (table.remove key) + value.size + 1 ≤ entriesSize table := by
  induction table with
  | nil => cases h
  | cons entry table ih =>
      obtain ⟨key', value'⟩ := entry
      by_cases hkey : key' = key
      · subst hkey
        obtain rfl : value' = value := by simpa [List.lookup_cons] using h
        have hremove : TomlTable.remove ((key', value') :: table) key' = TomlTable.remove table key' := by
          simp [TomlTable.remove]
        rw [hremove, entriesSize]
        have hle := entriesSize_remove_le table key'
        omega
      · have hlk : List.lookup key table = some value := by
          have hne : (key == key') = false := by simpa using Ne.symm hkey
          simpa [List.lookup_cons, hne] using h
        have hremove : TomlTable.remove ((key', value') :: table) key = (key', value') :: TomlTable.remove table key := by
          simp [TomlTable.remove, hkey]
        rw [hremove, entriesSize, entriesSize]
        have hrest := ih hlk
        omega

theorem entriesSize_normalizeKeyAliases :
    entriesSize (normalizeKeyAliases path table) ≤ entriesSize table := by
  have halias : ∀ keyAlias, entriesSize (normalizeKeyAlias path table keyAlias) ≤ entriesSize table := by
    intro keyAlias
    unfold normalizeKeyAlias
    split
    next =>
      split
      next value hval =>
        have hremove := entriesSize_remove hval
        unfold TomlTable.orInsert
        split
        next => omega
        next => simp only [entriesSize_append, entriesSize]; omega
      next => exact Nat.le_refl _
    next => exact Nat.le_refl _
  exact halias _

mutual

def mergeTomlValuesAtPath (base overlay : TomlValue) (path : List Text) : TomlValue :=
  match base, overlay with
  | .table baseTable, .table overlayTable =>
      .table (mergeTablesAtPath (normalizeKeyAliases path baseTable) (normalizeKeyAliases path overlayTable) path)
  | _, overlay => normalizedWithKeyAliases path overlay
termination_by overlay.size
decreasing_by
  have hle := entriesSize_normalizeKeyAliases path overlayTable
  simp only [TomlValue.size]
  omega

def mergeTablesAtPath (baseTable overlayTable : TomlTable) (path : List Text) : TomlTable :=
  match overlayTable with
  | [] => baseTable
  | (key, value) :: rest =>
      let merged := match baseTable.lookup key with
        | some existing => mergeTomlValuesAtPath existing value (path ++ [key])
        | none => normalizedWithKeyAliases (path ++ [key]) value
      mergeTablesAtPath (baseTable.insert key merged) rest path
termination_by entriesSize overlayTable
decreasing_by
  · simp only [entriesSize]
    omega
  · simp only [entriesSize]
    omega

end

def mergeTomlValues (base overlay : TomlValue) : TomlValue := mergeTomlValuesAtPath base overlay []

/-! ## Layers -/

inductive ConfigLayerSource where
  | mdm (domain key : Text)
  | system (file : Text)
  | user (file : Text) (profile : Option Text)
  | project (dotCodexFolder : Text)
  | sessionFlags
  | legacyManagedConfigTomlFromFile (file : Text)
  | legacyManagedConfigTomlFromMdm
  deriving DecidableEq

structure ConfigLayerMetadata where
  name : ConfigLayerSource
  version : Text
  deriving DecidableEq

structure ConfigLayerEntry where
  name : ConfigLayerSource
  config : TomlValue
  version : Text
  disabledReason : Option Text
  wellFormed : config.WellFormed

namespace ConfigLayerEntry

def isDisabled (layer : ConfigLayerEntry) : Bool := layer.disabledReason.isSome

def metadata (layer : ConfigLayerEntry) : ConfigLayerMetadata := { name := layer.name, version := layer.version }

end ConfigLayerEntry

inductive ConfigLayerStackOrdering where
  | lowestPrecedenceFirst
  | highestPrecedenceFirst

/-- The layers, from the lowest precedence to the highest. -/
structure ConfigLayerStack where
  layers : List ConfigLayerEntry

/-! ## Origins -/

abbrev Origins := HashMap Text ConfigLayerMetadata

def fieldPath : Text := Text.join ['.'] path

/-- The index of an item as a part of a path. -/
def indexKey (idx : Nat) : Text := Nat.toDigits 10 idx

mutual

def recordOrigins (metadata : ConfigLayerMetadata) (path : List Text) : TomlValue → Origins → Origins
  | .table entries, origins => recordEntries metadata path entries origins
  | .array items, origins => recordItems metadata path 0 items origins
  | .scalar _, origins => if path.isEmpty then origins else origins.insert (fieldPath path) metadata

def recordEntries (metadata : ConfigLayerMetadata) (path : List Text) : List (Text × TomlValue) → Origins → Origins
  | [], origins => origins
  | (key, value) :: entries, origins =>
      recordEntries metadata path entries (recordOrigins metadata (path ++ [key]) value origins)

def recordItems (metadata : ConfigLayerMetadata) (path : List Text) (idx : Nat) : List TomlValue → Origins → Origins
  | [], origins => origins
  | item :: items, origins =>
      recordItems metadata path (idx + 1) items (recordOrigins metadata (path ++ [indexKey idx]) item origins)

end

namespace ConfigLayerStack

variable (stack : ConfigLayerStack)

def getLayers (ordering : ConfigLayerStackOrdering) (includeDisabled : Bool) : List ConfigLayerEntry :=
  let layers := stack.layers.filter fun layer => includeDisabled || !layer.isDisabled
  match ordering with
  | .lowestPrecedenceFirst => layers
  | .highestPrecedenceFirst => layers.reverse

def effectiveConfig : TomlValue :=
  (stack.getLayers .lowestPrecedenceFirst false).foldl (fun merged layer => mergeTomlValues merged layer.config)
    (.table [])

def origins : Origins :=
  (stack.getLayers .lowestPrecedenceFirst false).foldl
    (fun origins layer => recordOrigins layer.metadata [] (normalizedWithKeyAliases [] layer.config) origins) ∅

end ConfigLayerStack

end CodexStudy.Config
