import CodexStudy.Config.Lemmas.Merge
import CodexStudy.Lib.Lists

/-!
# Origins and the effective configuration

The origins keep what a layer has set, also after a later layer has replaced it.
-/

namespace CodexStudy.Config

open CodexStudy.Lib List TomlTable

/-! ## What is asked of the origins -/

variable (layers : List ConfigLayerEntry) (layer : ConfigLayerEntry) (path : List Text)

def ConfigLayerEntry.normalized : TomlValue := normalizedWithKeyAliases [] layer.config

def ConfigLayerStack.enabled (stack : ConfigLayerStack) : List ConfigLayerEntry :=
  stack.getLayers .lowestPrecedenceFirst false

/-- The layer has a leaf at the path, and no later one has. -/
def LastWithLeaf (value : TomlScalar) :
    Prop :=
  ∃ before after, layers = before ++ layer :: after ∧ LeafAt layer.normalized path value ∧
    ∀ later ∈ after, ∀ other, ¬ LeafAt later.normalized path other

structure OriginsDescribe (stack : ConfigLayerStack) : Prop where
  keys : ∀ field, (∃ metadata, stack.origins.lookup field = some metadata) ↔
    ∃ path value, LeafAt stack.effectiveConfig path value ∧ path ≠ [] ∧ fieldPath path = field
  layers : ∀ path value, LeafAt stack.effectiveConfig path value → path ≠ [] →
    ∃ layer, LastWithLeaf stack.enabled layer path value ∧
      stack.origins.lookup (fieldPath path) = some layer.metadata

/-! ## When they do -/

/-- The layer has a leaf that is written like this. -/
def Writes (field : Text) : Prop :=
  ∃ path value, LeafAt layer.normalized path value ∧ path ≠ [] ∧ fieldPath path = field

/-- The leaf of the layer is not replaced by any later layer. -/
def Survives (value : TomlScalar) : Prop :=
  ∃ before after, layers = before ++ layer :: after ∧ LeafAt layer.normalized path value ∧
    ∀ later ∈ after, ¬ Replaces layer.normalized later.normalized path

/-- The last layer to write a field, and each leaf written like it that survives. -/
structure FieldKept (layers : List ConfigLayerEntry) (layer : ConfigLayerEntry) (field : Text) : Prop where
  survives : ∃ other path value, Survives layers other path value ∧ path ≠ [] ∧ fieldPath path = field
  alike : ∀ other path value, Survives layers other path value → path ≠ [] → fieldPath path = field →
    other.metadata = layer.metadata

/-- No field is replaced after the last layer that writes it, and leaves written alike come from layers described alike.
-/
def FieldsKept (stack : ConfigLayerStack) : Prop :=
  ∀ before layer after field, stack.enabled = before ++ layer :: after → Writes layer field →
    (∀ later ∈ after, ¬ Writes later field) → FieldKept stack.enabled layer field

/-! ## Recording -/

def WrittenBelow (value : TomlValue) (field : Text) : Prop :=
  ∃ rest scalar, LeafAt value rest scalar ∧ path ++ rest ≠ [] ∧ fieldPath (path ++ rest) = field

def Records (metadata : ConfigLayerMetadata) (step : Origins → Origins) (W : Text → Prop) : Prop :=
  ∀ origins field other, (step origins).lookup field = some other ↔
    (W field ∧ other = metadata) ∨ (¬ W field ∧ origins.lookup field = some other)

section

variable {metadata : ConfigLayerMetadata} {step step' : Origins → Origins} {W W' : Text → Prop} {path : List Text}

theorem Records.comp (h : Records metadata step W) (h' : Records metadata step' W') {V : Text → Prop}
    (hV : ∀ field, V field ↔ W field ∨ W' field) : Records metadata (fun origins => step' (step origins)) V := by
  intro origins field other
  have hstep := h origins field other
  have hstep' := h' (step origins) field other
  rw [hV field]
  by_cases hW : W field <;> by_cases hW' : W' field <;> simp_all

theorem records_entries {entries : TomlTable}
    (ih : ∀ entry ∈ entries, ∀ path, Records metadata (recordOrigins metadata path entry.2) (WrittenBelow path entry.2)) :
    Records metadata (recordEntries metadata path entries) fun field =>
      ∃ entry ∈ entries, WrittenBelow (path ++ [entry.1]) entry.2 field := by
  induction entries with
  | nil =>
      intro origins field other
      rw [recordEntries]
      simp
  | cons entry entries ihEntries =>
      obtain ⟨key, value⟩ := entry
      have hfst := ih (key, value) mem_cons_self (path ++ [key])
      have hrest := ihEntries fun entry hmem => ih entry (mem_cons_of_mem _ hmem)
      have hboth := hfst.comp hrest (V := fun field =>
        ∃ entry ∈ (key, value) :: entries, WrittenBelow (path ++ [entry.1]) entry.2 field) (by simp)
      intro origins field other
      rw [recordEntries]
      exact hboth origins field other

theorem records_items {items : List TomlValue} (idx : Nat)
    (ih : ∀ item ∈ items, ∀ path, Records metadata (recordOrigins metadata path item) (WrittenBelow path item)) :
    Records metadata (recordItems metadata path idx items) fun field =>
      ∃ i item, items[i]? = some item ∧ WrittenBelow (path ++ [indexKey (idx + i)]) item field := by
  induction items generalizing idx with
  | nil =>
      intro origins field other
      rw [recordItems]
      simp
  | cons item items ihItems =>
      have hfst := ih item mem_cons_self (path ++ [indexKey idx])
      have hrest := ihItems (idx + 1) fun item hmem => ih item (mem_cons_of_mem _ hmem)
      have hboth := hfst.comp hrest (V := fun field =>
        ∃ i item', (item :: items)[i]? = some item' ∧ WrittenBelow (path ++ [indexKey (idx + i)]) item' field) (by
          intro field
          constructor
          · rintro ⟨i, item', hitem, hwr⟩
            cases i with
            | zero =>
                cases hitem
                exact .inl hwr
            | succ i => exact .inr ⟨i, item', hitem, by rwa [Nat.add_right_comm, Nat.add_assoc]⟩
          · rintro (hwr | ⟨i, item', hitem, hwr⟩)
            · exact ⟨0, item, rfl, hwr⟩
            · exact ⟨i + 1, item', hitem, by rwa [Nat.add_right_comm, Nat.add_assoc] at hwr⟩)
      intro origins field other
      rw [recordItems]
      exact hboth origins field other

theorem records_recordOrigins (metadata : ConfigLayerMetadata) (value : TomlValue) (path : List Text) :
    Records metadata (recordOrigins metadata path value) (WrittenBelow path value) := by
  induction value using values_induction generalizing path with
  | scalar value =>
      intro origins field other
      have hscalar : WrittenBelow path (.scalar value) field ↔ path ≠ [] ∧ fieldPath path = field := by
        constructor
        · rintro ⟨rest, scalar, ⟨⟩, hne, hfield⟩
          exact ⟨by simpa using hne, by simpa using hfield⟩
        · rintro ⟨hne, hfield⟩
          exact ⟨[], value, .scalar value, by simpa using hne, by simpa using hfield⟩
      rw [recordOrigins, hscalar]
      by_cases hpath : path = []
      · simp [hpath]
      · rw [if_neg (by simpa using hpath), HashMap.lookup_insert_eq]
        by_cases hfield : field = fieldPath path
        · simp [hpath, hfield, eq_comm]
        · simp [hpath, hfield, Ne.symm hfield]
  | array items ih =>
      intro origins field other
      have hits : WrittenBelow path (.array items) field ↔
          ∃ i item, items[i]? = some item ∧ WrittenBelow (path ++ [indexKey (0 + i)]) item field := by
        constructor
        · rintro ⟨rest, scalar, hleaf, -, hfield⟩
          cases hleaf with
          | item hitem hleaf =>
              exact ⟨_, _, hitem, _, scalar, hleaf, by simp, by simpa using hfield⟩
        · rintro ⟨i, item, hitem, rest, scalar, hleaf, -, hfield⟩
          exact ⟨_, scalar, .item hitem hleaf, by simp, by simpa using hfield⟩
      rw [recordOrigins, hits]
      exact records_items 0 ih origins field other
  | table entries ih =>
      intro origins field other
      have hents : WrittenBelow path (.table entries) field ↔
          ∃ entry ∈ entries, WrittenBelow (path ++ [entry.1]) entry.2 field := by
        constructor
        · rintro ⟨rest, scalar, hleaf, -, hfield⟩
          cases hleaf with
          | field hent hleaf => exact ⟨_, hent, _, scalar, hleaf, by simp, by simpa using hfield⟩
        · rintro ⟨⟨key, child⟩, hent, rest, scalar, hleaf, -, hfield⟩
          exact ⟨_, scalar, .field hent hleaf, by simp, by simpa using hfield⟩
      rw [recordOrigins, hents]
      exact records_entries ih origins field other

end

/-! ## Folding the layers -/

theorem writes_iff {layer : ConfigLayerEntry} {field : Text} :
    Writes layer field ↔ WrittenBelow [] layer.normalized field := Iff.rfl

theorem lookup_foldl_recordOrigins (field : Text) (metadata : ConfigLayerMetadata) :
    (layers.foldl (fun origins layer => recordOrigins layer.metadata [] layer.normalized origins) ∅).lookup field =
        some metadata ↔ ∃ before layer after, layers = before ++ layer :: after ∧ Writes layer field ∧
        (∀ later ∈ after, ¬ Writes later field) ∧ metadata = layer.metadata := by
  induction layers using reverseRecOn with
  | nil => simp
  | append_singleton layers last ih =>
      rw [foldl_append, foldl_cons, foldl_nil,
        records_recordOrigins last.metadata last.normalized [] _ field metadata, ← writes_iff, ih]
      constructor
      · rintro (⟨hws, rfl⟩ | ⟨hnot, before, layer, after, rfl, hws, hlast, rfl⟩)
        · exact ⟨layers, last, [], by simp, hws, by simp, rfl⟩
        · refine ⟨before, layer, after ++ [last], by simp, hws, ?_, rfl⟩
          simpa [or_imp, forall_and] using ⟨hlast, hnot⟩
      · rintro ⟨before, layer, after, hspl, hws, hlast, rfl⟩
        rcases split_concat.mp hspl with ⟨rfl, rfl, rfl⟩ | ⟨after', rfl, rfl⟩
        · exact .inl ⟨hws, rfl⟩
        · refine .inr ⟨hlast last (by simp), before, layer, after', rfl, hws, ?_, rfl⟩
          exact fun later hmem => hlast later (mem_append_left _ hmem)

theorem survives_concat {layers : List ConfigLayerEntry} {last layer : ConfigLayerEntry} {path : List Text}
    {value : TomlScalar} : Survives (layers ++ [last]) layer path value ↔
      (layer = last ∧ LeafAt last.normalized path value) ∨
        (Survives layers layer path value ∧ ¬ Replaces layer.normalized last.normalized path) := by
  constructor
  · rintro ⟨before, after, hspl, hleaf, hkept⟩
    rcases split_concat.mp hspl with ⟨rfl, rfl, rfl⟩ | ⟨after', rfl, rfl⟩
    · exact .inl ⟨rfl, hleaf⟩
    · refine .inr ⟨⟨before, after', rfl, hleaf, fun later hmem => hkept later (mem_append_left _ hmem)⟩, ?_⟩
      exact hkept last (by simp)
  · rintro (⟨rfl, hleaf⟩ | ⟨⟨before, after, rfl, hleaf, hkept⟩, hlast⟩)
    · exact ⟨layers, [], rfl, hleaf, by simp⟩
    · refine ⟨before, after ++ [last], by simp, hleaf, ?_⟩
      simpa [or_imp, forall_and] using ⟨hkept, hlast⟩

/-- The leaves of the merged value are those that survive; on the way to a leaf is what its layer has there. -/
structure Merged (layers : List ConfigLayerEntry) (merged : TomlValue) : Prop where
  wellFormed : merged.WellFormed
  canonical : Canonical [] merged
  leaf : ∀ path value, LeafAt merged path value ↔ ∃ layer, Survives layers layer path value
  way : ∀ layer path value other, Survives layers layer path value →
    (Replaces merged other path ↔ Replaces layer.normalized other path)

theorem merged_nil : Merged [] (.table []) where
  wellFormed := .table (by simp [TomlTable.keys]) (by simp)
  canonical := .table (by simp [NoLegacy, TomlTable.keys]) (by simp)
  leaf path value := by
    constructor
    · rintro ⟨⟩
      contradiction
    · rintro ⟨layer, before, after, hspl, -⟩
      simp at hspl
  way layer path value other := by
    rintro ⟨before, after, hspl, -⟩
    simp at hspl

theorem Merged.concat {layers : List ConfigLayerEntry} {merged : TomlValue} (h : Merged layers merged)
    (last : ConfigLayerEntry) : Merged (layers ++ [last]) (mergeTomlValues merged last.config) := by
  have hmerges : Merges [] merged last.config (mergeTomlValues merged last.config) :=
    merges_mergeTomlValuesAtPath last.wellFormed h.wellFormed h.canonical
  refine ⟨hmerges.wellFormed, hmerges.canonical, fun path value => ?_, fun layer path value other hsurv => ?_⟩
  · rw [hmerges.spec.leaf path value, h.leaf path value]
    constructor
    · rintro (hleaf | ⟨⟨layer, hsurv⟩, hkept⟩)
      · exact ⟨last, survives_concat.mpr (.inl ⟨rfl, hleaf⟩)⟩
      · rw [h.way layer path value _ hsurv] at hkept
        exact ⟨layer, survives_concat.mpr (.inr ⟨hsurv, hkept⟩)⟩
    · rintro ⟨layer, hsurv⟩
      rcases survives_concat.mp hsurv with ⟨rfl, hleaf⟩ | ⟨hsurv, hkept⟩
      · exact .inl hleaf
      · exact .inr ⟨⟨layer, hsurv⟩, (h.way layer path value _ hsurv).not.mpr hkept⟩
  · rcases survives_concat.mp hsurv with ⟨rfl, hleaf⟩ | ⟨hsurv, hkept⟩
    · exact hmerges.spec.new path value other hleaf
    · have hleaf := (h.leaf path value).mpr ⟨layer, hsurv⟩
      rw [hmerges.spec.old path value other hleaf ((h.way layer path value _ hsurv).not.mpr hkept)]
      exact h.way layer path value other hsurv

theorem merged_effectiveConfig (stack : ConfigLayerStack) : Merged stack.enabled stack.effectiveConfig := by
  have hfold : ∀ layers : List ConfigLayerEntry,
      Merged layers (layers.foldl (fun merged layer => mergeTomlValues merged layer.config) (.table [])) := by
    intro layers
    induction layers using reverseRecOn with
    | nil => exact merged_nil
    | append_singleton layers last ih =>
        rw [foldl_append, foldl_cons, foldl_nil]
        exact ih.concat last
  exact hfold stack.enabled

/-! ## The condition -/

section

variable {layers : List ConfigLayerEntry} {layer : ConfigLayerEntry} {path : List Text} {value : TomlScalar}

theorem lastWithLeaf_of_survives (h : Survives layers layer path value) : LastWithLeaf layers layer path value := by
  obtain ⟨before, after, hspl, hleaf, hkept⟩ := h
  exact ⟨before, after, hspl, hleaf, fun later hmem other hoth => hkept later hmem (replaces_of_leaves hleaf hoth)⟩

theorem eq_of_lastWithLeaf {layer' : ConfigLayerEntry} {value' : TomlScalar} (h : LastWithLeaf layers layer path value)
    (h' : LastWithLeaf layers layer' path value') : layer = layer' := by
  obtain ⟨before, after, rfl, hleaf, hlast⟩ := h
  obtain ⟨before', after', hspl, hleaf', hlast'⟩ := h'
  apply last_unique (P := fun layer => ∃ value, LeafAt layer.normalized path value) hspl ⟨value, hleaf⟩ _ ⟨value', hleaf'⟩
  · rintro later hmem ⟨other, hoth⟩
    exact hlast' later hmem other hoth
  · rintro later hmem ⟨other, hoth⟩
    exact hlast later hmem other hoth

end

/-- The origins describe the effective configuration exactly when no field is replaced after the last layer that writes
it, and leaves written alike come from layers described alike. -/
theorem originsDescribe_iff (stack : ConfigLayerStack) : OriginsDescribe stack ↔ FieldsKept stack := by
  have hmrg := merged_effectiveConfig stack
  have horigins : ∀ field metadata, stack.origins.lookup field = some metadata ↔ _ :=
    lookup_foldl_recordOrigins stack.enabled
  constructor
  · intro h before layer after field hspl hws hlast
    have hlk := (horigins field layer.metadata).mpr ⟨before, layer, after, hspl, hws, hlast, rfl⟩
    constructor
    · obtain ⟨path, value, hleaf, hne, hfield⟩ := (h.keys field).mp ⟨_, hlk⟩
      obtain ⟨other, hsurv⟩ := (hmrg.leaf path value).mp hleaf
      exact ⟨other, path, value, hsurv, hne, hfield⟩
    · rintro other path value hsurv hne rfl
      have hleaf := (hmrg.leaf path value).mpr ⟨other, hsurv⟩
      obtain ⟨layer', hlayer', hlk'⟩ := h.layers path value hleaf hne
      rw [eq_of_lastWithLeaf (lastWithLeaf_of_survives hsurv) hlayer']
      rw [hlk] at hlk'
      exact (Option.some.inj hlk').symm
  · intro h
    have hrec : ∀ path value layer, Survives stack.enabled layer path value → path ≠ [] →
        stack.origins.lookup (fieldPath path) = some layer.metadata := by
      intro path value layer hsurv hne
      have hws : ∃ layer ∈ stack.enabled, Writes layer (fieldPath path) := by
        obtain ⟨before, after, hspl, hleaf, -⟩ := hsurv
        exact ⟨layer, by rw [hspl]; simp, path, value, hleaf, hne, rfl⟩
      obtain ⟨before, last, after, hspl, hlastWrites, hlast⟩ := exists_last hws
      have hkept := h before last after (fieldPath path) hspl hlastWrites hlast
      rw [hkept.alike layer path value hsurv hne rfl]
      exact (horigins _ _).mpr ⟨before, last, after, hspl, hlastWrites, hlast, rfl⟩
    constructor
    · intro field
      constructor
      · rintro ⟨metadata, hlk⟩
        obtain ⟨before, layer, after, hspl, hws, hlast, -⟩ := (horigins field metadata).mp hlk
        obtain ⟨other, path, value, hsurv, hne, hfield⟩ := (h before layer after field hspl hws hlast).survives
        exact ⟨path, value, (hmrg.leaf path value).mpr ⟨other, hsurv⟩, hne, hfield⟩
      · rintro ⟨path, value, hleaf, hne, rfl⟩
        obtain ⟨layer, hsurv⟩ := (hmrg.leaf path value).mp hleaf
        exact ⟨_, hrec path value layer hsurv hne⟩
    · intro path value hleaf hne
      obtain ⟨layer, hsurv⟩ := (hmrg.leaf path value).mp hleaf
      exact ⟨layer, lastWithLeaf_of_survives hsurv, hrec path value layer hsurv hne⟩

/-! ## A table that is replaced -/

def sampleLayer (name : ConfigLayerSource) (value : TomlValue) (h : value.WellFormed) : ConfigLayerEntry where
  name := name
  config := .table [(['a'], value)]
  version := []
  disabledReason := none
  wellFormed := .table (by simp [TomlTable.keys]) (by simpa using h)

def replacedTable : ConfigLayerStack where
  layers :=
    [sampleLayer (.user "config.toml" none) (.table [(['b'], .scalar (.integer 1))])
        (.table (by simp [TomlTable.keys]) (by simpa using .scalar _)),
      sampleLayer .sessionFlags (.scalar (.integer 2)) (.scalar _)]

/-- The field `a.b` has an origin and is not there. -/
theorem replaced_field_recorded : ¬ ∀ stack, OriginsDescribe stack := by
  intro h
  have hrec : replacedTable.origins.lookup "a.b".toList =
      some (ConfigLayerMetadata.mk (.user "config.toml".toList none) []) := by
    decide
  have heffective : replacedTable.effectiveConfig = .table [(['a'], .scalar (.integer 2))] := by
    have hroot : ∀ table, normalizeKeyAliases [] table = table :=
      fun table => normalizeKeyAliases_of_noLegacy (by simp [NoLegacy, CONFIG_KEY_ALIASES])
    have hfield : ∀ value, normalizedWithKeyAliases [['a']] value = value :=
      fun value => normalized_of_unaliased value (by simp [Unaliased, CONFIG_KEY_ALIASES])
    simp [ConfigLayerStack.effectiveConfig, ConfigLayerStack.getLayers, replacedTable, sampleLayer,
      ConfigLayerEntry.isDisabled, mergeTomlValues, mergeTomlValuesAtPath, mergeTablesAtPath, hroot, hfield,
      TomlTable.insert, TomlTable.keys]
  obtain ⟨path, value, hleaf, -, hfield⟩ := ((h replacedTable).keys _).mp ⟨_, hrec⟩
  rw [heffective] at hleaf
  cases hleaf with
  | field hent hleaf =>
      obtain ⟨rfl, rfl⟩ : _ ∧ _ := by simpa using hent
      cases hleaf
      exact absurd hfield (by decide)

end CodexStudy.Config
