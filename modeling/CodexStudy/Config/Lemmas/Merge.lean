import CodexStudy.Config.Layers

/-!
# Leaves of a merged configuration
-/

namespace CodexStudy.Config

open CodexStudy.Lib List TomlTable

/-! ## Leaves -/

/-- The scalar at the path. The parts of a path are keys and indices of items. -/
inductive LeafAt : TomlValue → List Text → TomlScalar → Prop where
  | scalar (value : TomlScalar) : LeafAt (.scalar value) [] value
  | item {items : List TomlValue} {idx : Nat} {item : TomlValue} {path : List Text} {value : TomlScalar}
      (hitem : items[idx]? = some item) (h : LeafAt item path value) :
      LeafAt (.array items) (indexKey idx :: path) value
  | field {entries : TomlTable} {key : Text} {child : TomlValue} {path : List Text} {value : TomlScalar}
      (hentry : (key, child) ∈ entries) (h : LeafAt child path value) : LeafAt (.table entries) (key :: path) value

/-- What the overlay has instead of the value at the path or on the way to it. Only a table leaves a table in place. -/
inductive Replaces : TomlValue → TomlValue → List Text → Prop where
  | whole {base overlay : TomlValue} {path : List Text}
      (h : ∀ entries entries', base = .table entries → overlay ≠ .table entries') : Replaces base overlay path
  | field {entries entries' : TomlTable} {key : Text} {old new : TomlValue} {path : List Text}
      (hold : (key, old) ∈ entries) (hnew : (key, new) ∈ entries') (h : Replaces old new path) :
      Replaces (.table entries) (.table entries') (key :: path)

section

variable {entries entries' : TomlTable} {key : Text} {path : List Text} {value : TomlScalar}

theorem leafAt_table_cons : LeafAt (.table entries) (key :: path) value ↔
    ∃ child, (key, child) ∈ entries ∧ LeafAt child path value := by
  constructor
  · rintro ⟨⟩
    exact ⟨_, by assumption, by assumption⟩
  · rintro ⟨child, hent, h⟩
    exact .field hent h

theorem not_leafAt_table_nil : ¬ LeafAt (.table entries) [] value := by
  rintro ⟨⟩

theorem replaces_table_cons : Replaces (.table entries) (.table entries') (key :: path) ↔
    ∃ old new, (key, old) ∈ entries ∧ (key, new) ∈ entries' ∧ Replaces old new path := by
  constructor
  · rintro (⟨h⟩ | ⟨hold, hnew, h⟩)
    · exact absurd rfl (h entries entries' rfl)
    · exact ⟨_, _, hold, hnew, h⟩
  · rintro ⟨old, new, hold, hnew, h⟩
    exact .field hold hnew h

theorem replaces_of_not_table {base overlay : TomlValue} (h : ∀ entries, base ≠ .table entries) :
    Replaces base overlay path := .whole fun entries _ hbase => absurd hbase (h entries)

theorem unique_entry (hkeys : entries.keys.Nodup) {v v' : TomlValue} (h : (key, v) ∈ entries)
    (h' : (key, v') ∈ entries) : v = v' :=
  (Prod.mk.inj (inj_on_of_nodup_map hkeys h h' rfl)).2

theorem mem_keys_of_mem {v : TomlValue} (h : (key, v) ∈ entries) : key ∈ entries.keys :=
  mem_map.mpr ⟨(key, v), h, rfl⟩

theorem exists_mem_of_keys (h : key ∈ entries.keys) : ∃ v, (key, v) ∈ entries := by
  obtain ⟨⟨key', v⟩, hmem, rfl⟩ := mem_map.mp h
  exact ⟨v, hmem⟩

end

variable {path : List Text} {entries : TomlTable}

theorem replaces_of_leaves {base overlay : TomlValue} {value value' : TomlScalar} (h : LeafAt base path value)
    (h' : LeafAt overlay path value') : Replaces base overlay path := by
  induction h generalizing overlay with
  | scalar | item => exact replaces_of_not_table (by simp)
  | @field entries key child path value hent _ ih =>
      cases h' with
      | item hitem h' => exact .whole (by simp)
      | field hent' h' => exact .field hent hent' (ih h')

theorem replaces_congr {entries' : TomlTable} (hkeys : entries.keys.Nodup) (hkeys' : entries'.keys.Nodup) {key : Text}
    {v v' : TomlValue} (hmem : (key, v) ∈ entries) (hmem' : (key, v') ∈ entries')
    (h : ∀ other, Replaces v other path ↔ Replaces v' other path) (other : TomlValue) :
    Replaces (.table entries) other (key :: path) ↔ Replaces (.table entries') other (key :: path) := by
  cases other with
  | scalar | array => exact ⟨fun _ => .whole (by simp), fun _ => .whole (by simp)⟩
  | table others =>
      rw [replaces_table_cons, replaces_table_cons]
      constructor
      · rintro ⟨old, new, hold, hnew, hrep⟩
        rw [unique_entry hkeys hold hmem] at hrep
        exact ⟨v', new, hmem', hnew, (h new).mp hrep⟩
      · rintro ⟨old, new, hold, hnew, hrep⟩
        rw [unique_entry hkeys' hold hmem'] at hrep
        exact ⟨v, new, hmem, hnew, (h new).mpr hrep⟩

/-! ## What merging does -/

structure MergeSpec (base overlay merged : TomlValue) : Prop where
  leaf : ∀ path value, LeafAt merged path value ↔
    LeafAt overlay path value ∨ (LeafAt base path value ∧ ¬ Replaces base overlay path)
  new : ∀ path value other, LeafAt overlay path value → (Replaces merged other path ↔ Replaces overlay other path)
  old : ∀ path value other, LeafAt base path value → ¬ Replaces base overlay path →
    (Replaces merged other path ↔ Replaces base other path)

theorem MergeSpec.whole {base overlay : TomlValue}
    (h : ∀ entries entries', base = .table entries → overlay ≠ .table entries') : MergeSpec base overlay overlay where
  leaf path value := by
    constructor
    · exact .inl
    · rintro (hleaf | ⟨-, hkept⟩)
      · exact hleaf
      · exact absurd (.whole h) hkept
  new path value other _ := Iff.rfl
  old path value other _ hkept := absurd (.whole h) hkept

structure TablesMerge (base overlay merged : TomlTable) : Prop where
  baseKeys : base.keys.Nodup
  overlayKeys : overlay.keys.Nodup
  mergedKeys : merged.keys.Nodup
  both : ∀ key old new, (key, old) ∈ base → (key, new) ∈ overlay → ∃ v, (key, v) ∈ merged ∧ MergeSpec old new v
  baseOnly : ∀ key old, (key, old) ∈ base → key ∉ overlay.keys → (key, old) ∈ merged
  overlayOnly : ∀ key new, (key, new) ∈ overlay → key ∉ base.keys → (key, new) ∈ merged
  of_merged : ∀ key v, (key, v) ∈ merged → key ∈ base.keys ∨ key ∈ overlay.keys

namespace TablesMerge

variable {base overlay merged : TomlTable} {key : Text} {v : TomlValue}

theorem cases_of_mem (h : TablesMerge base overlay merged) (hmem : (key, v) ∈ merged) :
    (∃ old new, (key, old) ∈ base ∧ (key, new) ∈ overlay ∧ MergeSpec old new v) ∨
    ((key, v) ∈ base ∧ key ∉ overlay.keys) ∨ ((key, v) ∈ overlay ∧ key ∉ base.keys) := by
  by_cases hbase : key ∈ base.keys
  · obtain ⟨old, hold⟩ := exists_mem_of_keys hbase
    by_cases hover : key ∈ overlay.keys
    · obtain ⟨new, hnew⟩ := exists_mem_of_keys hover
      obtain ⟨v', hmem', hspec⟩ := h.both key old new hold hnew
      rw [unique_entry h.mergedKeys hmem hmem']
      exact .inl ⟨old, new, hold, hnew, hspec⟩
    · have hmem' := h.baseOnly key old hold hover
      rw [unique_entry h.mergedKeys hmem hmem']
      exact .inr (.inl ⟨hold, hover⟩)
  · rcases h.of_merged key v hmem with hkey | hkey
    · exact absurd hkey hbase
    · obtain ⟨new, hnew⟩ := exists_mem_of_keys hkey
      rw [unique_entry h.mergedKeys hmem (h.overlayOnly key new hnew hbase)]
      exact .inr (.inr ⟨hnew, hbase⟩)

theorem spec (h : TablesMerge base overlay merged) : MergeSpec (.table base) (.table overlay) (.table merged) where
  leaf path value := by
    cases path with
    | nil => simp [not_leafAt_table_nil]
    | cons key path =>
        rw [leafAt_table_cons, leafAt_table_cons, leafAt_table_cons, replaces_table_cons]
        constructor
        · rintro ⟨v, hmem, hleaf⟩
          rcases h.cases_of_mem hmem with ⟨old, new, hold, hnew, hspec⟩ | ⟨hold, hnot⟩ | ⟨hnew, -⟩
          · rcases (hspec.leaf path value).mp hleaf with hleaf | ⟨hleaf, hkept⟩
            · exact .inl ⟨new, hnew, hleaf⟩
            · refine .inr ⟨⟨old, hold, hleaf⟩, ?_⟩
              rintro ⟨old', new', hold', hnew', hrep⟩
              rw [unique_entry h.baseKeys hold' hold, unique_entry h.overlayKeys hnew' hnew] at hrep
              exact hkept hrep
          · refine .inr ⟨⟨v, hold, hleaf⟩, ?_⟩
            rintro ⟨-, new, -, hnew, -⟩
            exact hnot (mem_keys_of_mem hnew)
          · exact .inl ⟨v, hnew, hleaf⟩
        · rintro (⟨new, hnew, hleaf⟩ | ⟨⟨old, hold, hleaf⟩, hkept⟩)
          · by_cases hbase : key ∈ base.keys
            · obtain ⟨old, hold⟩ := exists_mem_of_keys hbase
              obtain ⟨v, hmem, hspec⟩ := h.both key old new hold hnew
              exact ⟨v, hmem, (hspec.leaf path value).mpr (.inl hleaf)⟩
            · exact ⟨new, h.overlayOnly key new hnew hbase, hleaf⟩
          · by_cases hover : key ∈ overlay.keys
            · obtain ⟨new, hnew⟩ := exists_mem_of_keys hover
              obtain ⟨v, hmem, hspec⟩ := h.both key old new hold hnew
              have hkept' : ¬ Replaces old new path := fun hrep => hkept ⟨old, new, hold, hnew, hrep⟩
              exact ⟨v, hmem, (hspec.leaf path value).mpr (.inr ⟨hleaf, hkept'⟩)⟩
            · exact ⟨old, h.baseOnly key old hold hover, hleaf⟩
  new path value other hleaf := by
    cases path with
    | nil => exact absurd hleaf not_leafAt_table_nil
    | cons key path =>
        obtain ⟨new, hnew, hleaf⟩ := leafAt_table_cons.mp hleaf
        have hmrg : ∃ v, (key, v) ∈ merged ∧ ∀ other, Replaces v other path ↔ Replaces new other path := by
          by_cases hbase : key ∈ base.keys
          · obtain ⟨old, hold⟩ := exists_mem_of_keys hbase
            obtain ⟨v, hmem, hspec⟩ := h.both key old new hold hnew
            exact ⟨v, hmem, fun other => hspec.new path value other hleaf⟩
          · exact ⟨new, h.overlayOnly key new hnew hbase, fun _ => Iff.rfl⟩
        obtain ⟨v, hmem, hiff⟩ := hmrg
        exact replaces_congr h.mergedKeys h.overlayKeys hmem hnew hiff other
  old path value other hleaf hkept := by
    cases path with
    | nil => exact absurd hleaf not_leafAt_table_nil
    | cons key path =>
        obtain ⟨old, hold, hleaf⟩ := leafAt_table_cons.mp hleaf
        rw [replaces_table_cons] at hkept
        have hmrg : ∃ v, (key, v) ∈ merged ∧ ∀ other, Replaces v other path ↔ Replaces old other path := by
          by_cases hover : key ∈ overlay.keys
          · obtain ⟨new, hnew⟩ := exists_mem_of_keys hover
            obtain ⟨v, hmem, hspec⟩ := h.both key old new hold hnew
            have hkept' : ¬ Replaces old new path := fun hrep => hkept ⟨old, new, hold, hnew, hrep⟩
            exact ⟨v, hmem, fun other => hspec.old path value other hleaf hkept'⟩
          · exact ⟨old, h.baseOnly key old hold hover, fun _ => Iff.rfl⟩
        obtain ⟨v, hmem, hiff⟩ := hmrg
        exact replaces_congr h.mergedKeys h.baseKeys hmem hold hiff other

end TablesMerge

/-! ## Induction over a value -/

section

variable {P : TomlValue → Prop} (scalar : ∀ value, P (.scalar value))
  (array : ∀ items : List TomlValue, (∀ item ∈ items, P item) → P (.array items))
  (table : ∀ entries : TomlTable, (∀ entry ∈ entries, P entry.2) → P (.table entries))

include scalar array table

theorem values_induction (value : TomlValue) : P value :=
  @TomlValue.rec P (fun items => ∀ item ∈ items, P item) (fun entries => ∀ entry ∈ entries, P entry.2)
    (fun entry => P entry.2) scalar array table (fun _ h => absurd h not_mem_nil)
    (fun _ _ hitem hitems => forall_mem_cons.mpr ⟨hitem, hitems⟩) (fun _ h => absurd h not_mem_nil)
    (fun _ _ hentry hentries => forall_mem_cons.mpr ⟨hentry, hentries⟩) (fun _ _ hvalue => hvalue) value

end

/-! ## Tables -/

section

variable {table : TomlTable} {key : Text} {value : TomlValue}

theorem lookup_eq_some_iff (hkeys : table.keys.Nodup) : table.lookup key = some value ↔ (key, value) ∈ table := by
  constructor
  · intro h
    obtain ⟨before, after, rfl, -⟩ := List.lookup_eq_some_iff.mp h
    simp
  · intro h
    cases hlk : table.lookup key with
    | none =>
        rw [lookup_eq_none_iff] at hlk
        exact absurd (hlk _ h) (by simp)
    | some other =>
        obtain ⟨before, after, hspl, -⟩ := List.lookup_eq_some_iff.mp hlk
        have hmem : (key, other) ∈ table := by rw [hspl]; simp
        rw [unique_entry hkeys h hmem]

theorem lookup_eq_none_iff : table.lookup key = none ↔ key ∉ table.keys := by
  rw [List.lookup_eq_none_iff, TomlTable.keys, List.mem_map]
  constructor
  · rintro h ⟨entry, hmem, rfl⟩
    simpa using h entry hmem
  · intro h entry hmem
    simpa using fun heq : key = entry.1 => h ⟨entry, hmem, heq.symm⟩

theorem keys_insert_of_mem (h : key ∈ table.keys) : (table.insert key value).keys = table.keys := by
  rw [TomlTable.insert, if_pos h, TomlTable.keys, map_map]
  apply map_congr_left
  intro entry _
  by_cases hkey : entry.1 = key <;> simp [hkey]

theorem nodup_keys_insert (h : table.keys.Nodup) : (table.insert key value).keys.Nodup := by
  by_cases hkey : key ∈ table.keys
  · rwa [keys_insert_of_mem hkey]
  · rw [TomlTable.insert, if_neg hkey]
    have hkeys : TomlTable.keys (table ++ [(key, value)]) = table.keys ++ [key] := by simp [TomlTable.keys]
    rw [hkeys, ← concat_eq_append]
    exact List.Nodup.concat hkey h

variable {value' : TomlValue} {key' : Text}

theorem mem_insert : (key', value') ∈ table.insert key value ↔
    (key' = key ∧ value' = value) ∨ (key' ≠ key ∧ (key', value') ∈ table) := by
  by_cases hkey : key ∈ table.keys
  · rw [TomlTable.insert, if_pos hkey, mem_map]
    constructor
    · rintro ⟨⟨k, v⟩, hmem, heq⟩
      by_cases hk : k = key
      · simp only [hk, ↓reduceIte, Prod.mk.injEq] at heq
        exact .inl ⟨heq.1.symm, heq.2.symm⟩
      · simp only [hk, ↓reduceIte, Prod.mk.injEq] at heq
        obtain ⟨rfl, rfl⟩ := heq
        exact .inr ⟨hk, hmem⟩
    · rintro (⟨rfl, rfl⟩ | ⟨hne, hmem⟩)
      · obtain ⟨v, hmem⟩ := exists_mem_of_keys hkey
        exact ⟨(key', v), hmem, by simp⟩
      · exact ⟨(key', value'), hmem, by simp [hne]⟩
  · rw [TomlTable.insert, if_neg hkey, mem_append, mem_singleton, Prod.mk.injEq]
    constructor
    · rintro (hmem | heq)
      · refine .inr ⟨?_, hmem⟩
        rintro rfl
        exact hkey (mem_keys_of_mem hmem)
      · exact .inl heq
    · rintro (heq | ⟨-, hmem⟩)
      · exact .inr heq
      · exact .inl hmem

theorem mem_remove_iff : (key', value') ∈ table.remove key ↔ (key', value') ∈ table ∧ key' ≠ key := by
  simp [remove]

theorem mem_orInsert (h : (key', value') ∈ table.orInsert key value) :
    (key', value') ∈ table ∨ (key' = key ∧ value' = value) := by
  unfold orInsert at h
  split at h
  next => exact .inl h
  next => simpa using h

theorem nodup_keys_orInsert (h : table.keys.Nodup) : (table.orInsert key value).keys.Nodup := by
  unfold orInsert
  split
  next => exact h
  next hkey =>
    have hinsert := @nodup_keys_insert table key value h
    rwa [TomlTable.insert, if_neg hkey] at hinsert

end

/-! ## Aliases -/

def Unaliased (path : List Text) : Prop := ∀ keyAlias ∈ CONFIG_KEY_ALIASES, ¬ path <+: keyAlias.tablePath

def NoLegacy (path : List Text) (table : TomlTable) : Prop :=
  ∀ keyAlias ∈ CONFIG_KEY_ALIASES, path = keyAlias.tablePath → keyAlias.legacyKey ∉ table.keys

section

variable {path : List Text} {table : TomlTable} {key : Text} {value : TomlValue}

theorem normalizeKeyAliases_of_noLegacy (h : NoLegacy path table) : normalizeKeyAliases path table = table := by
  have halias : ∀ keyAlias ∈ CONFIG_KEY_ALIASES, normalizeKeyAlias path table keyAlias = table := by
    intro keyAlias hmem
    unfold normalizeKeyAlias
    split
    next hpath => rw [lookup_eq_none_iff.mpr (h keyAlias hmem hpath)]
    next => rfl
  exact halias _ (by simp [CONFIG_KEY_ALIASES])

theorem noLegacy_of_unaliased (h : Unaliased path) : NoLegacy path table := by
  intro keyAlias hmem hpath
  exact absurd (by rw [hpath]) (h keyAlias hmem)

theorem mem_normalizeKeyAliases (h : (key, value) ∈ normalizeKeyAliases path table) :
    ∃ key', (key', value) ∈ table := by
  have halias : ∀ keyAlias, (key, value) ∈ normalizeKeyAlias path table keyAlias → ∃ key', (key', value) ∈ table := by
    intro keyAlias hmem
    unfold normalizeKeyAlias at hmem
    split at hmem
    next =>
      split at hmem
      next legacy hleg =>
        rcases mem_orInsert hmem with hmem | ⟨-, rfl⟩
        · exact ⟨key, (mem_remove_iff.mp hmem).1⟩
        · obtain ⟨before, after, hspl, -⟩ := List.lookup_eq_some_iff.mp hleg
          exact ⟨keyAlias.legacyKey, by rw [hspl]; simp⟩
      next => exact ⟨key, hmem⟩
    next => exact ⟨key, hmem⟩
  exact halias _ h

theorem nodup_keys_normalizeKeyAliases (h : table.keys.Nodup) : (normalizeKeyAliases path table).keys.Nodup := by
  have halias : ∀ keyAlias, (normalizeKeyAlias path table keyAlias).keys.Nodup := by
    intro keyAlias
    unfold normalizeKeyAlias
    split
    next =>
      split
      next => exact nodup_keys_orInsert (h.sublist (filter_sublist.map _))
      next => exact h
    next => exact h
  exact halias _

theorem noLegacy_normalizeKeyAliases : NoLegacy path (normalizeKeyAliases path table) := by
  intro keyAlias hmem hpath
  obtain rfl := mem_singleton.mp hmem
  have hnormalize : normalizeKeyAliases path table = normalizeKeyAlias path table _ := rfl
  rw [hnormalize, normalizeKeyAlias, if_pos hpath]
  intro hkey
  split at hkey
  next legacy hleg =>
    obtain ⟨v, hmem⟩ := exists_mem_of_keys hkey
    rcases mem_orInsert hmem with hmem | ⟨heq, -⟩
    · exact (mem_remove_iff.mp hmem).2 rfl
    · exact absurd heq (by decide)
  next hleg => exact lookup_eq_none_iff.mp hleg hkey

end

theorem unaliased_of_aliased (h : ∃ keyAlias ∈ CONFIG_KEY_ALIASES, path = keyAlias.tablePath)
    (key : Text) : Unaliased (path ++ [key]) := by
  obtain ⟨keyAlias, hmem, rfl⟩ := h
  obtain rfl := mem_singleton.mp hmem
  intro keyAlias' hmem' hprefix
  obtain rfl := mem_singleton.mp hmem'
  simpa using hprefix.length_le

theorem Unaliased.append (h : Unaliased path) (rest : List Text) : Unaliased (path ++ rest) :=
  fun keyAlias hmem hprefix => h keyAlias hmem ((prefix_append path rest).trans hprefix)

theorem normalizedEntries_eq_map (path : List Text) (entries : TomlTable) : normalizedEntries path entries =
    entries.map fun entry => (entry.1, normalizedWithKeyAliases (path ++ [entry.1]) entry.2) := by
  induction entries with
  | nil => rw [normalizedEntries, map_nil]
  | cons entry entries ih => rw [normalizedEntries, ih, map_cons]

theorem normalizedItems_eq_map (path : List Text) (items : List TomlValue) :
    normalizedItems path items = items.map (normalizedWithKeyAliases path) := by
  induction items with
  | nil => rw [normalizedItems, map_nil]
  | cons item items ih => rw [normalizedItems, ih, map_cons]

theorem normalized_of_unaliased (value : TomlValue) (h : Unaliased path) :
    normalizedWithKeyAliases path value = value := by
  induction value using values_induction generalizing path with
  | scalar value => rw [normalizedWithKeyAliases]
  | array items ih =>
      have hits : items.map (normalizedWithKeyAliases path) = items.map id :=
        map_congr_left fun item hitem => ih item hitem h
      rw [normalizedWithKeyAliases, normalizedItems_eq_map, hits, map_id]
  | table entries ih =>
      have hents : (entries.map fun entry => (entry.1, normalizedWithKeyAliases (path ++ [entry.1]) entry.2)) =
          entries.map id :=
        map_congr_left fun entry hent => Prod.ext rfl (ih entry hent (h.append [entry.1]))
      rw [normalizedWithKeyAliases, normalizedEntries_eq_map, hents, map_id,
        normalizeKeyAliases_of_noLegacy (noLegacy_of_unaliased h)]

theorem normalizedWithKeyAliases_table (path : List Text) (entries : TomlTable) :
    normalizedWithKeyAliases path (.table entries) = .table ((normalizeKeyAliases path entries).map fun entry =>
      (entry.1, normalizedWithKeyAliases (path ++ [entry.1]) entry.2)) := by
  rw [normalizedWithKeyAliases, normalizedEntries_eq_map]
  by_cases halias : ∃ keyAlias ∈ CONFIG_KEY_ALIASES, path = keyAlias.tablePath
  · have hid : ∀ table : TomlTable,
        (table.map fun entry => (entry.1, normalizedWithKeyAliases (path ++ [entry.1]) entry.2)) = table := by
      intro table
      have hmap : (table.map fun entry => (entry.1, normalizedWithKeyAliases (path ++ [entry.1]) entry.2)) = table.map id :=
        map_congr_left fun entry _ =>
          Prod.ext rfl (normalized_of_unaliased entry.2 (unaliased_of_aliased halias entry.1))
      rw [hmap, map_id]
    rw [hid, hid]
  · have hnoLegacy : ∀ table : TomlTable, NoLegacy path table :=
      fun table keyAlias hmem hpath => absurd ⟨keyAlias, hmem, hpath⟩ halias
    rw [normalizeKeyAliases_of_noLegacy (hnoLegacy _), normalizeKeyAliases_of_noLegacy (hnoLegacy _)]

/-! ## Canonical values -/

inductive Canonical : List Text → TomlValue → Prop where
  | other {path : List Text} {value : TomlValue} (h : ∀ entries, value ≠ .table entries) : Canonical path value
  | table {path : List Text} {entries : TomlTable} (hkeys : NoLegacy path entries)
      (hentries : ∀ entry ∈ entries, Canonical (path ++ [entry.1]) entry.2) : Canonical path (.table entries)

theorem canonical_normalized (value : TomlValue) (path : List Text) :
    Canonical path (normalizedWithKeyAliases path value) := by
  induction value using values_induction generalizing path with
  | scalar value =>
      rw [normalizedWithKeyAliases]
      exact .other (by simp)
  | array items ih =>
      rw [normalizedWithKeyAliases]
      exact .other (by simp)
  | table entries ih =>
      rw [normalizedWithKeyAliases_table]
      apply Canonical.table
      · have hkeys : keys ((normalizeKeyAliases path entries).map fun entry =>
            (entry.1, normalizedWithKeyAliases (path ++ [entry.1]) entry.2)) = (normalizeKeyAliases path entries).keys := by
          simp [TomlTable.keys]
        intro keyAlias hmem hpath
        rw [hkeys]
        exact noLegacy_normalizeKeyAliases keyAlias hmem hpath
      · intro entry hent
        obtain ⟨⟨key, child⟩, hch, rfl⟩ := mem_map.mp hent
        obtain ⟨key', hold⟩ := mem_normalizeKeyAliases hch
        exact ih (key', child) hold (path ++ [key])

/-! ## Well-formed values -/

theorem wellFormed_table : TomlValue.WellFormed (.table entries) ↔
    entries.keys.Nodup ∧ ∀ entry ∈ entries, entry.2.WellFormed := by
  constructor
  · intro h
    cases h with
    | table hkeys hents => exact ⟨hkeys, hents⟩
  · rintro ⟨hkeys, hents⟩
    exact .table hkeys hents

theorem wellFormed_table_map {f : Text × TomlValue → TomlValue} (hkeys : entries.keys.Nodup)
    (h : ∀ entry ∈ entries, (f entry).WellFormed) :
    TomlValue.WellFormed (.table (entries.map fun entry => (entry.1, f entry))) := by
  apply TomlValue.WellFormed.table
  · have heq : TomlTable.keys (entries.map fun entry => (entry.1, f entry)) = entries.keys := by simp [TomlTable.keys]
    rwa [heq]
  · intro entry hent
    obtain ⟨old, hold, rfl⟩ := mem_map.mp hent
    exact h old hold

theorem wellFormed_normalized {value : TomlValue} (h : value.WellFormed) (path : List Text) :
    (normalizedWithKeyAliases path value).WellFormed := by
  induction h generalizing path with
  | scalar value =>
      rw [normalizedWithKeyAliases]
      exact .scalar value
  | array hits ih =>
      rw [normalizedWithKeyAliases, normalizedItems_eq_map]
      apply TomlValue.WellFormed.array
      intro item hitem
      obtain ⟨old, hold, rfl⟩ := mem_map.mp hitem
      exact ih old hold path
  | table hkeys hents ih =>
      rw [normalizedWithKeyAliases_table]
      apply wellFormed_table_map (nodup_keys_normalizeKeyAliases hkeys)
      rintro ⟨key, child⟩ hch
      obtain ⟨key', hold⟩ := mem_normalizeKeyAliases hch
      exact ih (key', child) hold (path ++ [key])

/-! ## The loop over the entries of the overlay -/

def mergedEntry (existing : Option TomlValue) (value : TomlValue) (path : List Text) : TomlValue :=
  match existing with
  | some existing => mergeTomlValuesAtPath existing value path
  | none => normalizedWithKeyAliases path value

theorem mergeTablesAtPath_spec {base overlay : TomlTable} {path : List Text} (hbase : base.keys.Nodup)
    (hover : overlay.keys.Nodup) : (mergeTablesAtPath base overlay path).keys.Nodup ∧
      ∀ key v, (key, v) ∈ mergeTablesAtPath base overlay path ↔
        (∃ value, (key, value) ∈ overlay ∧ v = mergedEntry (base.lookup key) value (path ++ [key])) ∨
          ((key, v) ∈ base ∧ key ∉ overlay.keys) := by
  induction overlay generalizing base with
  | nil =>
      rw [mergeTablesAtPath]
      exact ⟨hbase, fun key v => by simp [TomlTable.keys]⟩
  | cons entry rest ih =>
      obtain ⟨first, value⟩ := entry
      have hfst : first ∉ keys rest := (nodup_cons.mp hover).1
      have hmg : mergeTablesAtPath base ((first, value) :: rest) path =
          mergeTablesAtPath (base.insert first (mergedEntry (base.lookup first) value (path ++ [first]))) rest path := by
        rw [mergeTablesAtPath]
        cases base.lookup first <;> rfl
      obtain ⟨hkeys, hmem⟩ := @ih (base.insert first (mergedEntry (base.lookup first) value (path ++ [first])))
        (nodup_keys_insert hbase) (nodup_cons.mp hover).2
      rw [hmg]
      refine ⟨hkeys, fun key v => (hmem key v).trans ?_⟩
      have hlk : key ≠ first → (base.insert first (mergedEntry (base.lookup first) value (path ++ [first]))).lookup key =
          base.lookup key := by
        intro hne
        apply Option.ext
        intro v
        rw [lookup_eq_some_iff (nodup_keys_insert hbase), lookup_eq_some_iff hbase, mem_insert]
        simp [hne]
      by_cases hkey : key = first
      · subst hkey
        have hrest : ∀ value, (key, value) ∉ rest := fun value hmem => hfst (mem_keys_of_mem hmem)
        simp [hrest, mem_insert, TomlTable.keys]
      · rw [hlk hkey, mem_insert]
        simp [hkey, TomlTable.keys]

/-! ## Merging two values -/

structure Merges (path : List Text) (base overlay merged : TomlValue) : Prop where
  spec : MergeSpec base (normalizedWithKeyAliases path overlay) merged
  wellFormed : merged.WellFormed
  canonical : Canonical path merged

section

variable {path : List Text} {base overlay : TomlValue}

theorem merges_whole (hover : overlay.WellFormed)
    (h : ∀ entries entries', base = .table entries → overlay ≠ .table entries') :
    Merges path base overlay (mergeTomlValuesAtPath base overlay path) := by
  have hmg : mergeTomlValuesAtPath base overlay path = normalizedWithKeyAliases path overlay := by
    rw [mergeTomlValuesAtPath]
    intro entries entries' hbase
    exact h entries entries' hbase
  have hnormalized : ∀ entries entries', base = .table entries →
      normalizedWithKeyAliases path overlay ≠ .table entries' := by
    intro entries entries' hbase
    cases overlay with
    | scalar | array => simp [normalizedWithKeyAliases]
    | table others => exact absurd rfl (h entries others hbase)
  rw [hmg]
  exact ⟨.whole hnormalized, wellFormed_normalized hover path, canonical_normalized overlay path⟩

theorem noLegacy_of_subset {table table' merged : TomlTable} (h : NoLegacy path table) (h' : NoLegacy path table')
    (hkeys : ∀ key v, (key, v) ∈ merged → key ∈ table.keys ∨ key ∈ table'.keys) : NoLegacy path merged := by
  intro keyAlias hmem hpath hkey
  obtain ⟨v, hv⟩ := exists_mem_of_keys hkey
  rcases hkeys _ v hv with hold | hnew
  · exact h keyAlias hmem hpath hold
  · exact h' keyAlias hmem hpath hnew

theorem merges_tables {baseTable overlayTable : TomlTable} (hover : TomlValue.WellFormed (.table overlayTable))
    (hbase : TomlValue.WellFormed (.table baseTable)) (hcanonical : Canonical path (.table baseTable))
    (ih : ∀ key old new, (key, old) ∈ baseTable → (key, new) ∈ normalizeKeyAliases path overlayTable →
      Merges (path ++ [key]) old new (mergeTomlValuesAtPath old new (path ++ [key]))) :
    Merges path (.table baseTable) (.table overlayTable)
      (mergeTomlValuesAtPath (.table baseTable) (.table overlayTable) path) := by
  obtain ⟨hbaseKeys, hbaseEntries⟩ := wellFormed_table.mp hbase
  obtain ⟨hoverlayKeys, hoverlayEntries⟩ := wellFormed_table.mp hover
  obtain ⟨hnone⟩ | ⟨hnoLegacy, hbaseCanonical⟩ := hcanonical
  · exact absurd rfl (hnone baseTable)
  have hsettledKeys := @nodup_keys_normalizeKeyAliases path overlayTable hoverlayKeys
  have hset : ∀ key new, (key, new) ∈ normalizeKeyAliases path overlayTable → new.WellFormed := by
    intro key new hnew
    obtain ⟨key', hold⟩ := mem_normalizeKeyAliases hnew
    exact hoverlayEntries (key', new) hold
  obtain ⟨hmergedKeys, hmrg⟩ := @mergeTablesAtPath_spec baseTable _ path hbaseKeys hsettledKeys
  rw [mergeTomlValuesAtPath, normalizeKeyAliases_of_noLegacy hnoLegacy]
  have hnew : ∀ key new, (key, new) ∈ normalizeKeyAliases path overlayTable → key ∉ baseTable.keys →
      (key, normalizedWithKeyAliases (path ++ [key]) new) ∈
        mergeTablesAtPath baseTable (normalizeKeyAliases path overlayTable) path := by
    intro key new hmem hkey
    refine (hmrg key _).mpr (.inl ⟨new, hmem, ?_⟩)
    rw [lookup_eq_none_iff.mpr hkey, mergedEntry]
  have hcases : ∀ key v, (key, v) ∈ mergeTablesAtPath baseTable (normalizeKeyAliases path overlayTable) path →
      key ∈ baseTable.keys ∨ key ∈ (normalizeKeyAliases path overlayTable).keys := by
    intro key v hmem
    rcases (hmrg key v).mp hmem with ⟨new, hnew, -⟩ | ⟨hold, -⟩
    · exact .inr (mem_keys_of_mem hnew)
    · exact .inl (mem_keys_of_mem hold)
  have hvalues : ∀ key v, (key, v) ∈ mergeTablesAtPath baseTable (normalizeKeyAliases path overlayTable) path →
      v.WellFormed ∧ Canonical (path ++ [key]) v := by
    intro key v hmem
    rcases (hmrg key v).mp hmem with ⟨new, hnew, rfl⟩ | ⟨hold, -⟩
    · cases hlk : baseTable.lookup key with
      | none =>
          exact ⟨wellFormed_normalized (hset key new hnew) _, canonical_normalized new _⟩
      | some old =>
          have hmerges := ih key old new ((lookup_eq_some_iff hbaseKeys).mp hlk) hnew
          exact ⟨hmerges.wellFormed, hmerges.canonical⟩
    · exact ⟨hbaseEntries (key, v) hold, hbaseCanonical (key, v) hold⟩
  refine ⟨?_, ?_, ?_⟩
  · rw [normalizedWithKeyAliases_table]
    have hkeys : keys ((normalizeKeyAliases path overlayTable).map fun entry =>
        (entry.1, normalizedWithKeyAliases (path ++ [entry.1]) entry.2)) =
          (normalizeKeyAliases path overlayTable).keys := by simp [TomlTable.keys]
    have hmap : ∀ key new, (key, new) ∈ (normalizeKeyAliases path overlayTable).map (fun entry =>
        (entry.1, normalizedWithKeyAliases (path ++ [entry.1]) entry.2)) →
          ∃ value, (key, value) ∈ normalizeKeyAliases path overlayTable ∧
            new = normalizedWithKeyAliases (path ++ [key]) value := by
      intro key new hmem
      obtain ⟨⟨key', value⟩, hval, heq⟩ := mem_map.mp hmem
      cases heq
      exact ⟨value, hval, rfl⟩
    apply TablesMerge.spec
    constructor
    · exact hbaseKeys
    · rwa [hkeys]
    · exact hmergedKeys
    · intro key old new hold hmem
      obtain ⟨value, hval, rfl⟩ := hmap key new hmem
      refine ⟨_, (hmrg key _).mpr (.inl ⟨value, hval, rfl⟩), ?_⟩
      rw [(lookup_eq_some_iff hbaseKeys).mpr hold]
      exact (ih key old value hold hval).spec
    · intro key old hold hnot
      rw [hkeys] at hnot
      exact (hmrg key old).mpr (.inr ⟨hold, hnot⟩)
    · intro key new hmem hnot
      obtain ⟨value, hval, rfl⟩ := hmap key new hmem
      exact hnew key value hval hnot
    · intro key v hmem
      rw [hkeys]
      exact hcases key v hmem
  · exact .table hmergedKeys fun entry hmem => (hvalues entry.1 entry.2 hmem).1
  · apply Canonical.table
    · exact noLegacy_of_subset hnoLegacy noLegacy_normalizeKeyAliases hcases
    · exact fun entry hmem => (hvalues entry.1 entry.2 hmem).2

theorem merges_mergeTomlValuesAtPath (hover : overlay.WellFormed) (hbase : base.WellFormed)
    (hcanonical : Canonical path base) : Merges path base overlay (mergeTomlValuesAtPath base overlay path) := by
  induction overlay using values_induction generalizing base path with
  | scalar | array => exact merges_whole hover (by simp)
  | table overlayTable ih =>
      cases base with
      | scalar | array => exact merges_whole hover (by simp)
      | table baseTable =>
          apply merges_tables hover hbase hcanonical
          intro key old new hold hnew
          obtain ⟨key', hmem⟩ := mem_normalizeKeyAliases hnew
          have hnewWellFormed := (wellFormed_table.mp hover).2 (key', new) hmem
          have holdWellFormed := (wellFormed_table.mp hbase).2 (key, old) hold
          obtain ⟨hnone⟩ | ⟨-, hents⟩ := hcanonical
          · exact absurd rfl (hnone baseTable)
          · exact ih (key', new) hmem hnewWellFormed holdWellFormed (hents (key, old) hold)

end

end CodexStudy.Config
