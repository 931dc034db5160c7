import Mathlib.Algebra.Ring.Int.Defs
import Mathlib.Data.List.AList

/-!
# Hash maps

A hash map is the list of its entries, one for each key. A program cannot rely on their order: what goes through the
entries is given the order it meets them in.
-/

namespace CodexStudy.Lib

open List AList

abbrev HashMap (κ ν : Type) := AList fun _ : κ => ν

namespace HashMap

variable {κ ν : Type} [DecidableEq κ]

theorem lookup_insert_eq (m : HashMap κ ν) (k k' : κ) (v : ν) :
    (m.insert k v).lookup k' = if k' = k then some v else m.lookup k' := by
  split
  next h => rw [h, lookup_insert]
  next h => rw [lookup_insert_ne h]

theorem lookup_erase_eq (m : HashMap κ ν) (k k' : κ) :
    (m.erase k).lookup k' = if k' = k then none else m.lookup k' := by
  split
  next h => rw [h, lookup_erase]
  next h => rw [lookup_erase_ne h]

variable {m : HashMap κ ν} {k : κ} {v : ν}

theorem lookup_of_lookup_erase {k' : κ} (h : (m.erase k).lookup k' = some v) : m.lookup k' = some v := by
  rw [lookup_erase_eq] at h
  split at h
  next => cases h
  next => exact h

theorem erase_of_lookup_eq_none (h : m.lookup k = none) : m.erase k = m := by
  apply AList.ext
  exact kerase_of_notMem_keys (lookup_eq_none.mp h)

def retain (m : HashMap κ ν) (p : κ → Bool) : HashMap κ ν :=
  ⟨m.entries.filter fun entry => p entry.1, m.nodupKeys.sublist filter_sublist⟩

theorem lookup_retain (m : HashMap κ ν) (p : κ → Bool) (k : κ) :
    (m.retain p).lookup k = if p k then m.lookup k else none := by
  apply Option.ext
  intro v
  have hmem : v ∈ (m.retain p).lookup k ↔ ⟨k, v⟩ ∈ m.entries ∧ p k = true := by
    rw [mem_lookup_iff, retain, mem_filter]
  rw [← Option.mem_def, hmem, ← mem_lookup_iff, Option.mem_def]
  split
  next hp => simp [hp]
  next hp => simp [hp]

def retainValues (m : HashMap κ ν) (p : ν → Bool) : HashMap κ ν :=
  ⟨m.entries.filter fun entry => p entry.2, m.nodupKeys.sublist filter_sublist⟩

theorem lookup_retainValues_eq_some {p : ν → Bool} :
    (m.retainValues p).lookup k = some v ↔ m.lookup k = some v ∧ p v = true := by
  rw [← Option.mem_def, ← Option.mem_def, mem_lookup_iff, mem_lookup_iff, retainValues, mem_filter]

/-! ## How many entries there are of a kind -/

/-- How many values satisfy `p`. -/
def count (m : HashMap κ ν) (p : ν → Bool) : Nat := m.entries.countP fun entry => p entry.2

theorem count_insert (m : HashMap κ ν) (p : ν → Bool) (k : κ) (v : ν) :
    count (m.insert k v) p = count (m.erase k) p + (p v).toNat := by
  have hents : (m.insert k v).entries = ⟨k, v⟩ :: (m.erase k).entries := entries_insert
  unfold count
  rw [hents, countP_cons]
  cases p v <;> simp

theorem exists_erase (h : m.lookup k = some v) :
    ∃ before after, m.entries = before ++ ⟨k, v⟩ :: after ∧ (m.erase k).entries = before ++ after := by
  have hkey : k ∈ m.entries.keys := mem_keys.mp (lookup_isSome.mp (by rw [h]; rfl))
  obtain ⟨w, before, after, -, hents, herased⟩ := exists_of_kerase hkey
  obtain rfl : w = v := by
    have hmem : w ∈ m.lookup k := mem_lookup_iff.mpr (by rw [hents]; simp)
    rw [h] at hmem
    exact (Option.some.inj hmem).symm
  exact ⟨before, after, hents, herased⟩

theorem count_erase (p : ν → Bool) (h : m.lookup k = some v) : count (m.erase k) p + (p v).toNat = count m p := by
  obtain ⟨before, after, hents, herased⟩ := exists_erase h
  unfold count
  rw [herased, hents, countP_append, countP_append, countP_cons]
  cases p v <;> simp [Nat.add_assoc]

/-! ## Sums over the entries -/

def total (m : HashMap κ ν) (amount : ν → Int) : Int := (m.entries.map fun entry => amount entry.2).sum

theorem total_insert (m : HashMap κ ν) (amount : ν → Int) (k : κ) (v : ν) :
    total (m.insert k v) amount = amount v + total (m.erase k) amount := by
  have hents : (m.insert k v).entries = ⟨k, v⟩ :: (m.erase k).entries := entries_insert
  unfold total
  rw [hents, map_cons, sum_cons]

theorem total_erase (amount : ν → Int) (h : m.lookup k = some v) :
    amount v + total (m.erase k) amount = total m amount := by
  obtain ⟨before, after, hents, herased⟩ := exists_erase h
  unfold total
  rw [herased, hents]
  simp only [map_append, map_cons, sum_append, sum_cons]
  omega

theorem total_insert_of_lookup (amount : ν → Int) (h : m.lookup k = some v) (w : ν) :
    total (m.insert k w) amount = total m amount + (amount w - amount v) := by
  have herase := total_erase amount h
  rw [total_insert]
  omega

theorem total_insert_getD (m : HashMap κ Int) (k : κ) (n : Int) :
    total (m.insert k ((m.lookup k).getD 0 + n)) id = total m id + n := by
  cases h : m.lookup k with
  | none =>
      rw [total_insert, erase_of_lookup_eq_none h]
      simp only [Option.getD_none, id_eq]
      omega
  | some v =>
      rw [total_insert_of_lookup id h]
      simp only [Option.getD_some, id_eq]
      omega

/-! ## Entries that are put in one after the other -/

theorem lookup_foldl_insert_of_notMem {α : Type} (key : α → κ) (value : α → ν) {xs : List α} (hk : k ∉ xs.map key)
    (m : HashMap κ ν) : (xs.foldl (fun m x => m.insert (key x) (value x)) m).lookup k = m.lookup k := by
  induction xs generalizing m with
  | nil => rfl
  | cons x xs ih =>
      rw [map_cons, mem_cons, not_or] at hk
      rw [foldl_cons, ih hk.2, lookup_insert_eq, if_neg hk.1]

theorem lookup_foldl_insert_of_mem {α : Type} (key : α → κ) (value : α → ν) {xs : List α} {x : α}
    (hnd : (xs.map key).Nodup) (hx : x ∈ xs) (m : HashMap κ ν) :
    (xs.foldl (fun m x => m.insert (key x) (value x)) m).lookup (key x) = some (value x) := by
  induction xs generalizing m with
  | nil => cases hx
  | cons y ys ih =>
      rw [map_cons, nodup_cons] at hnd
      rw [foldl_cons]
      rcases mem_cons.mp hx with rfl | hmem
      · rw [lookup_foldl_insert_of_notMem key value hnd.1, lookup_insert_eq, if_pos rfl]
      · exact ih hnd.2 hmem _

def setAll (m : HashMap κ ν) (v : ν) : HashMap κ ν := m.keys.foldl (fun m key => m.insert key v) m

theorem lookup_setAll (m : HashMap κ ν) (v : ν) (k : κ) : (m.setAll v).lookup k = (m.lookup k).map fun _ => v := by
  by_cases hk : k ∈ m
  · obtain ⟨w, hw⟩ := Option.isSome_iff_exists.mp (lookup_isSome.mpr hk)
    have hkeys : (m.keys.map id).Nodup := by rw [map_id]; exact m.keys_nodup
    rw [hw, setAll]
    exact lookup_foldl_insert_of_mem id (fun _ => v) hkeys (mem_keys.mp hk) m
  · have hnone : m.lookup k = none := lookup_eq_none.mpr hk
    have hkeys : k ∉ m.keys.map id := by rw [map_id]; exact fun h => hk (mem_keys.mpr h)
    rw [setAll, show m.keys.foldl (fun m key => m.insert key v) m =
      m.keys.foldl (fun m key => m.insert (id key) ((fun _ => v) key)) m from rfl,
      lookup_foldl_insert_of_notMem id (fun _ => v) hkeys, hnone]
    rfl

end HashMap

end CodexStudy.Lib
