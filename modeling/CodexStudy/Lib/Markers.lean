import Mathlib.Data.List.Infix
import Mathlib.Data.List.TakeDrop

/-!
# Where a marker may start

Looking for a marker in a list that is not yet complete.
-/

namespace CodexStudy.Lib

open List

variable {α : Type} [DecidableEq α]

/-! ## Searching -/

/-- The first place at which the marker stands. -/
def findMarker (marker : List α) : List α → Option Nat
  | [] => if marker = [] then some 0 else none
  | x :: xs => if marker <+: x :: xs then some 0 else (findMarker marker xs).map (· + 1)

def suffixPrefixUpTo (xs marker : List α) : Nat → Nat
  | 0 => 0
  | k + 1 => if marker.take (k + 1) <:+ xs then k + 1 else suffixPrefixUpTo xs marker k

def longestSuffixPrefix (xs marker : List α) : Nat := suffixPrefixUpTo xs marker (min xs.length (marker.length - 1))

section

variable {marker xs : List α} {i : Nat}

theorem findMarker_eq_some (h : findMarker marker xs = some i) :
    marker <+: xs.drop i ∧ ∀ j < i, ¬ marker <+: xs.drop j := by
  induction xs generalizing i with
  | nil =>
      rw [findMarker] at h
      split at h
      · rename_i hmk
        cases h
        exact ⟨by rw [hmk]; exact nil_prefix, fun j hj => absurd hj (Nat.not_lt_zero j)⟩
      · cases h
  | cons x xs ih =>
      rw [findMarker] at h
      split at h
      · rename_i hmk
        cases h
        exact ⟨hmk, fun j hj => absurd hj (Nat.not_lt_zero j)⟩
      · rename_i hmk
        obtain ⟨k, hk, rfl⟩ := Option.map_eq_some_iff.mp h
        obtain ⟨hsts, hfst⟩ := ih hk
        refine ⟨hsts, fun j hj => ?_⟩
        cases j with
        | zero => exact hmk
        | succ j => exact hfst j (by omega)

theorem findMarker_eq_none (h : findMarker marker xs = none) (j : Nat) : ¬ marker <+: xs.drop j := by
  induction xs generalizing j with
  | nil =>
      rw [findMarker] at h
      split at h
      · cases h
      · rename_i hmk
        rw [drop_nil, prefix_nil]
        exact hmk
  | cons x xs ih =>
      rw [findMarker] at h
      split at h
      · cases h
      · rename_i hmk
        cases j with
        | zero => exact hmk
        | succ j => exact ih (Option.map_eq_none_iff.mp h) j

theorem length_drop_findMarker_lt (hmk : marker ≠ []) (h : findMarker marker xs = some i) :
    (xs.drop (i + marker.length)).length < xs.length := by
  have hpos := length_pos_iff.mpr hmk
  have hle := (findMarker_eq_some h).1.length_le
  rw [length_drop] at hle ⊢
  omega

theorem suffixPrefixUpTo_spec (xs marker : List α) (k : Nat) :
    suffixPrefixUpTo xs marker k ≤ k ∧ marker.take (suffixPrefixUpTo xs marker k) <:+ xs ∧
      ∀ m ≤ k, marker.take m <:+ xs → m ≤ suffixPrefixUpTo xs marker k := by
  induction k with
  | zero =>
      refine ⟨le_rfl, ?_, fun m hm _ => hm⟩
      rw [suffixPrefixUpTo, take_zero]
      exact nil_suffix
  | succ k ih =>
      rw [suffixPrefixUpTo]
      split
      · rename_i hsuf
        exact ⟨le_rfl, hsuf, fun m hm _ => hm⟩
      · rename_i hsuf
        obtain ⟨hle, hends, hgreatest⟩ := ih
        refine ⟨by omega, hends, fun m hm hm' => hgreatest m ?_ hm'⟩
        rcases Nat.lt_or_ge m (k + 1) with hlt | hge
        · omega
        · obtain rfl : m = k + 1 := by omega
          exact absurd hm' hsuf

end

/-! ## Splitting -/

/-- What stands in front of the first place at which `p` holds of the rest, and this rest. -/
def splitWhere (p : List α → Prop) [DecidablePred p] : List α → List α × List α
  | [] => ([], [])
  | x :: xs => if p (x :: xs) then ([], x :: xs) else (x :: (splitWhere p xs).1, (splitWhere p xs).2)

section

omit [DecidableEq α]

variable {p : List α → Prop} [DecidablePred p] {xs : List α}

theorem splitWhere_of_pos (h : xs = [] ∨ p xs) : splitWhere p xs = ([], xs) := by
  cases xs with
  | nil => rfl
  | cons x xs =>
      rcases h with h | h
      · cases h
      · exact if_pos h

theorem splitWhere_fst_append_snd (xs : List α) : (splitWhere p xs).1 ++ (splitWhere p xs).2 = xs := by
  induction xs with
  | nil => rfl
  | cons x xs ih =>
      rw [splitWhere]
      split
      · rfl
      · rw [cons_append, ih]

theorem splitWhere_snd (xs : List α) : (splitWhere p xs).2 = [] ∨ p (splitWhere p xs).2 := by
  induction xs with
  | nil => exact .inl rfl
  | cons x xs ih =>
      rw [splitWhere]
      split
      next h => exact .inr h
      next => exact ih

theorem not_of_lt_splitWhere {j : Nat} (hj : j < (splitWhere p xs).1.length) : ¬p (xs.drop j) := by
  induction xs generalizing j with
  | nil => simp [splitWhere] at hj
  | cons x xs ih =>
      rw [splitWhere] at hj
      split at hj
      next => simp at hj
      next hx =>
        cases j with
        | zero => exact hx
        | succ j => exact ih (by simpa using hj)

theorem splitWhere_append (hp : ∀ xs ys, p (xs ++ ys) → p xs) (xs ys : List α) : splitWhere p (xs ++ ys) =
    ((splitWhere p xs).1 ++ (splitWhere p ((splitWhere p xs).2 ++ ys)).1, (splitWhere p ((splitWhere p xs).2 ++ ys)).2) := by
  induction xs with
  | nil => simp [splitWhere]
  | cons x xs ih =>
      by_cases hst : p (x :: xs)
      · rw [splitWhere_of_pos (.inr hst)]
        rfl
      · have hlater : ¬p (x :: xs ++ ys) := fun h => hst (hp _ _ h)
        have hspl : splitWhere p (x :: xs) = (x :: (splitWhere p xs).1, (splitWhere p xs).2) := if_neg hst
        have hspl' : splitWhere p (x :: xs ++ ys) =
            (x :: (splitWhere p (xs ++ ys)).1, (splitWhere p (xs ++ ys)).2) := if_neg hlater
        rw [hspl, hspl', ih]
        rfl

end

def MayStart (marker xs : List α) : Prop := xs <+: marker ∨ marker <+: xs

instance (marker xs : List α) : Decidable (MayStart marker xs) := inferInstanceAs (Decidable (_ ∨ _))

def splitMarker (marker : List α) : List α → List α × List α := splitWhere (MayStart marker)

section

variable {marker xs : List α} {i : Nat}

omit [DecidableEq α] in
theorem MayStart.of_append {ys : List α} (h : MayStart marker (xs ++ ys)) : MayStart marker xs := by
  rcases h with h | h
  · exact .inl ((prefix_append xs ys).trans h)
  · exact prefix_or_prefix_of_prefix (prefix_append xs ys) h

theorem splitMarker_of_mayStart (h : xs = [] ∨ MayStart marker xs) : splitMarker marker xs = ([], xs) :=
  splitWhere_of_pos h

theorem splitMarker_fst_append_snd (marker xs : List α) : (splitMarker marker xs).1 ++ (splitMarker marker xs).2 = xs :=
  splitWhere_fst_append_snd xs

theorem splitMarker_append (xs ys : List α) : splitMarker marker (xs ++ ys) =
    ((splitMarker marker xs).1 ++ (splitMarker marker ((splitMarker marker xs).2 ++ ys)).1,
      (splitMarker marker ((splitMarker marker xs).2 ++ ys)).2) :=
  splitWhere_append (fun _ _ => MayStart.of_append) xs ys

theorem splitMarker_eq (hfst : ∀ j < i, ¬ MayStart marker (xs.drop j))
    (hpl : xs.drop i = [] ∨ MayStart marker (xs.drop i)) : splitMarker marker xs = (xs.take i, xs.drop i) := by
  induction xs generalizing i with
  | nil => simp [splitMarker, splitWhere]
  | cons x xs ih =>
      cases i with
      | zero => exact splitMarker_of_mayStart hpl
      | succ i =>
          have hrest : splitWhere (MayStart marker) xs = _ := ih (fun j hj => hfst (j + 1) (by omega)) hpl
          have hst : ¬ MayStart marker (x :: xs) := hfst 0 (by omega)
          rw [splitMarker, splitWhere, if_neg hst, hrest]
          rfl

theorem splitMarker_of_found (hmk : marker ≠ []) (h : findMarker marker xs = some i) :
    splitMarker marker xs = (xs.take i, xs.drop i) := by
  obtain ⟨hsts, hfst⟩ := findMarker_eq_some h
  refine splitMarker_eq (fun j hj hst => ?_) (.inr (.inr hsts))
  rcases hst with hst | hst
  · have hpos := length_pos_iff.mpr hmk
    have hle := hst.length_le
    have hle' := hsts.length_le
    rw [length_drop] at hle hle'
    omega
  · exact hfst j hj hst

theorem splitMarker_of_none (h : findMarker marker xs = none) : splitMarker marker xs =
      (xs.take (xs.length - longestSuffixPrefix xs marker), xs.drop (xs.length - longestSuffixPrefix xs marker)) := by
  obtain ⟨hle, hends, hgreatest⟩ := suffixPrefixUpTo_spec xs marker (min xs.length (marker.length - 1))
  change longestSuffixPrefix xs marker ≤ _ at hle
  change marker.take (longestSuffixPrefix xs marker) <:+ xs at hends
  change ∀ m ≤ _, _ → m ≤ longestSuffixPrefix xs marker at hgreatest
  generalize longestSuffixPrefix xs marker = k at hle hends hgreatest
  refine splitMarker_eq (fun j hj hst => ?_) (.inr (.inl ?_))
  · rcases hst with hst | hst
    · have hlen := hst.length_le
      have hne : (xs.drop j).length ≠ marker.length := by
        intro heq
        refine findMarker_eq_none h j ?_
        rw [hst.eq_of_length heq]
      rw [length_drop] at hlen hne
      have hsuf : marker.take (xs.length - j) <:+ xs := by
        have heq := prefix_iff_eq_take.mp hst
        rw [length_drop] at heq
        rw [← heq]
        exact drop_suffix j xs
      have := hgreatest (xs.length - j) (by omega) hsuf
      omega
    · exact findMarker_eq_none h j hst
  · have hdrop := suffix_iff_eq_drop.mp hends
    rw [length_take, min_eq_left (by omega)] at hdrop
    rw [← hdrop]
    exact take_prefix _ _

end

end CodexStudy.Lib
