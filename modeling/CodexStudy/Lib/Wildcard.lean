import Mathlib.Data.List.Basic
import Mathlib.Data.List.Infix

/-!
# Wildcard patterns

A pattern is a list of letters, of places for one letter and of places for any number of letters.
-/

namespace CodexStudy.Lib

open List

/-- A part of a pattern: a letter, any one letter, or any letters. -/
inductive Wild (α : Type) where
  | lit (a : α)
  | one
  | many

namespace Wild

variable {α : Type} [DecidableEq α]

def «matches» : List (Wild α) → List α → Bool
  | [], s => s.isEmpty
  | lit _ :: _, [] => false
  | lit a :: p, b :: s => a == b && «matches» p s
  | one :: _, [] => false
  | one :: p, _ :: s => «matches» p s
  | many :: p, s => s.tails.any fun t => «matches» p t

variable {p q : List (Wild α)} {s : List α}

@[simp] theorem matches_nil : Wild.matches ([] : List (Wild α)) s = true ↔ s = [] := by
  simp [Wild.matches]

@[simp] theorem matches_lit {a : α} : Wild.matches (lit a :: p) s = true ↔ ∃ t, s = a :: t ∧ Wild.matches p t = true := by
  cases s with
  | nil => simp [Wild.matches]
  | cons b s =>
      rw [Wild.matches, Bool.and_eq_true, beq_iff_eq]
      constructor
      · rintro ⟨rfl, hp⟩
        exact ⟨s, rfl, hp⟩
      · rintro ⟨t, heq, hp⟩
        obtain ⟨rfl, rfl⟩ := cons_eq_cons.mp heq
        exact ⟨rfl, hp⟩

@[simp] theorem matches_one : Wild.matches (one :: p) s = true ↔ ∃ b t, s = b :: t ∧ Wild.matches p t = true := by
  cases s <;> simp [Wild.matches]

@[simp] theorem matches_many : Wild.matches (many :: p) s = true ↔ ∃ r t, s = r ++ t ∧ Wild.matches p t = true := by
  rw [Wild.matches, any_eq_true]
  constructor
  · rintro ⟨t, ht, hp⟩
    obtain ⟨r, rfl⟩ := (mem_tails _ _).mp ht
    exact ⟨r, t, rfl, hp⟩
  · rintro ⟨r, t, rfl, hp⟩
    exact ⟨t, (mem_tails _ _).mpr (suffix_append r t), hp⟩

theorem matches_append : Wild.matches (p ++ q) s = true ↔
    ∃ t u, s = t ++ u ∧ Wild.matches p t = true ∧ Wild.matches q u = true := by
  induction p generalizing s with
  | nil => simp
  | cons w p ih =>
      cases w with
      | lit a =>
          simp only [cons_append, matches_lit, ih]
          constructor
          · rintro ⟨_, rfl, t, u, rfl, hp, hq⟩
            exact ⟨a :: t, u, rfl, ⟨t, rfl, hp⟩, hq⟩
          · rintro ⟨_, u, rfl, ⟨t, rfl, hp⟩, hq⟩
            exact ⟨t ++ u, rfl, t, u, rfl, hp, hq⟩
      | one =>
          simp only [cons_append, matches_one, ih]
          constructor
          · rintro ⟨b, _, rfl, t, u, rfl, hp, hq⟩
            exact ⟨b :: t, u, rfl, ⟨b, t, rfl, hp⟩, hq⟩
          · rintro ⟨_, u, rfl, ⟨b, t, rfl, hp⟩, hq⟩
            exact ⟨b, t ++ u, rfl, t, u, rfl, hp, hq⟩
      | many =>
          simp only [cons_append, matches_many, ih]
          constructor
          · rintro ⟨r, _, rfl, t, u, rfl, hp, hq⟩
            exact ⟨r ++ t, u, (append_assoc r t u).symm, ⟨r, t, rfl, hp⟩, hq⟩
          · rintro ⟨_, u, rfl, ⟨r, t, rfl, hp⟩, hq⟩
            exact ⟨r, t ++ u, append_assoc r t u, t, u, rfl, hp, hq⟩

theorem matches_one_many : Wild.matches [one, many] s = true ↔ s ≠ [] := by
  cases s with
  | nil => simp
  | cons b s =>
      refine iff_of_true (matches_one.mpr ⟨b, s, rfl, matches_many.mpr ⟨s, [], ?_, ?_⟩⟩) (by simp)
      · rw [append_nil]
      · exact matches_nil.mpr rfl

theorem ne_nil_of_matches (h : Wild.matches p s = true) {w : Wild α} (hw : w ∈ p) (hne : w ≠ many) : s ≠ [] := by
  rintro rfl
  induction p with
  | nil => cases hw
  | cons v p ih =>
      cases v with
      | lit a => simp at h
      | one => simp at h
      | many =>
          obtain ⟨r, t, heq, ht⟩ := matches_many.mp h
          obtain ⟨rfl, rfl⟩ := append_eq_nil_iff.mp heq.symm
          rcases mem_cons.mp hw with rfl | hw
          · exact hne rfl
          · exact ih hw ht

end Wild

end CodexStudy.Lib
