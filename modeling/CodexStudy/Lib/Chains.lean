import Mathlib.Data.List.Nodup
import Mathlib.Data.List.Perm.Subperm
import Mathlib.Logic.Relation

/-!
# Chains of a partial function

From an element one goes on to its successor as long as there is one that has not been visited.
-/

namespace CodexStudy.Lib

open List

variable {α : Type} (next : α → Option α)

/-- From `x` one walks along `ys`, and then there is no successor or one that was visited. -/
inductive Walks : List α → α → List α → Prop where
  | ends {visited : List α} {x : α} : next x = none → Walks visited x []
  | meets {visited : List α} {x y : α} : next x = some y → y ∈ visited → Walks visited x []
  | goes {visited ys : List α} {x y : α} : next x = some y → y ∉ visited → Walks (y :: visited) y ys →
      Walks visited x (y :: ys)

section

variable [DecidableEq α]

/-- The walk, cut off after the given number of steps. -/
def walkFrom (visited : List α) : Nat → α → List α
  | 0, _ => []
  | fuel + 1, x =>
      match next x with
      | none => []
      | some y => if y ∈ visited then [] else y :: walkFrom (y :: visited) fuel y

variable {next}

/-- With enough steps the walk is not cut off: the elements that were left are different and have successors. -/
theorem walks_walkFrom {sources left : List α} {x : α} {fuel : Nat} (hsources : ∀ y z, next y = some z → y ∈ sources)
    (hleft : left ⊆ sources) (hnd : (x :: left).Nodup) (hfuel : sources.length < fuel + left.length) :
    Walks next (x :: left) x (walkFrom next (x :: left) fuel x) := by
  induction fuel generalizing x left with
  | zero =>
      have hle := (subperm_of_subset (List.Nodup.of_cons hnd) hleft).length_le
      omega
  | succ fuel ih =>
      unfold walkFrom
      split
      next hnone => exact .ends hnone
      next y hsome =>
        split
        next hmem => exact .meets hsome hmem
        next hmem =>
          refine .goes hsome hmem (ih ?_ (nodup_cons.mpr ⟨hmem, hnd⟩) ?_)
          · exact cons_subset.mpr ⟨hsources x y hsome, hleft⟩
          · rw [length_cons]
            omega

end

variable {next}

theorem Walks.reached {visited ys : List α} {x y : α} (h : Walks next visited x ys) (hy : y ∈ ys) :
    Relation.TransGen (fun a b => next a = some b) x y := by
  induction h with
  | ends => cases hy
  | meets => cases hy
  | goes hnext _ _ ih =>
      rcases mem_cons.mp hy with rfl | hy
      · exact .single hnext
      · exact .head hnext (ih hy)

theorem Walks.closed {visited ys : List α} {x : α} (h : Walks next visited x ys)
    (hleft : ∀ a ∈ visited, a ≠ x → ∀ b, next a = some b → b ∈ visited) {a b : α} (ha : a ∈ visited ∨ a ∈ ys)
    (hab : next a = some b) : b ∈ visited ∨ b ∈ ys := by
  induction h with
  | @ends visited x hnone =>
      have ha := ha.resolve_right not_mem_nil
      have hax : a ≠ x := by
        rintro rfl
        rw [hnone] at hab
        cases hab
      exact .inl (hleft a ha hax b hab)
  | @meets visited x y hnext hmem =>
      have ha := ha.resolve_right not_mem_nil
      by_cases hax : a = x
      · rw [hax, hnext] at hab
        cases hab
        exact .inl hmem
      · exact .inl (hleft a ha hax b hab)
  | @goes visited ys x y hnext _ _ ih =>
      have hleft' : ∀ a ∈ y :: visited, a ≠ y → ∀ b, next a = some b → b ∈ y :: visited := by
        intro a ha hay b hab
        by_cases hax : a = x
        · rw [hax, hnext] at hab
          cases hab
          exact mem_cons_self
        · exact mem_cons_of_mem _ (hleft a ((mem_cons.mp ha).resolve_left hay) hax b hab)
      have hmoved : ∀ c, c ∈ visited ∨ c ∈ y :: ys ↔ c ∈ y :: visited ∨ c ∈ ys := by
        intro c
        rw [mem_cons, mem_cons]
        tauto
      exact (hmoved b).mpr (ih hleft' ((hmoved a).mp ha))

theorem Walks.passes {ys : List α} {x y : α} (h : Walks next [x] x ys)
    (hy : Relation.TransGen (fun a b => next a = some b) x y) : y = x ∨ y ∈ ys := by
  have hleft : ∀ a ∈ [x], a ≠ x → ∀ b, next a = some b → b ∈ [x] := fun a ha hax => absurd (mem_singleton.mp ha) hax
  have hpassed : y ∈ [x] ∨ y ∈ ys := by
    induction hy with
    | single hxy => exact h.closed hleft (.inl (mem_singleton_self x)) hxy
    | tail _ hyz ih => exact h.closed hleft ih hyz
  rwa [mem_singleton] at hpassed

end CodexStudy.Lib
