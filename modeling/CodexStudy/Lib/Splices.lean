import Mathlib.Data.List.Sort

/-!
# Splices of a list

A splice puts new elements in the place of a stretch of a list.
-/

namespace CodexStudy.Lib

open List

/-! ## Sorting -/

section Sorting

variable {α : Type} {r B : α → α → Prop} [DecidableRel r]

theorem pairwise_orderedInsert_iff [IsTrans α r] {a : α} {l : List α} (hl : l.Pairwise r) :
    (l.orderedInsert r a).Pairwise B ↔ l.Pairwise B ∧ ∀ b ∈ l, if r a b then B a b else B b a := by
  induction l with
  | nil => simp
  | cons b l ih =>
      rw [pairwise_cons] at hl
      obtain ⟨hb, hl⟩ := hl
      by_cases hab : r a b
      · -- What stands behind `b` is behind `a` too.
        have haft : ∀ c ∈ b :: l, r a c := by
          intro c hc
          rcases mem_cons.mp hc with rfl | hc
          · exact hab
          · exact IsTrans.trans _ _ _ hab (hb c hc)
        rw [orderedInsert_cons_of_le r l hab, pairwise_cons, and_comm]
        refine and_congr_right fun _ => forall₂_congr fun c hc => ?_
        rw [if_pos (haft c hc)]
      · rw [orderedInsert_of_not_le r l hab, pairwise_cons, pairwise_cons, ih hl]
        simp only [mem_orderedInsert, forall_eq_or_imp, mem_cons, if_neg hab]
        tauto

theorem pairwise_insertionSort_iff [IsTrans α r] [Std.Total r] (l : List α) :
    (l.insertionSort r).Pairwise B ↔ l.Pairwise fun a b => if r a b then B a b else B b a := by
  induction l with
  | nil => simp
  | cons a l ih =>
      rw [insertionSort_cons, pairwise_orderedInsert_iff (pairwise_insertionSort r l), ih, pairwise_cons,
        and_comm]
      simp only [mem_insertionSort]

end Sorting

/-! ## Splices -/

/-- The `oldLen` elements from `start` on become `new`. -/
structure Splice (α : Type) where
  start : Nat
  oldLen : Nat
  new : List α

namespace Splice

variable {α : Type}

/-- The index after the stretch. -/
def stop (s : Splice α) : Nat := s.start + s.oldLen

def apply (s : Splice α) (l : List α) : List α := l.take s.start ++ s.new ++ l.drop s.stop

/-- The stretch of `s` ends before that of `s'` starts. -/
def Before (s s' : Splice α) : Prop := s.stop ≤ s'.start

/-- The list `l`, whose first element has the index `index`, with the stretches of the splices replaced. -/
inductive Substitutes : (index : Nat) → List (Splice α) → (l l' : List α) → Prop where
  | nil {index : Nat} {l : List α} : Substitutes index [] l l
  | cons {index : Nat} {s : Splice α} {ss : List (Splice α)} {kept block rest rest' : List α} :
      index + kept.length = s.start → block.length = s.oldLen → Substitutes s.stop ss rest rest' →
      Substitutes index (s :: ss) (kept ++ (block ++ rest)) (kept ++ (s.new ++ rest'))

variable {s : Splice α} {ss : List (Splice α)}

theorem Substitutes.unique {index : Nat} {l l₁ l₂ : List α} (h₁ : Substitutes index ss l l₁)
    (h₂ : Substitutes index ss l l₂) : l₁ = l₂ := by
  induction h₁ generalizing l₂ with
  | nil =>
      cases h₂
      rfl
  | @cons index s ss kept block rest rest' hkept hblock _ ih =>
      generalize hl : kept ++ (block ++ rest) = l at h₂
      cases h₂ with
      | @cons _ _ _ kept' block' behind behind' hkept' hblock' hbeh =>
          have hkeptLen : kept.length = kept'.length := by omega
          obtain ⟨hkept, hl⟩ := append_inj hl hkeptLen
          have hblockLen : block.length = block'.length := by omega
          obtain ⟨-, hrest⟩ := append_inj hl hblockLen
          rw [← hrest] at hbeh
          rw [hkept, ih hbeh]

theorem apply_append (before block rest : List α) (hbef : before.length = s.start)
    (hblock : block.length = s.oldLen) : s.apply (before ++ (block ++ rest)) = before ++ (s.new ++ rest) := by
  have hstop : s.stop = (before ++ block).length := by rw [length_append, hbef, hblock, stop]
  rw [apply, ← hbef, take_left, hstop, ← append_assoc before block, drop_left, append_assoc]

theorem exists_substitutes (before rest : List α) (hst : ∀ s ∈ ss, before.length ≤ s.start)
    (hstop : ∀ s ∈ ss, s.stop ≤ (before ++ rest).length) (h : ss.Pairwise Before) :
    ∃ rest', ss.foldr apply (before ++ rest) = before ++ rest' ∧ Substitutes before.length ss rest rest' := by
  induction ss generalizing before rest with
  | nil => exact ⟨rest, rfl, .nil⟩
  | cons s ss ih =>
      rw [pairwise_cons] at h
      have hs := hst s mem_cons_self
      have hlen := hstop s mem_cons_self
      rw [length_append] at hlen
      -- The rest is what is kept before the stretch, the stretch, and what comes behind it.
      obtain ⟨kept, block, behind, hkept, hblock, rfl⟩ : ∃ kept block behind : List α,
          before.length + kept.length = s.start ∧ block.length = s.oldLen ∧ rest = kept ++ (block ++ behind) := by
        refine ⟨rest.take (s.start - before.length), (rest.drop (s.start - before.length)).take s.oldLen,
          (rest.drop (s.start - before.length)).drop s.oldLen, ?_, ?_, ?_⟩
        · rw [length_take]
          unfold stop at hlen
          omega
        · rw [length_take, length_drop]
          unfold stop at hlen
          omega
        · rw [take_append_drop, take_append_drop]
      have hstop' : s.stop = (before ++ (kept ++ block)).length := by
        rw [length_append, length_append, stop, ← hkept, hblock, Nat.add_assoc]
      obtain ⟨rest', hfold, hrest⟩ := ih (before ++ (kept ++ block)) behind
        (fun s' hs' => hstop' ▸ h.1 s' hs')
        (fun s' hs' => by simpa using hstop s' (mem_cons_of_mem _ hs')) h.2
      refine ⟨kept ++ (s.new ++ rest'), ?_, ?_⟩
      · have hbeh : before ++ (kept ++ (block ++ behind)) = before ++ (kept ++ block) ++ behind := by simp
        rw [foldr_cons, hbeh, hfold]
        have happly := apply_append (before ++ kept) block rest'
          (by rw [length_append, hkept]) hblock
        simpa using happly
      · rw [← hstop'] at hrest
        exact .cons hkept hblock hrest

/-- Splices of stretches one behind the other, made from the last to the first, substitute in all places. -/
theorem substitutes_foldr {l : List α} (hstop : ∀ s ∈ ss, s.stop ≤ l.length) (h : ss.Pairwise Before) :
    Substitutes 0 ss l (ss.foldr apply l) := by
  obtain ⟨l', hfold, hsub⟩ := exists_substitutes [] l (fun _ _ => Nat.zero_le _)
    (by simpa using hstop) h
  rw [nil_append, nil_append] at hfold
  rw [hfold]
  exact hsub

end Splice

end CodexStudy.Lib
