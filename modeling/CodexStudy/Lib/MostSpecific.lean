import Mathlib.Data.List.MinMax
import Mathlib.Data.List.Infix
import Mathlib.Data.Prod.Lex

/-!
# The most specific entry

Entries stand at paths, and an entry speaks about its path and everything below it.
-/

namespace CodexStudy.Lib

open List

def lastArgmax {α β : Type} [Preorder β] [DecidableLT β] (f : α → β) (l : List α) : Option α :=
  l.reverse.argmax f

variable {ε ν κ : Type} [LinearOrder κ]

def precedence (path : ε → List ν) (rank : ε → κ) (e : ε) : ℕ ×ₗ κ := toLex ((path e).length, rank e)

theorem precedence_le_iff {path : ε → List ν} {rank : ε → κ} {e f : ε} {p : List ν} (he : path e <+: p)
    (hf : path f <+: p) : precedence path rank f ≤ precedence path rank e ↔
      (path f).length < (path e).length ∨ path f = path e ∧ rank f ≤ rank e := by
  unfold precedence
  rw [Prod.Lex.toLex_le_toLex]
  constructor
  · rintro (h | ⟨h, hr⟩)
    · exact Or.inl h
    · exact Or.inr ⟨(prefix_of_prefix_length_le hf he h.le).eq_of_length h, hr⟩
  · rintro (h | ⟨h, hr⟩)
    · exact Or.inl h
    · exact Or.inr ⟨by simp [h], hr⟩

/-- The entry decides about `p`. -/
structure Governs (path : ε → List ν) (rank : ε → κ) (entries : List ε) (p : List ν) (e : ε) : Prop where
  mem : e ∈ entries
  above : path e <+: p
  max : ∀ f ∈ entries, path f <+: p →
    (path f).length < (path e).length ∨ path f = path e ∧ rank f ≤ rank e

def mostSpecific? [DecidableEq ν] (path : ε → List ν) (rank : ε → κ) (entries : List ε) (p : List ν) : Option ε :=
  lastArgmax (precedence path rank) (entries.filter fun e => path e <+: p)

section

variable {path : ε → List ν} {rank : ε → κ} {entries entries' : List ε} {p q : List ν} {e f : ε}

namespace Governs

variable (h : Governs path rank entries p e)

include h in
theorem unique (h' : Governs path rank entries p f) :
    path e = path f ∧ rank e = rank f := by
  rcases h.max f h'.mem h'.above with hlt | ⟨heq, hle⟩
  · rcases h'.max e h.mem h.above with hlt' | ⟨heq', _⟩
    · omega
    · rw [heq'] at hlt
      omega
  · rcases h'.max e h.mem h.above with hlt' | ⟨_, hle'⟩
    · rw [heq] at hlt'
      omega
    · exact ⟨heq.symm, le_antisymm hle' hle⟩

include h in
theorem path_le (hf : f ∈ entries) (hfp : path f <+: p) : path f <+: path e := by
  rcases h.max f hf hfp with hlt | ⟨heq, _⟩
  · exact prefix_of_prefix_length_le hfp h.above hlt.le
  · rw [heq]

include h in
theorem mono (hq : path e <+: q) (hqp : q <+: p) : Governs path rank entries q e :=
  ⟨h.mem, hq, fun f hf hfq => h.max f hf (hfq.trans hqp)⟩

include h in
theorem congr (hmem : ∀ x, x ∈ entries ↔ x ∈ entries') :
    Governs path rank entries' p e :=
  ⟨(hmem e).mp h.mem, h.above, fun f hf => h.max f ((hmem f).mpr hf)⟩

include h in
theorem rank_le (hf : f ∈ entries) (heq : path f = path e) : rank f ≤ rank e := by
  rcases h.max f hf (heq ▸ h.above) with hlt | ⟨_, hle⟩
  · rw [heq] at hlt
    omega
  · exact hle

end Governs

variable [DecidableEq ν]

theorem governs_of_mostSpecific? (h : mostSpecific? path rank entries p = some e) : Governs path rank entries p e := by
  have hmem := argmax_mem h
  rw [mem_reverse, mem_filter] at hmem
  have habove : path e <+: p := of_decide_eq_true hmem.2
  refine ⟨hmem.1, habove, fun f hf hfp => ?_⟩
  have hle := le_of_mem_argmax (mem_reverse.mpr (mem_filter.mpr ⟨hf, decide_eq_true hfp⟩)) h
  exact (precedence_le_iff habove hfp).mp hle

theorem mostSpecific?_eq_none : mostSpecific? path rank entries p = none ↔ ∀ e ∈ entries, ¬ path e <+: p := by
  unfold mostSpecific? lastArgmax
  rw [argmax_eq_none, reverse_eq_nil_iff, filter_eq_nil_iff]
  simp

theorem mostSpecific?_rank (h : Governs path rank entries p e) :
    (mostSpecific? path rank entries p).map rank = some (rank e) := by
  cases hs : mostSpecific? path rank entries p with
  | none => exact absurd h.above (mostSpecific?_eq_none.mp hs e h.mem)
  | some f => rw [Option.map_some, ((governs_of_mostSpecific? hs).unique h).2]

theorem exists_governs (he : e ∈ entries) (hep : path e <+: p) : ∃ f, Governs path rank entries p f := by
  cases hs : mostSpecific? path rank entries p with
  | none => exact absurd hep (mostSpecific?_eq_none.mp hs e he)
  | some f => exact ⟨f, governs_of_mostSpecific? hs⟩

theorem mostSpecific?_rank_congr (hmem : ∀ x, x ∈ entries ↔ x ∈ entries') :
    (mostSpecific? path rank entries p).map rank = (mostSpecific? path rank entries' p).map rank := by
  cases hs : mostSpecific? path rank entries p with
  | none =>
      have : mostSpecific? path rank entries' p = none :=
        mostSpecific?_eq_none.mpr fun e he => mostSpecific?_eq_none.mp hs e ((hmem e).mpr he)
      rw [this]
  | some e => rw [Option.map_some, mostSpecific?_rank ((governs_of_mostSpecific? hs).congr hmem)]

end

end CodexStudy.Lib
