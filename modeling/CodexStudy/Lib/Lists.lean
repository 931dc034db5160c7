import Mathlib.Data.List.Destutter
import Mathlib.Data.List.DropRight
import Mathlib.Data.List.Induction

/-!
# Lists as layers

A list is read as layers that are put one on another: of those that cover a place the topmost, which is the last, is
the one that is seen.
-/

namespace CodexStudy.Lib

open List

/-! ## Runs of equal elements -/

variable {α β : Type} {l : List α} {f : α → Option β} {bs : List β}

theorem mem_destutter'_ne [DecidableEq α] {x a : α} : x ∈ l.destutter' (· ≠ ·) a ↔ x = a ∨ x ∈ l := by
  induction l generalizing a with
  | nil => simp
  | cons b l ih =>
      by_cases hab : a = b
      · rw [destutter'_cons_neg _ (by simpa using hab), ih, mem_cons, hab, ← or_assoc, or_self]
      · rw [destutter'_cons_pos _ hab, mem_cons, ih, mem_cons]

theorem mem_destutter_ne [DecidableEq α] {x : α} : x ∈ l.destutter (· ≠ ·) ↔ x ∈ l := by
  cases l with
  | nil => simp
  | cons a l => rw [destutter_cons', mem_destutter'_ne, mem_cons]

/-! ## Functions that may fail on an element -/

theorem forall₂_of_mapM (h : l.mapM f = some bs) : List.Forall₂ (fun a b => f a = some b) l bs := by
  induction l generalizing bs with
  | nil =>
      rw [mapM_nil] at h
      cases h
      exact .nil
  | cons a l ih =>
      rw [mapM_cons] at h
      obtain ⟨first, hfst, h⟩ := Option.bind_eq_some_iff.mp h
      obtain ⟨rest, hrest, h⟩ := Option.bind_eq_some_iff.mp h
      cases h
      exact .cons hfst (ih hrest)

theorem exists_of_mem_forall₂ {R : α → β → Prop} {b : β} (h : List.Forall₂ R l bs) (hb : b ∈ bs) : ∃ a ∈ l, R a b := by
  obtain ⟨n, hn, rfl⟩ := getElem_of_mem hb
  exact ⟨l.get ⟨n, h.length_eq.symm ▸ hn⟩, get_mem _ _, h.get _ hn⟩

theorem exists_of_mem_mapM {b : β} (h : l.mapM f = some bs) (hb : b ∈ bs) : ∃ a ∈ l, f a = some b := by
  obtain ⟨a, ha, hab⟩ := exists_of_mem_forall₂ (forall₂_of_mapM h) hb
  exact ⟨a, ha, hab⟩

theorem exists_of_mapM_of_mem {a : α} (h : l.mapM f = some bs) (ha : a ∈ l) : ∃ b ∈ bs, f a = some b := by
  obtain ⟨n, hn, rfl⟩ := getElem_of_mem ha
  have hall := forall₂_of_mapM h
  exact ⟨bs.get ⟨n, hall.length_eq ▸ hn⟩, get_mem _ _, hall.get hn _⟩

theorem forall₂_append_left {R : α → β → Prop} {l' : List α}
    (h : List.Forall₂ R (l ++ l') bs) :
    ∃ front back, List.Forall₂ R l front ∧ List.Forall₂ R l' back ∧ bs = front ++ back := by
  induction l generalizing bs with
  | nil => exact ⟨[], bs, .nil, h, rfl⟩
  | cons a l ih =>
      obtain ⟨b, rest, hb, hrest, rfl⟩ := forall₂_cons_left_iff.mp h
      obtain ⟨front, back, hfro, hback, rfl⟩ := ih hrest
      exact ⟨b :: front, back, .cons hb hfro, hback, rfl⟩

/-! ## Elements of a kind -/

theorem eraseP_congr {p q : α → Bool} (h : ∀ x ∈ l, p x = q x) : l.eraseP p = l.eraseP q := by
  induction l with
  | nil => rfl
  | cons x l ih =>
      rw [eraseP_cons, eraseP_cons, h x mem_cons_self,
        ih fun y hy => h y (mem_cons_of_mem _ hy)]

theorem eraseP_eq_of_countP {p q : α → Bool} (hle : ∀ x, q x = true → p x = true)
    (hany : l.any q = true) (hcnt : l.countP p ≤ 1) : l.eraseP q = l.eraseP p := by
  induction l with
  | nil => rfl
  | cons x l ih =>
      cases hq : q x with
      | true => rw [eraseP_cons_of_pos hq, eraseP_cons_of_pos (hle x hq)]
      | false =>
          have hrest : l.any q = true := by simpa [hq] using hany
          obtain ⟨y, hy, hqy⟩ := any_eq_true.mp hrest
          have hpos : 0 < l.countP p := countP_pos_iff.mpr ⟨y, hy, hle y hqy⟩
          have hp : ¬ p x = true := by
            intro hp
            rw [countP_cons_of_pos hp] at hcnt
            omega
          rw [countP_cons_of_neg hp] at hcnt
          rw [eraseP_cons_of_neg (by simp [hq]), eraseP_cons_of_neg hp, ih hrest hcnt]

/-- Taking away `n` elements at the end takes away the last `n` of a kind exactly if these are all of the kind, or
nothing of the kind is in front of them. -/
theorem filter_rdrop_eq_iff (p : α → Bool) (l : List α) (n : Nat) :
    (l.filter p).rdrop n = (l.rdrop n).filter p ↔ (∀ a ∈ l.rtake n, p a = true) ∨ ∀ a ∈ l.rdrop n, p a = false := by
  have hspl : l.rdrop n ++ l.rtake n = l := take_append_drop _ l
  have hlast : (l.rtake n).length = min n l.length := by
    rw [rtake, length_drop]
    omega
  have hfst : (l.rdrop n).length = l.length - n := by
    rw [rdrop, length_take]
    omega
  have hfilter : l.filter p = (l.rdrop n).filter p ++ (l.rtake n).filter p := by
    rw [← filter_append, hspl]
  have hall : (∀ a ∈ l.rtake n, p a = true) ↔ ((l.rtake n).filter p).length = (l.rtake n).length := by
    rw [← countP_eq_length_filter, countP_eq_length]
  have hnone : (∀ a ∈ l.rdrop n, p a = false) ↔ ((l.rdrop n).filter p).length = 0 := by
    rw [length_eq_zero_iff, filter_eq_nil_iff]
    exact forall₂_congr fun a _ => (Bool.not_eq_true _).symm ▸ Iff.rfl
  have hle := length_filter_le p (l.rtake n)
  have hle' := length_filter_le p (l.rdrop n)
  have hlen : (l.filter p).length = ((l.rdrop n).filter p).length + ((l.rtake n).filter p).length := by
    rw [hfilter, length_append]
  -- Both lists start the filtered list, so their lengths decide.
  have hiff : (l.filter p).rdrop n = (l.rdrop n).filter p ↔
      (l.filter p).length - n = ((l.rdrop n).filter p).length := by
    constructor
    · intro h
      rw [← h, rdrop, length_take, min_eq_left (Nat.sub_le _ _)]
    · intro h
      rw [rdrop, h, hfilter, take_left]
  rw [hiff, hall, hnone]
  omega

/-! ## The topmost layer -/

section

variable {α β ε σ : Type} {covers : α → Bool} {l l' : List α} {a : α}

def topmost (covers : α → Bool) (layers : List α) : Option α := layers.findRev? covers

theorem topmost_append : topmost covers (l ++ l') = (topmost covers l').or (topmost covers l) := by
  simp [topmost, find?_append]

theorem topmost_eq_none : topmost covers l = none ↔ ∀ a ∈ l, covers a = false := by
  simp [topmost]

theorem mem_of_topmost (h : topmost covers l = some a) : a ∈ l ∧ covers a = true := by
  unfold topmost at h
  rw [findRev?_eq_find?_reverse] at h
  exact ⟨mem_reverse.mp (mem_of_find?_eq_some h), find?_some h⟩

theorem topmost_append_of_none (h : ∀ a ∈ l', covers a = false) : topmost covers (l ++ l') = topmost covers l := by
  rw [topmost_append, topmost_eq_none.mpr h, Option.none_or]

theorem topmost_append_of_isSome (h : (topmost covers l').isSome) : topmost covers (l ++ l') = topmost covers l' := by
  rw [topmost_append, Option.or_of_isSome h]

theorem topmost_isSome (ha : a ∈ l) (hcov : covers a = true) : (topmost covers l).isSome := by
  rw [Option.isSome_iff_ne_none, Ne, topmost_eq_none]
  intro h
  rw [h a ha] at hcov
  cases hcov

theorem exists_last {P : α → Prop} (h : ∃ a ∈ l, P a) : ∃ l₁ a l₂, l = l₁ ++ a :: l₂ ∧ P a ∧ ∀ b ∈ l₂, ¬ P b := by
  induction l with
  | nil =>
      obtain ⟨a, ha, _⟩ := h
      cases ha
  | cons a l ih =>
      by_cases hl : ∃ b ∈ l, P b
      · obtain ⟨l₁, b, l₂, rfl, hb, hlast⟩ := ih hl
        exact ⟨a :: l₁, b, l₂, rfl, hb, hlast⟩
      · obtain ⟨b, hb, hPb⟩ := h
        rcases mem_cons.mp hb with rfl | hb
        · exact ⟨[], b, l, rfl, hPb, fun c hc hPc => hl ⟨c, hc, hPc⟩⟩
        · exact absurd ⟨b, hb, hPb⟩ hl

theorem last_unique {P : α → Prop} {l₁ l₂ l₁' l₂' : List α} {a a' : α} (h : l₁ ++ a :: l₂ = l₁' ++ a' :: l₂') (ha : P a)
    (hlast : ∀ b ∈ l₂, ¬ P b) (ha' : P a') (hlast' : ∀ b ∈ l₂', ¬ P b) : a = a' := by
  rcases append_eq_append_iff.mp h with ⟨l, rfl, hl⟩ | ⟨l, rfl, hl⟩
  · cases l with
    | nil => exact (cons.inj hl).1
    | cons b l =>
        obtain ⟨-, rfl⟩ := cons.inj hl
        exact absurd ha' (hlast a' (by simp))
  · cases l with
    | nil => exact (cons.inj hl).1.symm
    | cons b l =>
        obtain ⟨-, rfl⟩ := cons.inj hl
        exact absurd ha (hlast' a (by simp))

theorem split_concat {l l₁ l₂ : List α} {a b : α} :
    l ++ [b] = l₁ ++ a :: l₂ ↔ (l₂ = [] ∧ a = b ∧ l₁ = l) ∨ ∃ l₃, l₂ = l₃ ++ [b] ∧ l = l₁ ++ a :: l₃ := by
  constructor
  · intro h
    rcases eq_nil_or_concat' l₂ with rfl | ⟨l₃, c, rfl⟩
    · obtain ⟨hl, hb⟩ := append_inj' h rfl
      exact .inl ⟨rfl, (cons.inj hb).1.symm, hl.symm⟩
    · have h' : l ++ [b] = (l₁ ++ a :: l₃) ++ [c] := by simpa using h
      obtain ⟨hl, hb⟩ := append_inj' h' rfl
      exact .inr ⟨l₃, by rw [(cons.inj hb).1], hl⟩
  · rintro (⟨rfl, rfl, rfl⟩ | ⟨l₃, rfl, rfl⟩)
    · rfl
    · simp

/-- A loop whose rounds each put layers on puts on those of all rounds. -/
theorem foldlM_layers {f : σ → α → Except ε σ} (out : σ → List β) {layers : α → List β}
    (h : ∀ s a s', f s a = .ok s' → out s' = out s ++ layers a) {s s' : σ} (hl : l.foldlM f s = .ok s') :
    out s' = out s ++ l.flatMap layers := by
  induction l generalizing s with
  | nil =>
      cases hl
      simp
  | cons a l ih =>
      rw [foldlM_cons] at hl
      cases hf : f s a with
      | error e =>
          rw [hf] at hl
          cases hl
      | ok t =>
          rw [hf] at hl
          rw [ih hl, h s a t hf, flatMap_cons, append_assoc]

theorem mem_or_of_foldl {pick : Option α → α → Option α}
    (h : ∀ best a b, pick best a = some b → b = a ∨ best = some b) {best : Option α} {b : α}
    (hl : l.foldl pick best = some b) : b ∈ l ∨ best = some b := by
  induction l generalizing best with
  | nil => exact Or.inr hl
  | cons a l ih =>
      rcases ih hl with hmem | hnext
      · exact Or.inl (mem_cons_of_mem _ hmem)
      · rcases h best a b hnext with rfl | hbest
        · exact Or.inl mem_cons_self
        · exact Or.inr hbest

theorem foldlM_invariant {f : σ → α → Except ε σ} {I : σ → List α → Prop}
    (h : ∀ s done a s', I s done → f s a = .ok s' → I s' (done ++ [a])) {s s' : σ} {done : List α} (h₀ : I s done)
    (hl : l.foldlM f s = .ok s') : I s' (done ++ l) := by
  induction l generalizing s done with
  | nil =>
      cases hl
      rwa [append_nil]
  | cons a l ih =>
      rw [foldlM_cons] at hl
      cases hf : f s a with
      | error e =>
          rw [hf] at hl
          cases hl
      | ok t =>
          rw [hf] at hl
          rw [append_cons]
          exact ih (h s done a t h₀ hf) hl

end

/-! ## The end of a list -/

section

variable {α : Type} {p q : α → Bool} {l l' : List α}

theorem rdropWhile_append_of_mem {x : α} (hx : x ∈ l') (hp : p x = false) :
    (l ++ l').rdropWhile p = l ++ l'.rdropWhile p := by
  induction l' using reverseRecOn with
  | nil => cases hx
  | append_singleton l' a ih =>
      rw [← append_assoc, rdropWhile_concat, rdropWhile_concat]
      by_cases ha : p a
      · have hmem : x ∈ l' := by
          rcases mem_append.mp hx with hmem | hmem
          · exact hmem
          · rw [mem_singleton.mp hmem, ha] at hp
            cases hp
        rw [if_pos ha, if_pos ha, ih hmem]
      · rw [if_neg ha, if_neg ha, append_assoc]

theorem rdropWhile_append_of_forall (h : ∀ x ∈ l', p x = true) : (l ++ l').rdropWhile p = l.rdropWhile p := by
  induction l' using reverseRecOn with
  | nil => rw [append_nil]
  | append_singleton l' a ih =>
      rw [← append_assoc, rdropWhile_concat, if_pos (h a (by simp))]
      exact ih fun x hx => h x (mem_append_left _ hx)

theorem filter_rdropWhile (h : ∀ x ∈ l, q x = false → p x = true) :
    (l.rdropWhile p).filter q = (l.filter q).rdropWhile p := by
  induction l using reverseRecOn with
  | nil => rfl
  | append_singleton l a ih =>
      have hl := ih fun x hx => h x (mem_append_left _ hx)
      rw [rdropWhile_concat, filter_append]
      by_cases ha : p a
      · rw [if_pos ha, hl]
        by_cases hq : q a
        · rw [filter_cons_of_pos hq, filter_nil, rdropWhile_concat_pos _ _ _ ha]
        · rw [filter_cons_of_neg hq, filter_nil, append_nil]
      · have hq : q a = true := by
          by_contra hq
          exact ha (h a (by simp) (by simpa using hq))
        rw [if_neg ha, filter_append, filter_cons_of_pos hq, filter_nil,
          rdropWhile_concat_neg _ _ _ ha]

theorem exists_split_countP {k : Nat} (hk : 0 < k) (hle : k ≤ l.countP p) :
    ∃ l₁ a l₂, l = l₁ ++ a :: l₂ ∧ p a = true ∧ (a :: l₂).countP p = k := by
  induction l with
  | nil => exact absurd (hk.trans_le hle) (by simp)
  | cons a l ih =>
      by_cases hl : k ≤ l.countP p
      · obtain ⟨l₁, b, l₂, rfl, hb, hcnt⟩ := ih hl
        exact ⟨a :: l₁, b, l₂, rfl, hb, hcnt⟩
      · have ha : p a = true := by
          by_contra ha
          rw [countP_cons_of_neg ha] at hle
          exact hl hle
        rw [countP_cons_of_pos ha] at hle
        refine ⟨[], a, l, rfl, ha, ?_⟩
        rw [countP_cons_of_pos ha]
        omega

end

/-! ## Logs that grow at their end -/

/-- Each part of a log up to some entry has a property exactly when each entry meets a condition on the part before it,
by an invariant that such entries keep. -/
theorem forall_prefix_iff {I P : List α → Prop} {G : List α → α → Prop} (hI₀ : I [])
    (hI : ∀ l a, I l → G l a → I (l ++ [a])) (hP : ∀ l, I l → P l) (hG : ∀ l a, I l → P (l ++ [a]) → G l a)
    (log : List α) : (∀ l, l <+: log → P l) ↔ ∀ l a, l ++ [a] <+: log → G l a := by
  constructor
  · intro h
    suffices ∀ l, l <+: log → I l by
      exact fun l a hl => hG l a (this l ((prefix_append l [a]).trans hl)) (h _ hl)
    intro l
    induction l using reverseRecOn with
    | nil => exact fun _ => hI₀
    | append_singleton l a ih =>
        intro hl
        have hI₁ := ih ((prefix_append l [a]).trans hl)
        exact hI l a hI₁ (hG l a hI₁ (h _ hl))
  · intro h l hl
    refine hP l ?_
    induction l using reverseRecOn with
    | nil => exact hI₀
    | append_singleton l a ih => exact hI l a (ih ((prefix_append l [a]).trans hl)) (h l a hl)

/-! ## Lists that grow at their last element -/

/-- All elements but the last stay, the last one becomes one in the relation `R`, and new ones are put behind it. -/
def GrowsAtLast {α : Type} (R : α → α → Prop) (xs ys : List α) : Prop :=
  xs = [] ∨ ∃ init x y new, xs = init ++ [x] ∧ ys = init ++ y :: new ∧ R x y

namespace GrowsAtLast

variable {α : Type} {R : α → α → Prop} {xs ys zs : List α}

theorem of_append (hR : ∀ x, R x x) (xs new : List α) : GrowsAtLast R xs (xs ++ new) := by
  rcases eq_nil_or_concat' xs with rfl | ⟨init, x, rfl⟩
  · exact .inl rfl
  · exact .inr ⟨init, x, x, new, rfl, by simp, hR x⟩

theorem refl (hR : ∀ x, R x x) (xs : List α) : GrowsAtLast R xs xs := by
  simpa using of_append hR xs []

theorem of_last {init new : List α} {x y : α} (h : R x y) : GrowsAtLast R (init ++ [x]) (init ++ y :: new) :=
  .inr ⟨init, x, y, new, rfl, rfl, h⟩

theorem eq_nil (h : GrowsAtLast R xs []) : xs = [] := by
  obtain h | ⟨init, x, y, new, -, hys, -⟩ := h
  · exact h
  · simp at hys

theorem trans (hR : ∀ x y z, R x y → R y z → R x z) (h₁ : GrowsAtLast R xs ys) (h₂ : GrowsAtLast R ys zs) :
    GrowsAtLast R xs zs := by
  obtain rfl | ⟨init, x, y, new, rfl, rfl, hxy⟩ := h₁
  · exact .inl rfl
  · obtain h | ⟨init', y', z, new', hys, rfl, hyz⟩ := h₂
    · simp at h
    · -- The last element of the middle list is the one that `x` became, or stands behind it.
      rcases eq_nil_or_concat' new with rfl | ⟨between, b, rfl⟩
      · obtain ⟨rfl, rfl⟩ := append_singleton_inj.mp hys
        exact of_last (hR _ _ _ hxy hyz)
      · have hspl : (init ++ y :: between) ++ [b] = init' ++ [y'] := by simpa using hys
        obtain ⟨rfl, rfl⟩ := append_singleton_inj.mp hspl
        have hlast : GrowsAtLast R (init ++ [x]) (init ++ y :: (between ++ z :: new')) := of_last hxy
        simpa using hlast

end GrowsAtLast

end CodexStudy.Lib
