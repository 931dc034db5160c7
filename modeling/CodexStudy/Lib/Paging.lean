import Mathlib.Data.List.Infix
import Mathlib.Data.List.Nodup
import Mathlib.Data.List.TakeDrop
import Mathlib.Order.Lattice

/-!
# Pages of a sorted list

A list that is sorted by falling keys is handed out in pages of accepted elements, and a cursor is all that is known
of the page before.
-/

namespace CodexStudy.Lib

open List Option Nat

namespace Paging

variable {α κ : Type} [LinearOrder κ] (key : α → κ) (accept : α → Bool) (cursor : α → Option κ) (size : Nat)

/-! ## Pages -/

/-- The first accepted elements, up to `n`, and what has not been looked at when there are so many. -/
def takePage (accept : α → Bool) : Nat → List α → List α × List α
  | _, [] => ([], [])
  | 0, a :: l => ([], a :: l)
  | n + 1, a :: l => if accept a then (a :: (takePage accept n l).1, (takePage accept n l).2) else takePage accept (n + 1) l

/-- The elements behind the cursor of the page before. -/
def after (anchor : Option κ) (l : List α) : List α :=
  match anchor with
  | some c => l.dropWhile fun a => c ≤ key a
  | none => l

def next (page rest : List α) : Option κ := if rest = [] then none else page.getLast?.bind cursor

def pages (l : List α) : Nat → Option κ → Option (List α)
  | 0, _ => none
  | n + 1, anchor =>
      let (page, rest) := takePage accept size (after key anchor l)
      match next cursor page rest with
      | some c => (pages l n (some c)).map (page ++ ·)
      | none => some page

structure Separates (l : List α) : Prop where
  inside : ∀ k a b, 0 < k → (l.filter accept)[k * size - 1]? = some a → (l.filter accept)[k * size]? = some b →
    ∃ c, cursor a = some c ∧ key b < c ∧ c ≤ key a
  last : ∀ k a, 0 < k → (l.filter accept).length = k * size → (l.filter accept).getLast? = some a →
    l.getLast? ≠ some a → ∀ c, cursor a = some c → c ≤ key a

section

variable {accept} {n : Nat} {l : List α}

theorem takePage_fst (n : Nat) (l : List α) : (takePage accept n l).1 = (l.filter accept).take n := by
  induction l generalizing n with
  | nil => cases n <;> rfl
  | cons a l ih =>
      cases n with
      | zero => rfl
      | succ n =>
          rw [takePage]
          split
          · rename_i ha
            rw [filter_cons_of_pos ha, take_succ_cons, ih]
          · rename_i ha
            rw [filter_cons_of_neg ha, ih]

variable (accept) in
theorem filter_takePage_snd (n : Nat) (l : List α) : (takePage accept n l).2.filter accept = (l.filter accept).drop n := by
  induction l generalizing n with
  | nil => cases n <;> rfl
  | cons a l ih =>
      cases n with
      | zero => rfl
      | succ n =>
          rw [takePage]
          split
          · rename_i ha
            rw [filter_cons_of_pos ha, drop_succ_cons, ih]
          · rename_i ha
            rw [filter_cons_of_neg ha, ih]

variable (accept) in
theorem takePage_snd_ne_nil (hnodup : l.Nodup) (hn : 0 < n) : (takePage accept n l).2 ≠ [] ↔
    (takePage accept n l).1.length = n ∧ (takePage accept n l).1.getLast? ≠ l.getLast? := by
  induction l generalizing n with
  | nil =>
      cases n with
      | zero => cases hn
      | succ n => simp [takePage]
  | cons a l ih =>
      obtain ⟨ha', hnodup'⟩ := nodup_cons.mp hnodup
      cases n with
      | zero => cases hn
      | succ n =>
          rw [takePage]
          split
          · rename_i ha
            cases n with
            | zero =>
                cases l with
                | nil => simp [takePage]
                | cons b l =>
                    simp only [takePage, length_cons, length_nil, Nat.zero_add, getLast?_singleton,
                      getLast?_cons_cons, true_and, ne_eq, reduceCtorEq, not_false_eq_true, true_iff]
                    exact fun hlast => ha' (mem_of_getLast? hlast.symm)
            | succ n =>
                have hrest := ih hnodup' (succ_pos n)
                dsimp only
                rw [hrest, length_cons, succ_inj]
                refine and_congr_right fun hlength => ?_
                cases hpage : (takePage accept (n + 1) l).1 with
                | nil => rw [hpage] at hlength; cases hlength
                | cons b page =>
                    cases l with
                    | nil => cases hpage
                    | cons b' l => rw [getLast?_cons_cons, getLast?_cons_cons]
          · rename_i ha
            rw [ih hnodup' hn]
            refine and_congr_right fun hlength => ?_
            cases l with
            | nil =>
                have hzero : (0 : Nat) = n + 1 := hlength
                cases hzero
            | cons b l => rw [getLast?_cons_cons]

end

/-! ## Borders -/

section

variable {key accept cursor size} {l : List α} {i n : Nat} {anchor : Option κ} {a b : α} {c : κ}

variable (hsrt : l.Pairwise fun a b => key b ≤ key a) (hnd : l.Nodup) (hsize : 0 < size)

include hsrt in
theorem after_some (c : κ) :
    after key (some c) l = l.filter fun a => key a < c := by
  induction l with
  | nil => rfl
  | cons a l ih =>
      obtain ⟨ha, hsrt'⟩ := pairwise_cons.mp hsrt
      have hih := ih hsrt'
      rw [after] at hih ⊢
      by_cases hc : c ≤ key a
      · rw [dropWhile_cons_of_pos (by simpa using hc), filter_cons_of_neg (by simpa using hc), hih]
      · have hall : ∀ b ∈ a :: l, key b < c := by
          intro b hb
          rcases mem_cons.mp hb with rfl | hb
          · exact lt_of_not_ge hc
          · exact lt_of_le_of_lt (ha b hb) (lt_of_not_ge hc)
        rw [dropWhile_cons_of_neg (by simpa using hc), filter_eq_self.mpr fun b hb => by simpa using hall b hb]

theorem filter_lt_eq_drop (hbef : ∀ a ∈ l.take i, c ≤ key a) (hbeh : ∀ b ∈ l.drop i, key b < c) :
    (l.filter fun a => key a < c) = l.drop i := by
  conv_lhs => rw [← take_append_drop i l]
  rw [filter_append, filter_eq_nil_iff.mpr fun a ha => by simpa using hbef a ha,
    filter_eq_self.mpr fun b hb => by simpa using hbeh b hb, nil_append]

/-- The accepted elements behind the cursor are those from a place on. -/
def AtBorder (key : α → κ) (accept : α → Bool) (l : List α) (i : Nat) (anchor : Option κ) : Prop :=
  (after key anchor l).filter accept = (l.filter accept).drop i

theorem atBorder_none (key : α → κ) (accept : α → Bool) (l : List α) (size : Nat) : AtBorder key accept l (0 * size) none := by
  rw [Nat.zero_mul]
  rfl

include hsrt in
theorem le_of_mem_take (ha : l[i - 1]? = some a) :
    ∀ x ∈ l.take i, key a ≤ key x := by
  intro x hx
  obtain ⟨j, hj, hx'⟩ := mem_iff_getElem.mp hx
  rw [getElem_take] at hx'
  rw [List.length_take] at hj
  obtain ⟨hi, rfl⟩ := List.getElem?_eq_some_iff.mp ha
  subst hx'
  rcases lt_or_ge j (i - 1) with hlt | hge
  · exact pairwise_iff_getElem.mp hsrt j (i - 1) (by omega) hi hlt
  · have hj' : j = i - 1 := by omega
    subst hj'
    exact le_rfl

include hsrt in
theorem le_of_mem_drop (hb : l[i]? = some b) :
    ∀ x ∈ l.drop i, key x ≤ key b := by
  intro x hx
  obtain ⟨hi, rfl⟩ := List.getElem?_eq_some_iff.mp hb
  rw [List.drop_eq_getElem_cons hi] at hx
  rcases mem_cons.mp hx with rfl | hx
  · exact le_rfl
  · obtain ⟨j, hj, rfl⟩ := mem_iff_getElem.mp hx
    rw [getElem_drop]
    exact pairwise_iff_getElem.mp hsrt i (i + 1 + j) hi _ (by omega)

include hsrt in
theorem atBorder_some (hbef : ∀ a ∈ (l.filter accept).take i, c ≤ key a)
    (hbeh : ∀ b ∈ (l.filter accept).drop i, key b < c) : AtBorder key accept l i (some c) := by
  rw [AtBorder, after_some hsrt, filter_comm]
  exact filter_lt_eq_drop hbef hbeh

variable (key) in
theorem nodup_after (h : l.Nodup) (anchor : Option κ) : (after key anchor l).Nodup := by
  cases anchor with
  | none => exact h
  | some c => exact h.sublist (dropWhile_sublist _)

variable (size) in
theorem page_of_border (h : AtBorder key accept l i anchor) :
    (takePage accept size (after key anchor l)).1 = ((l.filter accept).drop i).take size := by
  rw [takePage_fst, h]

include hsize in
theorem getLast?_page (hi : i + size ≤ l.length) : ((l.drop i).take size).getLast? = l[i + size - 1]? := by
  have hlen : ((l.drop i).take size).length = size := by
    rw [length_take, length_drop]
    omega
  rw [getLast?_eq_getElem?, hlen, getElem?_take_of_lt (by omega), getElem?_drop]
  congr 1
  omega

include hsize in
theorem next_inside (h : AtBorder key accept l i anchor)
    (ha : (l.filter accept)[i + size - 1]? = some a) (hb : (l.filter accept)[i + size]? = some b) :
    next cursor (takePage accept size (after key anchor l)).1 (takePage accept size (after key anchor l)).2 = cursor a := by
  obtain ⟨hi, -⟩ := List.getElem?_eq_some_iff.mp hb
  have hrest : (takePage accept size (after key anchor l)).2 ≠ [] := by
    intro hnil
    have hdrop := filter_takePage_snd accept size (after key anchor l)
    rw [hnil, h, drop_drop, filter_nil] at hdrop
    have hlen := congrArg length hdrop
    rw [length_nil, length_drop] at hlen
    omega
  rw [next, if_neg hrest, page_of_border size h, getLast?_page hsize hi.le, ha]
  rfl

variable (cursor) in
theorem next_last (hnodup : l.Nodup) (hsize : 0 < size) (h : AtBorder key accept l i anchor)
    (hi : (l.filter accept).length = i + size) (ha : (l.filter accept).getLast? = some a) : (l.getLast? = some a →
        next cursor (takePage accept size (after key anchor l)).1 (takePage accept size (after key anchor l)).2 = none) ∧
      (l.getLast? ≠ some a →
        next cursor (takePage accept size (after key anchor l)).1 (takePage accept size (after key anchor l)).2 =
          cursor a) := by
  have hpage := getLast?_page (l := l.filter accept) hsize hi.ge
  rw [← hi, ← getLast?_eq_getElem?, ha] at hpage
  have hlength : (((l.filter accept).drop i).take size).length = size := by
    rw [length_take, length_drop]
    omega
  -- The elements behind the cursor end as the list does.
  have hlast : (after key anchor l).getLast? = l.getLast? := by
    have hmem : a ∈ after key anchor l := by
      have hpage' := mem_of_mem_take (mem_of_getLast? hpage)
      rw [← h] at hpage'
      exact (mem_filter.mp hpage').1
    cases anchor with
    | none => rfl
    | some c =>
        obtain ⟨before, hbefore⟩ := dropWhile_suffix (l := l) fun a => c ≤ key a
        conv_rhs => rw [← hbefore]
        exact (getLast?_append_of_ne_nil before (ne_nil_of_mem hmem)).symm
  have hiff := takePage_snd_ne_nil accept (nodup_after key hnodup anchor) hsize
  rw [page_of_border size h, hpage, hlast] at hiff
  rw [next, page_of_border size h, hpage]
  refine ⟨fun hend => ?_, fun hend => ?_⟩
  · rw [if_pos]
    by_contra hrest
    exact (hiff.mp hrest).2 hend.symm
  · rw [if_neg (hiff.mpr ⟨hlength, fun heq => hend heq.symm⟩)]
    rfl

include hnd hsize in
theorem next_short (h : AtBorder key accept l i anchor) (hi : (l.filter accept).length < i + size) :
    next cursor (takePage accept size (after key anchor l)).1 (takePage accept size (after key anchor l)).2 = none := by
  have hiff := takePage_snd_ne_nil accept (nodup_after key hnd anchor) hsize
  rw [next, if_pos]
  by_contra hrest
  have hlen := (hiff.mp hrest).1
  rw [page_of_border size h, length_take, length_drop] at hlen
  omega

theorem pages_succ (l : List α) (n : Nat) (anchor : Option κ) :
    pages key accept cursor size l (n + 1) anchor =
      match next cursor (takePage accept size (after key anchor l)).1 (takePage accept size (after key anchor l)).2 with
      | some c => (pages key accept cursor size l n (some c)).map ((takePage accept size (after key anchor l)).1 ++ ·)
      | none => some (takePage accept size (after key anchor l)).1 := rfl

theorem mem_of_pages {collected : List α} (h : pages key accept cursor size l n anchor = some collected) :
    ∀ a ∈ collected, a ∈ l.filter accept := by
  have hpage : ∀ anchor, ∀ a ∈ (takePage accept size (after key anchor l)).1, a ∈ l.filter accept := by
    intro anchor a ha
    rw [takePage_fst] at ha
    refine (List.Sublist.filter accept ?_).subset (mem_of_mem_take ha)
    cases anchor with
    | none => exact List.Sublist.refl l
    | some c => exact dropWhile_sublist _
  induction n generalizing anchor collected with
  | zero => cases h
  | succ n ih =>
      rw [pages_succ] at h
      split at h
      · obtain ⟨rest, hrest, rfl⟩ := map_eq_some_iff.mp h
        intro a ha
        rcases mem_append.mp ha with ha | ha
        · exact hpage anchor a ha
        · exact ih hrest a ha
      · cases h
        exact hpage anchor

/-! ## Pages and cursors -/

include hsrt hnd hsize in
theorem exists_pages
    (h : Separates key accept cursor size l) (k : Nat) (hborder : AtBorder key accept l (k * size) anchor) :
    ∃ n, pages key accept cursor size l n anchor = some ((l.filter accept).drop (k * size)) := by
  induction hm : (l.filter accept).length - k * size using Nat.strong_induction_on generalizing k anchor with
  | _ m ih =>
      have hnext : k * size + size = (k + 1) * size := (succ_mul k size).symm
      have hpage := page_of_border size hborder
      rcases lt_trichotomy (k * size + size) (l.filter accept).length with hlt | heq | hgt
      · have ha : (l.filter accept)[k * size + size - 1]? = some (l.filter accept)[k * size + size - 1] :=
          getElem?_eq_getElem (by omega)
        have hb : (l.filter accept)[k * size + size]? = some (l.filter accept)[k * size + size] :=
          getElem?_eq_getElem hlt
        obtain ⟨c, hcursor, hbc, hca⟩ := h.inside (k + 1) _ _ (succ_pos k) (by rw [← hnext]; exact ha)
          (by rw [← hnext]; exact hb)
        have hsrt' := hsrt.filter accept
        have hborder' : AtBorder key accept l (k * size + size) (some c) :=
          atBorder_some hsrt (fun x hx => hca.trans (le_of_mem_take hsrt' ha x hx))
            (fun x hx => lt_of_le_of_lt (le_of_mem_drop hsrt' hb x hx) hbc)
        rw [hnext] at hborder'
        obtain ⟨n, hn⟩ := ih _ (by omega) (k + 1) hborder' rfl
        refine ⟨n + 1, ?_⟩
        rw [pages_succ, next_inside hsize hborder ha hb, hcursor]
        dsimp only
        rw [hn, hpage, map_some, ← hnext, ← drop_drop, take_append_drop]
      · -- The last page is full: if a cursor is given, nothing accepted is behind it.
        obtain ⟨a, hend⟩ : ∃ a, (l.filter accept)[k * size + size - 1]? = some a :=
          ⟨_, getElem?_eq_getElem (by omega)⟩
        have ha := hend
        rw [heq, ← getLast?_eq_getElem?] at ha
        have hone : next cursor (takePage accept size (after key anchor l)).1 (takePage accept size (after key anchor l)).2 =
            none → ∃ n, pages key accept cursor size l n anchor = some ((l.filter accept).drop (k * size)) := by
          intro hnone
          refine ⟨1, ?_⟩
          rw [pages_succ, hnone]
          dsimp only
          rw [hpage, take_of_length_le]
          rw [length_drop]
          omega
        obtain ⟨hnone, hsome⟩ := next_last cursor hnd hsize hborder heq.symm ha
        by_cases hlast : l.getLast? = some a
        · exact hone (hnone hlast)
        · cases hcursor : cursor a with
          | none => exact hone ((hsome hlast).trans hcursor)
          | some c =>
              have hca := h.last (k + 1) _ (succ_pos k) (heq.symm.trans hnext) ha hlast c hcursor
              have hborder' : AtBorder key accept l (k * size + size) (some c) := by
                refine atBorder_some hsrt
                  (fun x hx => hca.trans (le_of_mem_take (hsrt.filter accept) hend x hx)) fun x hx => ?_
                rw [heq, drop_length] at hx
                cases hx
              rw [hnext] at hborder'
              obtain ⟨n, hn⟩ := ih _ (by omega) (k + 1) hborder' rfl
              refine ⟨n + 1, ?_⟩
              rw [pages_succ, hsome hlast, hcursor]
              dsimp only
              rw [hn, hpage, map_some, ← hnext, ← drop_drop, take_append_drop]
      · refine ⟨1, ?_⟩
        rw [pages_succ, next_short hnd hsize hborder hgt]
        dsimp only
        rw [hpage, take_of_length_le]
        rw [length_drop]
        omega

include hsize in
theorem head?_pages {collected : List α} (h : pages key accept cursor size l n anchor = some collected) :
    collected.head? = ((after key anchor l).filter accept).head? := by
  cases n with
  | zero => cases h
  | succ n =>
      have hpage : (takePage accept size (after key anchor l)).1 = ((after key anchor l).filter accept).take size :=
        takePage_fst size _
      rw [pages_succ] at h
      cases hnext : next cursor (takePage accept size (after key anchor l)).1
          (takePage accept size (after key anchor l)).2 with
      | none =>
          rw [hnext] at h
          cases h
          rw [hpage, head?_take, if_neg (by omega)]
      | some c =>
          rw [hnext] at h
          obtain ⟨rest, -, rfl⟩ := map_eq_some_iff.mp h
          -- There is no cursor without a last element of the page.
          have hne : ((after key anchor l).filter accept).take size ≠ [] := by
            intro hnil
            rw [next, hpage, hnil] at hnext
            split at hnext
            · cases hnext
            · cases hnext
          rw [hpage, head?_append_of_ne_nil _ hne, head?_take, if_neg (by omega)]

structure Reached (key : α → κ) (accept : α → Bool) (cursor : α → Option κ) (size : Nat) (l : List α) (i : Nat) : Prop where
  exists_pages : ∃ n anchor collected, AtBorder key accept l i anchor ∧
    pages key accept cursor size l n anchor = some collected ∧ collected.Perm ((l.filter accept).drop i) ∧
    collected.Pairwise fun a b => key b ≤ key a

include hsrt hnd hsize in
theorem Reached.inside (h : Reached key accept cursor size l i) (ha : (l.filter accept)[i + size - 1]? = some a)
    (hb : (l.filter accept)[i + size]? = some b) :
    (∃ c, cursor a = some c ∧ key b < c ∧ c ≤ key a) ∧ Reached key accept cursor size l (i + size) := by
  obtain ⟨n, anchor, collected, hborder, hpages, hperm, hcollected⟩ := h.exists_pages
  have hsrt' := hsrt.filter accept
  have hpage := page_of_border size hborder
  obtain ⟨hi, rfl⟩ := List.getElem?_eq_some_iff.mp hb
  cases n with
  | zero => cases hpages
  | succ n =>
      rw [pages_succ, next_inside hsize hborder ha hb] at hpages
      cases hcursor : cursor a with
      | none =>
          -- The page would be all.
          rw [hcursor] at hpages
          cases hpages
          have hlen := hperm.length_eq
          rw [hpage, length_take, length_drop] at hlen
          omega
      | some c =>
          rw [hcursor] at hpages
          obtain ⟨rest, hrest, rfl⟩ := map_eq_some_iff.mp hpages
          rw [hpage] at hperm hcollected
          have hperm' : rest.Perm ((l.filter accept).drop (i + size)) := by
            rw [← perm_append_left_iff (((l.filter accept).drop i).take size), ← drop_drop, take_append_drop]
            exact hperm
          have hrestSorted := (pairwise_append.mp hcollected).2.1
          have hhead := head?_pages hsize hrest
          have hbmem : (l.filter accept)[i + size] ∈ rest := by
            refine hperm'.symm.subset ?_
            rw [drop_eq_getElem_cons hi]
            exact mem_cons_self
          obtain ⟨x, hx⟩ : ∃ x, rest.head? = some x := isSome_iff_exists.mp (isSome_head?.mpr (ne_nil_of_mem hbmem))
          rw [hx, after_some hsrt, filter_comm] at hhead
          have hxmem := mem_of_head? hhead.symm
          have hxc : key x < c := by simpa using (mem_filter.mp hxmem).2
          -- The first element collected behind the cursor has a smaller key than the cursor and no smaller one than `b`.
          have hbc : key (l.filter accept)[i + size] < c := by
            refine lt_of_le_of_lt (le_of_mem_drop hrestSorted (i := 0) ?_ _ hbmem) hxc
            rw [← head?_eq_getElem?, hx]
          have hca : c ≤ key a := by
            by_contra hac
            have hamem : a ∈ (l.filter accept).take (i + size) := by
              have hget : ((l.filter accept).take (i + size))[i + size - 1]? = some a := by
                rw [getElem?_take_of_lt (by omega), ha]
              exact mem_of_getElem? hget
            have hfst : ((l.filter accept).take (i + size)).filter (fun a => key a < c) ≠ [] :=
              ne_nil_of_mem (mem_filter.mpr ⟨hamem, by simpa using hac⟩)
            rw [← take_append_drop (i + size) (l.filter accept), filter_append,
              head?_append_of_ne_nil _ hfst] at hhead
            have hxtake := (mem_filter.mp (mem_of_head? hhead.symm)).1
            exact disjoint_take_drop (hnd.filter accept) le_rfl hxtake (hperm'.subset (mem_of_head? hx))
          refine ⟨⟨c, rfl, hbc, hca⟩, ⟨n, some c, rest, ?_, hrest, hperm', hrestSorted⟩⟩
          exact atBorder_some hsrt (fun x hx => hca.trans (le_of_mem_take hsrt' ha x hx))
            fun x hx => lt_of_le_of_lt (le_of_mem_drop hsrt' hb x hx) hbc

include hsrt hnd hsize in
theorem Reached.last (h : Reached key accept cursor size l i) (hi : (l.filter accept).length = i + size)
    (ha : (l.filter accept).getLast? = some a) (hlast : l.getLast? ≠ some a) (hcursor : cursor a = some c) : c ≤ key a := by
  obtain ⟨n, anchor, collected, hborder, hpages, hperm, -⟩ := h.exists_pages
  have hpage := page_of_border size hborder
  cases n with
  | zero => cases hpages
  | succ n =>
      rw [pages_succ, (next_last cursor hnd hsize hborder hi ha).2 hlast, hcursor] at hpages
      obtain ⟨rest, hrest, rfl⟩ := map_eq_some_iff.mp hpages
      rw [hpage, take_of_length_le (by rw [length_drop]; omega)] at hperm
      have hnil : rest = [] := by
        have hlen := hperm.length_eq
        rw [length_append] at hlen
        exact length_eq_zero_iff.mp (by omega)
      have hhead := head?_pages hsize hrest
      rw [hnil, after_some hsrt, head?_nil, eq_comm, head?_eq_none_iff, filter_eq_nil_iff] at hhead
      have hamem := mem_filter.mp (mem_of_getLast? ha)
      by_contra hac
      exact hhead a (mem_filter.mpr ⟨hamem.1, by simpa using hac⟩) hamem.2

include hsrt hnd hsize in
theorem exists_pages_perm_iff :
    (∃ n collected, pages key accept cursor size l n none = some collected ∧ collected.Perm (l.filter accept) ∧
      collected.Pairwise fun a b => key b ≤ key a) ↔ Separates key accept cursor size l := by
  constructor
  · rintro ⟨n, collected, hpages, hperm, hcollected⟩
    have hst : Reached key accept cursor size l 0 := ⟨n, none, collected, rfl, hpages, hperm, hcollected⟩
    -- Every border in front of more accepted elements is reached.
    have hreached : ∀ k, k * size < (l.filter accept).length → Reached key accept cursor size l (k * size) := by
      intro k
      induction k with
      | zero =>
          intro _
          rw [Nat.zero_mul]
          exact hst
      | succ k ih =>
          intro hk
          rw [succ_mul] at hk ⊢
          exact ((ih (by omega)).inside hsrt hnd hsize (getElem?_eq_getElem (by omega))
            (getElem?_eq_getElem hk)).2
    refine ⟨fun k a b hk ha hb => ?_, fun k a hk hlen ha hlast c hcursor => ?_⟩
    · obtain ⟨k, rfl⟩ := exists_eq_succ_of_ne_zero hk.ne'
      obtain ⟨hlt, -⟩ := List.getElem?_eq_some_iff.mp hb
      rw [succ_mul] at ha hb hlt
      exact ((hreached k (by omega)).inside hsrt hnd hsize ha hb).1
    · obtain ⟨k, rfl⟩ := exists_eq_succ_of_ne_zero hk.ne'
      rw [succ_mul] at hlen
      exact (hreached k (by omega)).last hsrt hnd hsize hlen ha hlast hcursor
  · intro h
    obtain ⟨n, hn⟩ := exists_pages hsrt hnd hsize h 0 (atBorder_none _ _ _ _)
    rw [Nat.zero_mul, drop_zero] at hn
    exact ⟨n, _, hn, List.Perm.refl _, hsrt.filter accept⟩

end

end Paging

end CodexStudy.Lib
