import CodexStudy.Core.Rollout
import Mathlib.Data.List.GetD

/-!
# Rolling back the history
-/

namespace CodexStudy.Core

open CodexStudy.Lib List Nat ContextManager

variable {rd : ItemReaders}

/-! ## User turns -/

def userTurns (rd : ItemReaders) (items : List ResponseItem) : Nat :=
  items.countP (isUserTurnBoundary rd)

def leading (rd : ItemReaders) (items : List ResponseItem) : List ResponseItem :=
  items.takeWhile fun item => !isUserTurnBoundary rd item

theorem userTurns_append (xs ys : List ResponseItem) : userTurns rd (xs ++ ys) = userTurns rd xs + userTurns rd ys :=
  countP_append

theorem length_userMessagePositions (items : List ResponseItem) :
    (userMessagePositions rd items).length = userTurns rd items :=
  length_findIdxs

variable {items : List ResponseItem} {cut : Nat} {cm : ContextManager}

theorem leading_of_userTurns_eq_zero (h : userTurns rd items = 0) :
    leading rd items = items := by
  rw [userTurns, countP_eq_zero] at h
  rw [leading, takeWhile_eq_self_iff]
  intro item hitem
  simpa using h item hitem

theorem userTurns_leading (items : List ResponseItem) : userTurns rd (leading rd items) = 0 := by
  rw [userTurns, countP_eq_zero]
  intro item hitem
  have := mem_takeWhile_imp hitem
  simpa using this

theorem take_first_position {first : Nat} {rest : List Nat}
    (h : userMessagePositions rd items = first :: rest) : items.take first = leading rd items := by
  suffices ∀ s, items.findIdxs (isUserTurnBoundary rd) s = (first + s) :: rest →
      items.take first = leading rd items by exact this 0 h
  intro s h
  clear * - h
  induction items generalizing first s with
  | nil => simp at h
  | cons item items ih =>
      rw [findIdxs_cons] at h
      by_cases hitem : isUserTurnBoundary rd item
      · rw [if_pos hitem] at h
        have hfst : first = 0 := by
          have := (cons.inj h).1
          omega
        simp [hfst, leading, hitem]
      · rw [if_neg hitem] at h
        have hmem : first + s ∈ items.findIdxs (isUserTurnBoundary rd) (s + 1) := by simp [h]
        have hle := ge_of_mem_findIdxs _ hmem
        obtain ⟨first, rfl⟩ : ∃ f, first = f + 1 := ⟨first - 1, by omega⟩
        have hpositions : items.findIdxs (isUserTurnBoundary rd) (s + 1) = (first + (s + 1)) :: rest := by
          rw [h]
          congr 1
          omega
        have hih := ih (s + 1) hpositions
        simp only [take_succ_cons, leading]
        rw [takeWhile_cons_of_pos (by simpa using hitem), hih]
        rfl

theorem isPreTurnContext_eq_false {item : ResponseItem} (h : isUserTurnBoundary rd item = true) :
    isPreTurnContext rd item = false := by
  cases item with
  | message id role content phase =>
      simp only [isUserTurnBoundary, Bool.or_eq_true, Bool.and_eq_true, beq_iff_eq] at h
      rcases h with ⟨rfl, hc⟩ | ⟨rfl, -⟩
      · simp only [isPreTurnContext]
        rw [show ("user".toList == "developer".toList) = false by decide]
        simpa using hc
      · simp only [isPreTurnContext]
        rw [show ("assistant".toList == "developer".toList) = false by decide,
          show ("assistant".toList == "user".toList) = false by decide]
        simp
  | _ => simp [isUserTurnBoundary] at h

/-! ## The walk back from the cut -/

namespace ContextManager

/-- Where the walk back from the cut ends. -/
def trimmedCut (rd : ItemReaders) (snapshot : List ResponseItem) (first cut : Nat) : Nat :=
  (trimPreTurnContextUpdates rd {} snapshot first cut).2

theorem trimPreTurnContextUpdates_snd (cm : ContextManager) (snapshot : List ResponseItem) (first cut : Nat) :
    (trimPreTurnContextUpdates rd cm snapshot first cut).2 = trimmedCut rd snapshot first cut := by
  suffices ∀ cm cm' : ContextManager, (trimPreTurnContextUpdates rd cm snapshot first cut).2 =
      (trimPreTurnContextUpdates rd cm' snapshot first cut).2 from this cm {}
  induction cut with
  | zero => exact fun _ _ => rfl
  | succ cut ih =>
      intro cm cm'
      simp only [trimPreTurnContextUpdates]
      split
      · split
        · split
          · exact ih _ _
          · rfl
        · rfl
      · rfl

theorem trimmedCut_succ (snapshot : List ResponseItem) (first cut : Nat) :
    trimmedCut rd snapshot first (cut + 1) =
      if first < cut + 1 ∧ (snapshot[cut]?.any (isPreTurnContext rd)) = true then
        trimmedCut rd snapshot first cut else cut + 1 := by
  rw [trimmedCut, trimPreTurnContextUpdates]
  by_cases h : first < cut + 1
  · cases hs : snapshot[cut]? with
    | none => simp [h]
    | some item =>
        by_cases hitem : isPreTurnContext rd item
        · simp [h, hitem, trimPreTurnContextUpdates_snd]
        · simp [h, hitem]
  · simp [h]

@[simp] theorem trimmedCut_self (snapshot : List ResponseItem) (first : Nat) :
    trimmedCut rd snapshot first first = first := by
  cases first with
  | zero => rfl
  | succ n => rw [trimmedCut_succ]; simp

variable {first : Nat} {n : UInt32} {rest : List Nat}

theorem lt_trimmedCut {snapshot : List ResponseItem} (hcut : first < cut)
    (hfst : ∀ item ∈ snapshot[first]?, isUserTurnBoundary rd item = true) :
    first < trimmedCut rd snapshot first cut := by
  induction cut with
  | zero => omega
  | succ cut ih =>
      rw [trimmedCut_succ]
      split
      · rename_i hwalk
        rcases Nat.lt_succ_iff_lt_or_eq.mp hcut with h | rfl
        · exact ih h
        · have hctx := hwalk.2
          cases hs : snapshot[first]? with
          | none => simp [hs] at hctx
          | some item => simp [hs, isPreTurnContext_eq_false (hfst item (by simp [hs]))] at hctx
      · exact hcut

theorem trimmedCut_append (xs ys : List ResponseItem) {first' : Nat} (hcut : first < cut)
    (hfst : ∀ item ∈ ys[first]?, isUserTurnBoundary rd item = true) (hle : first' ≤ xs.length + first) :
    trimmedCut rd (xs ++ ys) first' (xs.length + cut) = xs.length + trimmedCut rd ys first cut := by
  induction cut with
  | zero => omega
  | succ cut ih =>
      rw [← add_assoc, trimmedCut_succ, trimmedCut_succ, getElem?_append_right (by omega),
        Nat.add_sub_cancel_left]
      rcases Nat.lt_succ_iff_lt_or_eq.mp hcut with h | rfl
      · rw [ih h]
        by_cases hctx : ys[cut]?.any (isPreTurnContext rd) = true
        · rw [if_pos ⟨by omega, hctx⟩, if_pos ⟨by omega, hctx⟩]
        · rw [if_neg (fun h => hctx h.2), if_neg (fun h => hctx h.2), add_assoc]
      · have hctx : ¬ ys[first]?.any (isPreTurnContext rd) = true := by
          cases hs : ys[first]? with
          | none => simp
          | some item =>
              have := isPreTurnContext_eq_false (hfst item (by simp [hs]))
              simp [this]
        rw [if_neg (fun h => hctx h.2), if_neg (fun h => hctx h.2), add_assoc]

/-! ## What a rollback leaves -/

@[simp] theorem dropLastNUserTurns_zero (cm : ContextManager) : cm.dropLastNUserTurns rd 0 = cm := rfl

theorem dropLastNUserTurns_items (hn : n ≠ 0) (h : userMessagePositions rd cm.items = first :: rest) :
    (cm.dropLastNUserTurns rd n).items =
      cm.items.take (trimmedCut rd cm.items first
        (if userTurns rd cm.items ≤ n.toNat then first
          else (first :: rest).getD (userTurns rd cm.items - n.toNat) 0)) := by
  have hlen : (first :: rest).length = userTurns rd cm.items := by
    rw [← h, length_userMessagePositions]
  simp only [dropLastNUserTurns, hn, ↓reduceIte, h, replace, hlen, ge_iff_le, trimPreTurnContextUpdates_snd]

theorem dropLastNUserTurns_items_congr {cm' : ContextManager} (h : cm.items = cm'.items) (n : UInt32) :
    (cm.dropLastNUserTurns rd n).items = (cm'.dropLastNUserTurns rd n).items := by
  by_cases hn : n = 0
  · subst hn
    exact h
  · cases hp : userMessagePositions rd cm.items with
    | nil => simp [dropLastNUserTurns, hn, h ▸ hp, replace, h]
    | cons first rest => rw [dropLastNUserTurns_items hn hp, dropLastNUserTurns_items hn (h ▸ hp), h]

theorem dropLastNUserTurns_all (cm : ContextManager) (h : userTurns rd cm.items ≤ n.toNat) :
    (cm.dropLastNUserTurns rd n).items = leading rd cm.items := by
  cases hp : userMessagePositions rd cm.items with
  | nil =>
      have h0 : userTurns rd cm.items = 0 := by rw [← length_userMessagePositions, hp]; rfl
      rw [leading_of_userTurns_eq_zero h0]
      simp [dropLastNUserTurns, hp, replace]
  | cons first rest =>
      have hpos : 0 < userTurns rd cm.items := by rw [← length_userMessagePositions, hp]; simp
      have hn : n ≠ 0 := by
        rintro rfl
        exact absurd h (by simpa using Nat.pos_iff_ne_zero.mp hpos)
      rw [dropLastNUserTurns_items hn hp, if_pos h, trimmedCut_self, take_first_position hp]

theorem mem_first_position (h : userMessagePositions rd items = first :: rest) :
    ∀ item ∈ items[first]?, isUserTurnBoundary rd item = true := by
  intro item hitem
  have hmem : first ∈ userMessagePositions rd items := by simp [h]
  obtain ⟨hlt, hb⟩ := mem_findIdxs_iff_exists_getElem_pos.mp hmem
  rw [getElem?_eq_getElem hlt, Option.mem_some_iff] at hitem
  exact hitem ▸ hb

theorem first_lt_getD (h : userMessagePositions rd items = first :: rest) {k : Nat}
    (hk : 0 < k) (hlt : k < userTurns rd items) : first < (first :: rest).getD k 0 := by
  have hpair : (first :: rest).Pairwise (· < ·) := h ▸ pairwise_findIdxs
  have hlen : k < (first :: rest).length := by rwa [← h, length_userMessagePositions]
  rw [getD_eq_getElem _ _ hlen]
  exact pairwise_iff_getElem.mp hpair 0 k (by simp) hlen hk

theorem userTurns_dropLastNUserTurns_pos (cm : ContextManager) (h : n.toNat < userTurns rd cm.items) :
    0 < userTurns rd (cm.dropLastNUserTurns rd n).items := by
  by_cases hn : n = 0
  · subst hn
    exact zero_lt_of_lt h
  · cases hp : userMessagePositions rd cm.items with
    | nil =>
        rw [← length_userMessagePositions, hp] at h
        exact absurd h (by simp)
    | cons first rest =>
        have hn0 : 0 < n.toNat := Nat.pos_of_ne_zero fun h0 => hn (UInt32.toNat_inj.mp h0)
        rw [dropLastNUserTurns_items hn hp, if_neg (by omega)]
        have hcut := first_lt_getD hp (k := userTurns rd cm.items - n.toNat) (by omega) (by omega)
        have htrim := lt_trimmedCut hcut (mem_first_position hp)
        have hmem : first ∈ userMessagePositions rd cm.items := by simp [hp]
        obtain ⟨hlt, hb⟩ := mem_findIdxs_iff_exists_getElem_pos.mp hmem
        refine countP_pos_iff.mpr ⟨cm.items[first], ?_, hb⟩
        rw [mem_take_iff_getElem]
        exact ⟨first, by omega, rfl⟩

/-- A rollback of fewer turns than the newest items hold only touches these. -/
theorem dropLastNUserTurns_append {xs ys : List ResponseItem} (h : n.toNat < userTurns rd ys)
    (ref ref' : Option TurnContextItem) :
    (dropLastNUserTurns rd ⟨xs ++ ys, ref⟩ n).items = xs ++ (dropLastNUserTurns rd ⟨ys, ref'⟩ n).items := by
  by_cases hn : n = 0
  · subst hn
    rfl
  · cases hp : userMessagePositions rd ys with
    | nil =>
        rw [← length_userMessagePositions, hp] at h
        exact absurd h (by simp)
    | cons first rest =>
        have hn0 : 0 < n.toNat := Nat.pos_of_ne_zero fun h0 => hn (UInt32.toNat_inj.mp h0)
        have happ : userMessagePositions rd (xs ++ ys) =
            userMessagePositions rd xs ++ (first :: rest).map (· + xs.length) := by
          rw [userMessagePositions, findIdxs_append, findIdxs_start (s := 0 + xs.length), ← hp,
            zero_add]
          rfl
        obtain ⟨first', rest', hp'⟩ : ∃ f r, userMessagePositions rd (xs ++ ys) = f :: r := by
          rw [happ]
          cases userMessagePositions rd xs with
          | nil => exact ⟨_, _, rfl⟩
          | cons f r => exact ⟨_, _, rfl⟩
        have hle : first' ≤ xs.length + first := by
          have hpair : (first' :: rest').Pairwise (· < ·) := hp' ▸ pairwise_findIdxs
          have hmem : first + xs.length ∈ first' :: rest' := by rw [← hp', happ]; simp
          rcases mem_cons.mp hmem with heq | hmem
          · omega
          · have := rel_of_pairwise_cons hpair hmem
            omega
        have hget : (first' :: rest').getD (userTurns rd (xs ++ ys) - n.toNat) 0 =
            xs.length + (first :: rest).getD (userTurns rd ys - n.toNat) 0 := by
          have hlen : userTurns rd ys = (first :: rest).length := by rw [← hp, length_userMessagePositions]
          rw [← hp', happ, getD_append_right _ _ _ _ (by
            rw [length_userMessagePositions, userTurns_append]; omega),
            length_userMessagePositions, userTurns_append,
            show userTurns rd xs + userTurns rd ys - n.toNat - userTurns rd xs =
              userTurns rd ys - n.toNat by omega,
            getD_eq_getElem _ _ (by rw [length_map]; omega), getElem_map,
            getD_eq_getElem _ _ (by omega), add_comm]
        rw [dropLastNUserTurns_items hn hp', dropLastNUserTurns_items hn hp,
          if_neg (by simp only [userTurns_append]; omega), if_neg (not_le.mpr h), hget,
          trimmedCut_append xs ys (first_lt_getD hp (by omega) (by omega)) (mem_first_position hp) hle,
          take_length_add_append]

/-! ## The turn boundaries that a rollback leaves -/

theorem filter_take_findIdxNth {α : Type} (p : α → Bool) (xs : List α) (k : Nat) :
    (xs.take (xs.findIdxNth p k)).filter p = (xs.filter p).take k := by
  induction xs generalizing k with
  | nil => simp
  | cons x xs ih =>
      by_cases hx : p x
      · cases k with
        | zero => simp [findIdxNth_cons_zero, hx]
        | succ k =>
            rw [findIdxNth_cons_succ, if_pos hx, take_succ_cons, filter_cons_of_pos hx,
              filter_cons_of_pos hx, take_succ_cons, ih]
      · rw [findIdxNth_cons_of_neg (by simpa using hx), take_succ_cons, filter_cons_of_neg hx,
          filter_cons_of_neg hx, ih]

theorem filter_take_trimmedCut (items : List ResponseItem) (first cut : Nat) :
    (items.take (trimmedCut rd items first cut)).filter (isUserTurnBoundary rd) =
      (items.take cut).filter (isUserTurnBoundary rd) := by
  induction cut with
  | zero => rfl
  | succ cut ih =>
      rw [trimmedCut_succ]
      split
      next hwalk =>
        have hctx := hwalk.2
        cases hitem : items[cut]? with
        | none =>
            rw [hitem] at hctx
            cases hctx
        | some item =>
            rw [hitem, Option.any_some] at hctx
            have hboundary : ¬isUserTurnBoundary rd item = true := fun h => by
              rw [isPreTurnContext_eq_false h] at hctx
              cases hctx
            rw [ih, take_add_one, hitem, filter_append, Option.toList_some,
              filter_cons_of_neg hboundary, filter_nil, append_nil]
      next => rfl

theorem filter_dropLastNUserTurns (cm : ContextManager) (n : UInt32) :
    (cm.dropLastNUserTurns rd n).items.filter (isUserTurnBoundary rd) =
      (cm.items.filter (isUserTurnBoundary rd)).rdrop n.toNat := by
  by_cases hle : userTurns rd cm.items ≤ n.toNat
  · have hnone : (leading rd cm.items).filter (isUserTurnBoundary rd) = [] :=
      length_eq_zero_iff.mp (countP_eq_length_filter.symm.trans (userTurns_leading cm.items))
    rw [userTurns, countP_eq_length_filter] at hle
    rw [dropLastNUserTurns_all cm (by rwa [userTurns, countP_eq_length_filter]), hnone, rdrop,
      Nat.sub_eq_zero_of_le hle, take_zero]
  · by_cases hn : n = 0
    · rw [hn, dropLastNUserTurns_zero, UInt32.toNat_zero, rdrop_zero]
    · cases hp : userMessagePositions rd cm.items with
      | nil =>
          rw [← length_userMessagePositions, hp] at hle
          exact absurd (zero_le _) hle
      | cons first rest =>
          have hcut : (first :: rest).getD (userTurns rd cm.items - n.toNat) 0 =
              cm.items.findIdxNth (isUserTurnBoundary rd) (userTurns rd cm.items - n.toNat) := by
            have hn0 : 0 < n.toNat := Nat.pos_of_ne_zero fun h0 => hn (UInt32.toNat_inj.mp h0)
            have hlt : userTurns rd cm.items - n.toNat < (userMessagePositions rd cm.items).length := by
              rw [length_userMessagePositions]
              omega
            rw [← hp, getD_eq_getElem _ _ hlt]
            exact getElem_findIdxs_eq_findIdxNth
          rw [dropLastNUserTurns_items hn hp, if_neg hle, filter_take_trimmedCut, hcut, filter_take_findIdxNth,
            rdrop, userTurns, countP_eq_length_filter]

end ContextManager

end CodexStudy.Core
