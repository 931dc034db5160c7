import CodexStudy.Core.RolloutTruncation
import CodexStudy.Lib.Lists

/-!
# Forks and rollbacks

A forked sub-agent sees what the filter leaves of the history of its parent exactly when each rollback of the parent
leaves the turns alone that the filter tells apart.
-/

namespace CodexStudy.Core

open CodexStudy.Lib ContextManager List Nat

variable {rd : ItemReaders}

/-! ## Items -/

section

variable {item : ResponseItem}

theorem keepForked_of_isShown (h : isShown item = true) : keepForked item = true := by
  cases item with
  | message id role content phase =>
      simp only [isShown, Bool.or_eq_true, Bool.and_eq_true, beq_iff_eq] at h
      rcases h with rfl | ⟨rfl, rfl⟩
      · simp [keepForked, keepForkedRolloutItem]
      · simp [keepForked, keepForkedRolloutItem]
  | _ => cases h

theorem isShown_of_isKeptBoundary (hops : isUserTurnBoundary rd item = true) (hkept : keepForked item = true) :
    isShown item = true := by
  cases item with
  | message id role content phase =>
      simp only [isUserTurnBoundary, Bool.or_eq_true, Bool.and_eq_true, beq_iff_eq] at hops
      rcases hops with ⟨rfl, -⟩ | ⟨rfl, -⟩
      · simp [isShown]
      · have hph : phase = some .finalAnswer := by simpa [keepForked, keepForkedRolloutItem] using hkept
        simp [isShown, hph]
  | _ => cases hops

theorem keepForked_processItem : keepForked (processItem rd item) = keepForked item := by
  cases item <;> rfl

theorem processItem_of_keepForked (h : keepForked item = true) : processItem rd item = item := by
  cases item with
  | message id role content phase => rfl
  | _ => cases h

end

/-! ## Where a rollback cuts -/

section

variable {xs ys : List ResponseItem}

def turnsFrom (rd : ItemReaders) (items : List ResponseItem) : List ResponseItem :=
  items.dropWhile fun item => !isUserTurnBoundary rd item

theorem leading_append_turnsFrom (items : List ResponseItem) : leading rd items ++ turnsFrom rd items = items :=
  takeWhile_append_dropWhile

theorem userTurns_turnsFrom (items : List ResponseItem) : userTurns rd (turnsFrom rd items) = userTurns rd items := by
  conv_rhs => rw [← @leading_append_turnsFrom rd items]
  rw [userTurns_append, userTurns_leading, zero_add]

theorem append_of_userTurns_eq_zero (h : userTurns rd xs = 0) (ys : List ResponseItem) :
    leading rd (xs ++ ys) = xs ++ leading rd ys ∧ turnsFrom rd (xs ++ ys) = turnsFrom rd ys := by
  have hnone : ∀ item ∈ xs, (!isUserTurnBoundary rd item) = true := by
    rw [userTurns, countP_eq_zero] at h
    intro item hitem
    simpa using h item hitem
  exact ⟨takeWhile_append_of_pos hnone, dropWhile_append_of_pos hnone⟩

theorem append_of_userTurns_ne_zero (h : userTurns rd xs ≠ 0) (ys : List ResponseItem) :
    leading rd (xs ++ ys) = leading rd xs ∧ turnsFrom rd (xs ++ ys) = turnsFrom rd xs ++ ys := by
  induction xs with
  | nil => exact absurd rfl h
  | cons item xs ih =>
      by_cases hitem : isUserTurnBoundary rd item
      · simp [leading, turnsFrom, hitem]
      · have hxs : userTurns rd xs ≠ 0 := by rwa [userTurns, countP_cons_of_neg hitem] at h
        simpa [leading, turnsFrom, hitem] using ih hxs

theorem exists_turn (h : userTurns rd xs ≠ 0) : ∃ item ∈ turnsFrom rd xs, isPreTurnContext rd item = false := by
  obtain ⟨item, hitem, hops⟩ := countP_pos_iff.mp (pos_of_ne_zero (userTurns_turnsFrom xs ▸ h))
  exact ⟨item, hitem, isPreTurnContext_eq_false hops⟩

theorem rdropWhile_eq_leading_append (h : userTurns rd xs ≠ 0) : xs.rdropWhile (isPreTurnContext rd) =
      leading rd xs ++ (turnsFrom rd xs).rdropWhile (isPreTurnContext rd) := by
  obtain ⟨item, hitem, hctx⟩ := exists_turn h
  conv_lhs => rw [← @leading_append_turnsFrom rd xs]
  exact rdropWhile_append_of_mem hitem hctx

theorem userTurns_eq_zero_of_context {items : List ResponseItem}
    (h : ∀ item ∈ items, isPreTurnContext rd item = true) : userTurns rd items = 0 := by
  refine countP_eq_zero.mpr fun item hitem hops => ?_
  have hctx := h item hitem
  rw [isPreTurnContext_eq_false hops] at hctx
  cases hctx

theorem userTurns_rdropWhile (items : List ResponseItem) :
    userTurns rd (items.rdropWhile (isPreTurnContext rd)) = userTurns rd items := by
  have hnone : userTurns rd (items.rtakeWhile (isPreTurnContext rd)) = 0 :=
    userTurns_eq_zero_of_context fun _ => mem_rtakeWhile_imp
  conv_rhs => rw [← rdropWhile_append_rtakeWhile (p := isPreTurnContext rd) (l := items)]
  rw [userTurns_append, hnone, add_zero]

theorem rdropWhile_behind_first (h : userTurns rd xs ≠ 0) :
    leading rd (xs.rdropWhile (isPreTurnContext rd)) = leading rd xs ∧
      turnsFrom rd (xs.rdropWhile (isPreTurnContext rd)) = (turnsFrom rd xs).rdropWhile (isPreTurnContext rd) := by
  have hdropped : userTurns rd (xs.rdropWhile (isPreTurnContext rd)) ≠ 0 := by rwa [userTurns_rdropWhile]
  have hlead := (append_of_userTurns_ne_zero hdropped (xs.rtakeWhile (isPreTurnContext rd))).1
  rw [rdropWhile_append_rtakeWhile] at hlead
  refine ⟨hlead.symm, ?_⟩
  have hspl := rdropWhile_eq_leading_append h
  conv_lhs at hspl => rw [← @leading_append_turnsFrom rd (xs.rdropWhile _), ← hlead]
  exact append_cancel_left hspl

theorem take_trimmedCut {items : List ResponseItem} {first cut : Nat} (hcut : first < cut) (hle : cut ≤ items.length)
    (hfst : ∀ item ∈ items[first]?, isUserTurnBoundary rd item = true) :
    items.take (trimmedCut rd items first cut) = (items.take cut).rdropWhile (isPreTurnContext rd) := by
  induction cut with
  | zero => omega
  | succ cut ih =>
      have hlt : cut < items.length := hle
      rw [trimmedCut_succ, take_add_one, getElem?_eq_getElem hlt, Option.toList_some,
        rdropWhile_concat, Option.any_some]
      by_cases hctx : isPreTurnContext rd items[cut] = true
      · have hne : first ≠ cut := by
          rintro rfl
          have hops := hfst items[first] (by rw [getElem?_eq_getElem hlt]; rfl)
          rw [isPreTurnContext_eq_false hops] at hctx
          cases hctx
        rw [if_pos ⟨hcut, hctx⟩, if_pos hctx, ih (by omega) hlt.le]
      · rw [if_neg (fun h => hctx h.2), if_neg hctx, take_add_one, getElem?_eq_getElem hlt,
          Option.toList_some]

end

section

variable {cm : ContextManager} {n : UInt32} {before after : List ResponseItem} {turn : ResponseItem}

theorem CutsAt.pos {history : List ResponseItem} (h : CutsAt rd history n before turn after) :
    0 < n.toNat ∧ 0 < userTurns rd (turn :: after) := by
  have hpos : 0 < userTurns rd (turn :: after) := by
    rw [userTurns, countP_cons_of_pos h.opens]
    exact succ_pos _
  have hcnt := h.count
  omega

theorem exists_cutsAt {history : List ResponseItem} (hn : n ≠ 0) (htns : userTurns rd history ≠ 0) :
    ∃ before turn after, CutsAt rd history n before turn after := by
  have hn0 : 0 < n.toNat := pos_of_ne_zero fun h0 => hn (UInt32.toNat_inj.mp h0)
  obtain ⟨before, turn, after, hspl, hops, hcnt⟩ := exists_split_countP (p := isUserTurnBoundary rd)
    (l := history) (k := min n.toNat (userTurns rd history)) (by omega) (by rw [← userTurns]; omega)
  exact ⟨before, turn, after, hspl, hops, hcnt⟩

theorem CutsAt.items (h : CutsAt rd cm.items n before turn after) :
    (cm.dropLastNUserTurns rd n).items =
      if userTurns rd before = 0 then before else before.rdropWhile (isPreTurnContext rd) := by
  obtain ⟨hn, hpos⟩ := h.pos
  have hcnt := h.count
  have htot : userTurns rd cm.items = userTurns rd before + userTurns rd (turn :: after) := by
    rw [h.split, userTurns_append]
  split
  next hnone =>
    have hops : leading rd (turn :: after) = [] := takeWhile_cons_of_neg (by simp [h.opens])
    rw [dropLastNUserTurns_all cm (by omega), h.split, (append_of_userTurns_eq_zero hnone _).1, hops, append_nil]
  next hsome =>
    have hn0 : n ≠ 0 := by
      rintro rfl
      exact absurd hn (by decide)
    cases hp : userMessagePositions rd cm.items with
    | nil =>
        rw [← length_userMessagePositions, hp] at htot
        exact absurd htot (by simp only [length_nil]; omega)
    | cons first rest =>
        have hget : (first :: rest).getD (userTurns rd cm.items - n.toNat) 0 = before.length := by
          have happ : userMessagePositions rd cm.items = userMessagePositions rd before ++
              (turn :: after).findIdxs (isUserTurnBoundary rd) (0 + before.length) := by
            rw [h.split, userMessagePositions, findIdxs_append]
            rfl
          rw [← hp, happ, getD_append_right _ _ _ _ (by rw [length_userMessagePositions]; omega),
            length_userMessagePositions, show userTurns rd cm.items - n.toNat - userTurns rd before = 0 by omega,
            findIdxs_cons, if_pos h.opens, getD_cons_zero, zero_add]
        have hlt := first_lt_getD hp (k := userTurns rd cm.items - n.toNat) (by omega) (by omega)
        have hle : before.length ≤ cm.items.length := by
          rw [h.split, length_append]
          exact le_add_right _ _
        rw [dropLastNUserTurns_items hn0 hp, if_neg (by omega), hget,
          take_trimmedCut (hget ▸ hlt) hle (mem_first_position hp), h.split, take_left]

theorem CutsAt.prefix_items (h : CutsAt rd cm.items n before turn after) :
    (cm.dropLastNUserTurns rd n).items <+: before := by
  rw [h.items]
  split
  next => exact prefix_rfl
  next => exact rdropWhile_prefix _ _

theorem items_of_no_cut (h : n = 0 ∨ userTurns rd cm.items = 0) : (cm.dropLastNUserTurns rd n).items = cm.items := by
  rcases h with rfl | h
  · rfl
  · rw [dropLastNUserTurns_all cm (by rw [h]; exact zero_le _), leading_of_userTurns_eq_zero h]

end

/-! ## A forked history beside the history of its parent -/

/-- What a walk over the context stops at, and what a sub-agent sees. -/
def isLasting (rd : ItemReaders) (item : ResponseItem) : Bool :=
  keepForked item && (isShown item || !isPreTurnContext rd item)

theorem isLasting_of_isShown {item : ResponseItem} (h : isShown item = true) : isLasting rd item = true := by
  simp [isLasting, h, keepForked_of_isShown h]

theorem isPreTurnContext_of_isLasting_eq_false {item : ResponseItem} (hkept : keepForked item = true)
    (h : isLasting rd item = false) : isPreTurnContext rd item = true := by
  rw [isLasting, hkept, Bool.true_and, Bool.or_eq_false_iff, Bool.not_eq_false'] at h
  exact h.2

theorem filter_isLasting_rdropWhile {items : List ResponseItem} (h : ∀ item ∈ items, keepForked item = true) :
    (items.rdropWhile (isPreTurnContext rd)).filter (isLasting rd) =
      (items.filter (isLasting rd)).rdropWhile (isPreTurnContext rd) :=
  filter_rdropWhile fun item hitem => isPreTurnContext_of_isLasting_eq_false (h item hitem)

theorem filter_isShown_keepForked (items : List ResponseItem) :
    (items.filter keepForked).filter isShown = items.filter isShown := by
  rw [filter_filter]
  refine filter_congr fun item _ => ?_
  by_cases h : isShown item
  · rw [h, keepForked_of_isShown h, Bool.and_self]
  · simp [h]

theorem filter_isShown_isLasting (items : List ResponseItem) :
    (items.filter (isLasting rd)).filter isShown = items.filter isShown := by
  rw [filter_filter]
  refine filter_congr fun item _ => ?_
  by_cases h : isShown item
  · rw [h, isLasting_of_isShown h, Bool.and_self]
  · simp [h]

/-- The forked history and what the filter leaves of the parent's: in front of the first turn the same messages are
seen, and from it on they differ only in context that is not seen. -/
structure ForkKeeps (rd : ItemReaders) (filtered forked : List ResponseItem) : Prop where
  kept : ∀ item ∈ forked, keepForked item = true
  front : (leading rd forked).filter isShown = (leading rd filtered).filter isShown
  turns : (turnsFrom rd forked).filter (isLasting rd) = (turnsFrom rd filtered).filter (isLasting rd)

section

variable {filtered forked : List ResponseItem}

theorem filter_isShown_eq (items : List ResponseItem) : items.filter isShown =
      (leading rd items).filter isShown ++ ((turnsFrom rd items).filter (isLasting rd)).filter isShown := by
  rw [filter_isShown_isLasting, ← filter_append, leading_append_turnsFrom]

theorem ForkKeeps.shown (h : ForkKeeps rd filtered forked) : forked.filter isShown = filtered.filter isShown := by
  rw [@filter_isShown_eq rd forked, h.front, h.turns, ← filter_isShown_eq]

theorem userTurns_eq_filter {items : List ResponseItem} (h : ∀ item ∈ items, keepForked item = true) :
    userTurns rd items = userTurns rd (items.filter isShown) := by
  rw [userTurns, userTurns, countP_filter]
  refine countP_congr fun item hitem => ?_
  by_cases hops : isUserTurnBoundary rd item
  · simp [hops, isShown_of_isKeptBoundary hops (h item hitem)]
  · simp [hops]

theorem userTurns_congr {items items' : List ResponseItem} (hits : ∀ item ∈ items, keepForked item = true)
    (hits' : ∀ item ∈ items', keepForked item = true) (h : items.filter (isLasting rd) = items'.filter (isLasting rd)) :
    userTurns rd items = userTurns rd items' := by
  rw [userTurns_eq_filter hits, userTurns_eq_filter hits', ← @filter_isShown_isLasting rd, h,
    filter_isShown_isLasting]

theorem ForkKeeps.userTurns_eq (h : ForkKeeps rd filtered forked) (hfil : ∀ item ∈ filtered, keepForked item = true) :
    userTurns rd forked = userTurns rd filtered := by
  rw [userTurns_eq_filter h.kept, h.shown, ← userTurns_eq_filter hfil]

theorem ForkKeeps.record {item : ResponseItem} (h : ForkKeeps rd filtered forked)
    (hfil : ∀ item ∈ filtered, keepForked item = true) (hitem : keepForked item = true) :
    ForkKeeps rd (filtered ++ [item]) (forked ++ [item]) := by
  have hkept : ∀ x ∈ forked ++ [item], keepForked x = true := by
    intro x hx
    rcases mem_append.mp hx with hx | hx
    · exact h.kept x hx
    · exact mem_singleton.mp hx ▸ hitem
  have htns := h.userTurns_eq hfil
  by_cases hnone : userTurns rd filtered = 0
  · obtain ⟨hlead, hfrom⟩ := append_of_userTurns_eq_zero (htns.trans hnone) [item]
    obtain ⟨hlead', hfrom'⟩ := append_of_userTurns_eq_zero hnone [item]
    refine ⟨hkept, ?_, by rw [hfrom, hfrom']⟩
    have hshn := h.shown
    rw [hlead, hlead', filter_append, filter_append, hshn]
  · obtain ⟨hlead, hfrom⟩ := append_of_userTurns_ne_zero (htns.trans_ne hnone) [item]
    obtain ⟨hlead', hfrom'⟩ := append_of_userTurns_ne_zero hnone [item]
    refine ⟨hkept, by rw [hlead, hlead', h.front], ?_⟩
    rw [hfrom, hfrom', filter_append, filter_append, h.turns]

end

/-! ## A rollback behind a kept turn -/

section

variable {parent fork : ContextManager} {n : UInt32} {before after : List ResponseItem} {turn : ResponseItem}

theorem all_keepForked_filter (items : List ResponseItem) : ∀ item ∈ items.filter keepForked, keepForked item = true :=
  fun _ hitem => (mem_filter.mp hitem).2

theorem userTurns_filter_ne_zero (h : before.any (isKeptBoundary rd) = true) :
    userTurns rd (before.filter keepForked) ≠ 0 := by
  obtain ⟨item, hitem, hkept⟩ := any_eq_true.mp h
  rw [isKeptBoundary, Bool.and_eq_true] at hkept
  exact (countP_pos_iff.mpr ⟨item, mem_filter.mpr ⟨hitem, hkept.2⟩, hkept.1⟩).ne'

theorem userTurns_filter_eq_zero (h : ¬ before.any (isKeptBoundary rd) = true) :
    userTurns rd (before.filter keepForked) = 0 := by
  refine countP_eq_zero.mpr fun item hitem hops => h (any_eq_true.mpr ?_)
  obtain ⟨hmem, hkept⟩ := mem_filter.mp hitem
  exact ⟨item, hmem, by rw [isKeptBoundary, hops, hkept, Bool.and_self]⟩

theorem userTurns_filter_eq_iff (items : List ResponseItem) :
    userTurns rd (items.filter keepForked) = userTurns rd items ↔
      ∀ item ∈ items, isUserTurnBoundary rd item = true → keepForked item = true := by
  induction items with
  | nil => simp
  | cons item items ih =>
      have hle : userTurns rd (items.filter keepForked) ≤ userTurns rd items :=
        (filter_sublist).countP_le
      simp only [forall_mem_cons, ← ih]
      by_cases hkept : keepForked item
      · by_cases hops : isUserTurnBoundary rd item
        · simp [userTurns, hkept, hops]
        · simp [userTurns, hkept, hops]
      · by_cases hops : isUserTurnBoundary rd item
        · simp only [userTurns, filter_cons_of_neg hkept, countP_cons_of_pos hops] at hle ⊢
          constructor
          · intro heq
            omega
          · rintro ⟨hall, -⟩
            exact absurd (hall hops) hkept
        · simp [userTurns, hkept, hops]

variable (h : ForkKeeps rd (parent.items.filter keepForked) fork.items)
  (hcut : CutsAt rd parent.items n before turn after) (hbeh : before.any (isKeptBoundary rd) = true)

include h hcut hbeh in
theorem dropLastNUserTurns_keptTurns
    (htns : ∀ item ∈ turn :: after, isUserTurnBoundary rd item = true → keepForked item = true) :
    leading rd (fork.dropLastNUserTurns rd n).items = leading rd fork.items ∧
      (turnsFrom rd (fork.dropLastNUserTurns rd n).items).filter (isLasting rd) =
        ((turnsFrom rd (before.filter keepForked)).rdropWhile (isPreTurnContext rd)).filter (isLasting rd) := by
  have hops := hcut.opens
  have hlasting : isLasting rd turn = true :=
    isLasting_of_isShown (isShown_of_isKeptBoundary hops (htns turn mem_cons_self hops))
  have hbef := userTurns_filter_ne_zero hbeh
  have hfil : parent.items.filter keepForked = before.filter keepForked ++ turn :: after.filter keepForked := by
    rw [hcut.split, filter_append, filter_cons_of_pos (htns turn mem_cons_self hops)]
  obtain ⟨-, hfrom⟩ := append_of_userTurns_ne_zero hbef (turn :: after.filter keepForked)
  -- The fork has the same turn, and the same messages around it.
  have hmt := h.turns
  rw [hfil, hfrom, filter_append, filter_cons_of_pos hlasting, filter_eq_append_iff] at hmt
  obtain ⟨xs, ys, hspl, hxs, hys⟩ := hmt
  obtain ⟨zs, rest, rfl, hzs, -, hrest⟩ := filter_eq_cons_iff.mp hys
  have hfork : fork.items = (leading rd fork.items ++ (xs ++ zs)) ++ turn :: rest := by
    conv_lhs => rw [← @leading_append_turnsFrom rd fork.items, hspl]
    simp only [append_assoc]
  have hkept : ∀ item ∈ turn :: rest, keepForked item = true := fun item hitem =>
    h.kept item (by rw [hfork]; exact mem_append_right _ hitem)
  have hdropped : userTurns rd (turn :: rest) = userTurns rd (turn :: after) := by
    rw [← (userTurns_filter_eq_iff _).mpr htns]
    refine userTurns_congr hkept (all_keepForked_filter _) ?_
    rw [filter_cons_of_pos (htns turn mem_cons_self hops), filter_cons_of_pos hlasting,
      filter_cons_of_pos hlasting, hrest]
  have hcutFork : CutsAt rd fork.items n (leading rd fork.items ++ (xs ++ zs)) turn rest := by
    refine ⟨hfork, hops, ?_⟩
    have htot := hcut.count
    have hsome : userTurns rd before ≠ 0 := fun hnone =>
      hbef (le_zero.mp (hnone ▸ filter_sublist.countP_le))
    rw [hcut.split, userTurns_append] at htot
    have hle : userTurns rd (turn :: rest) ≤ userTurns rd fork.items := by
      rw [hfork, userTurns_append]
      exact le_add_left _ _
    omega
  have hfro : userTurns rd (leading rd fork.items ++ (xs ++ zs)) ≠ 0 := by
    have htot := h.userTurns_eq (all_keepForked_filter _)
    rw [hfil, userTurns_append, hfork, userTurns_append] at htot
    have hbehindTurns := (userTurns_filter_eq_iff _).mpr htns
    rw [filter_cons_of_pos (htns turn mem_cons_self hops)] at hbehindTurns
    omega
  obtain ⟨hleadFork, hfromFork⟩ := append_of_userTurns_ne_zero hfro (turn :: rest)
  rw [← hfork] at hleadFork hfromFork
  have hfrontTurns : turnsFrom rd (leading rd fork.items ++ (xs ++ zs)) = xs ++ zs :=
    append_cancel_right (hfromFork.symm.trans (hspl.trans (append_assoc _ _ _).symm))
  obtain ⟨hlead, hturnsFrom⟩ := rdropWhile_behind_first hfro
  rw [hcutFork.items, if_neg hfro, hlead, hturnsFrom, ← hleadFork, hfrontTurns]
  refine ⟨rfl, ?_⟩
  have hnone : zs.filter (isLasting rd) = [] := filter_eq_nil_iff.mpr hzs
  have hkeptFront : ∀ item ∈ xs ++ zs, keepForked item = true := fun item hitem =>
    h.kept item (by rw [hfork]; exact mem_append_left _ (mem_append_right _ hitem))
  have hkeptBefore : ∀ item ∈ turnsFrom rd (before.filter keepForked), keepForked item = true := fun item hitem =>
    all_keepForked_filter before item ((dropWhile_suffix _).mem hitem)
  rw [filter_isLasting_rdropWhile hkeptFront, filter_isLasting_rdropWhile hkeptBefore, filter_append, hnone,
    append_nil, hxs]

/-- The filter does not change where the history of the parent has its first turn after a rollback. -/
theorem filter_rdropWhile_behind (h : userTurns rd (before.filter keepForked) ≠ 0) :
    userTurns rd ((before.rdropWhile (isPreTurnContext rd)).filter keepForked) ≠ 0 ∧
      leading rd ((before.rdropWhile (isPreTurnContext rd)).filter keepForked) = leading rd (before.filter keepForked) ∧
      (turnsFrom rd ((before.rdropWhile (isPreTurnContext rd)).filter keepForked)).rdropWhile (isPreTurnContext rd) =
        (turnsFrom rd (before.filter keepForked)).rdropWhile (isPreTurnContext rd) := by
  have hctx : ∀ item ∈ (before.rtakeWhile (isPreTurnContext rd)).filter keepForked,
      isPreTurnContext rd item = true := fun item hitem => mem_rtakeWhile_imp (mem_filter.mp hitem).1
  have hnone := userTurns_eq_zero_of_context hctx
  have hspl : before.filter keepForked = (before.rdropWhile (isPreTurnContext rd)).filter keepForked ++
      (before.rtakeWhile (isPreTurnContext rd)).filter keepForked := by
    rw [← filter_append, rdropWhile_append_rtakeWhile]
  have hsome : userTurns rd ((before.rdropWhile (isPreTurnContext rd)).filter keepForked) ≠ 0 := by
    rw [hspl, userTurns_append, hnone] at h
    exact h
  obtain ⟨hlead, hfrom⟩ := append_of_userTurns_ne_zero hsome
    ((before.rtakeWhile (isPreTurnContext rd)).filter keepForked)
  rw [← hspl] at hlead hfrom
  exact ⟨hsome, hlead.symm, by rw [hfrom, rdropWhile_append_of_forall hctx]⟩

theorem prefix_dropLastNUserTurns (cm : ContextManager) (n : UInt32) :
    (cm.dropLastNUserTurns rd n).items <+: cm.items := by
  by_cases hcut : n = 0 ∨ userTurns rd cm.items = 0
  · rw [items_of_no_cut hcut]
  · rw [not_or] at hcut
    obtain ⟨before, turn, after, hcut⟩ := exists_cutsAt hcut.1 hcut.2
    exact hcut.prefix_items.trans (hcut.split ▸ prefix_append _ _)

include h in
theorem ForkKeeps.kept_rollback :
    ∀ item ∈ (fork.dropLastNUserTurns rd n).items, keepForked item = true :=
  fun item hitem => h.kept item ((prefix_dropLastNUserTurns fork n).subset hitem)

include h hcut hbeh in
theorem ForkKeeps.rollback_turns
    (htns : ∀ item ∈ turn :: after, isUserTurnBoundary rd item = true → keepForked item = true) :
    (leading rd (fork.dropLastNUserTurns rd n).items).filter isShown =
        (leading rd ((parent.dropLastNUserTurns rd n).items.filter keepForked)).filter isShown ∧
      ∃ rest, turnsFrom rd ((parent.dropLastNUserTurns rd n).items.filter keepForked) =
          rest ++ ((before.rdropWhile (isPreTurnContext rd)).filter keepForked).rtakeWhile (isPreTurnContext rd) ∧
        (turnsFrom rd (fork.dropLastNUserTurns rd n).items).filter (isLasting rd) = rest.filter (isLasting rd) := by
  have hbef := userTurns_filter_ne_zero hbeh
  have hsome : userTurns rd before ≠ 0 := fun hnone =>
    hbef (le_zero.mp (hnone ▸ filter_sublist.countP_le))
  obtain ⟨hlead, hfrom⟩ := dropLastNUserTurns_keptTurns h hcut hbeh htns
  obtain ⟨hsomeAfter, hleadAfter, hfromAfter⟩ := filter_rdropWhile_behind hbef
  have hleadBefore : leading rd (parent.items.filter keepForked) = leading rd (before.filter keepForked) := by
    rw [hcut.split, filter_append, (append_of_userTurns_ne_zero hbef _).1]
  rw [hcut.items, if_neg hsome]
  refine ⟨by rw [hlead, h.front, hleadBefore, hleadAfter],
    (turnsFrom rd ((before.rdropWhile (isPreTurnContext rd)).filter keepForked)).rdropWhile
      (isPreTurnContext rd), ?_, by rw [hfrom, ← hfromAfter]⟩
  have hspl := rdropWhile_eq_leading_append hsomeAfter
  have hwhole := @leading_append_turnsFrom rd
    ((before.rdropWhile (isPreTurnContext rd)).filter keepForked)
  conv_rhs at hwhole => rw [← rdropWhile_append_rtakeWhile (p := isPreTurnContext rd)
    (l := (before.rdropWhile (isPreTurnContext rd)).filter keepForked), hspl, append_assoc]
  exact append_cancel_left hwhole

include h hcut hbeh in
theorem ForkKeeps.rollback_behind
    (hkps : KeepsTurns rd before turn after) : ForkKeeps rd ((parent.dropLastNUserTurns rd n).items.filter keepForked)
      (fork.dropLastNUserTurns rd n).items := by
  obtain ⟨hlead, rest, hparent, hfork⟩ := h.rollback_turns hcut hbeh hkps.turns
  have hctx : (((before.rdropWhile (isPreTurnContext rd)).filter keepForked).rtakeWhile
      (isPreTurnContext rd)).filter (isLasting rd) = [] := by
    refine filter_eq_nil_iff.mpr fun item hitem => ?_
    simp [isLasting, hkps.context item hitem, mem_rtakeWhile_imp hitem]
  refine ⟨h.kept_rollback, hlead, ?_⟩
  rw [hfork, hparent, filter_append, hctx, append_nil]

include h hcut hbeh in
theorem ForkKeeps.keepsTurns_of_shown (hshn : (fork.dropLastNUserTurns rd n).items.filter isShown =
      ((parent.dropLastNUserTurns rd n).items.filter keepForked).filter isShown) : KeepsTurns rd before turn after := by
  have hbef := userTurns_filter_ne_zero hbeh
  have hsome : userTurns rd before ≠ 0 := fun hnone =>
    hbef (le_zero.mp (hnone ▸ filter_sublist.countP_le))
  have htns : ∀ item ∈ turn :: after, isUserTurnBoundary rd item = true → keepForked item = true := by
    -- The fork drops as many turns as the parent, but counts only those that the filter keeps.
    have hleft : userTurns rd (fork.dropLastNUserTurns rd n).items =
        userTurns rd (before.filter keepForked) := by
      have hspl := filter_rdropWhile_behind hbef
      rw [userTurns_eq_filter h.kept_rollback, hshn, ← userTurns_eq_filter (all_keepForked_filter _), hcut.items,
        if_neg hsome, ← userTurns_turnsFrom, ← userTurns_rdropWhile, hspl.2.2, userTurns_rdropWhile,
        userTurns_turnsFrom]
    have hfork : userTurns rd (fork.dropLastNUserTurns rd n).items = userTurns rd fork.items - n.toNat := by
      simp only [userTurns, countP_eq_length_filter, filter_dropLastNUserTurns, rdrop, length_take]
      omega
    have hcnt := hcut.count
    have hle : userTurns rd ((turn :: after).filter keepForked) ≤ userTurns rd (turn :: after) :=
      filter_sublist.countP_le
    have htot := h.userTurns_eq (all_keepForked_filter _)
    rw [hcut.split, filter_append, userTurns_append] at htot
    rw [hcut.split, userTurns_append] at hcnt
    refine (userTurns_filter_eq_iff _).mp ?_
    omega
  refine ⟨htns, fun item hitem => ?_⟩
  obtain ⟨hlead, rest, hparent, hfork⟩ := h.rollback_turns hcut hbeh htns
  have hshownFork := @filter_isShown_eq rd (fork.dropLastNUserTurns rd n).items
  have hshownParent := @filter_isShown_eq rd ((parent.dropLastNUserTurns rd n).items.filter keepForked)
  rw [hshownFork, hshownParent, hlead, hfork, hparent, filter_append, filter_append,
    append_cancel_left_eq, self_eq_append_right, filter_isShown_isLasting, filter_eq_nil_iff] at hshn
  simpa using hshn item hitem

/-! ## A rollback of all kept turns -/

include h hcut in
theorem ForkKeeps.rollback_leading (hall : ¬ before.any (isKeptBoundary rd) = true) :
    userTurns rd (fork.dropLastNUserTurns rd n).items = 0 ∧
      userTurns rd ((parent.dropLastNUserTurns rd n).items.filter keepForked) = 0 ∧
      (fork.dropLastNUserTurns rd n).items.filter isShown =
        ((parent.dropLastNUserTurns rd n).items.filter keepForked).filter isShown ++
          ((if userTurns rd before = 0 then [] else before.rtakeWhile (isPreTurnContext rd)).filter isShown ++
            (leading rd ((turn :: after).filter keepForked)).filter isShown) := by
  have hbef := userTurns_filter_eq_zero hall
  have hcnt := hcut.count
  have htns := h.userTurns_eq (all_keepForked_filter _)
  have hle : userTurns rd ((turn :: after).filter keepForked) ≤ userTurns rd (turn :: after) :=
    filter_sublist.countP_le
  rw [hcut.split, filter_append, userTurns_append, hbef, zero_add] at htns
  have hfork : (fork.dropLastNUserTurns rd n).items = leading rd fork.items :=
    dropLastNUserTurns_all fork (by omega)
  have hnone : userTurns rd ((parent.dropLastNUserTurns rd n).items.filter keepForked) = 0 :=
    le_zero.mp (hbef ▸ (hcut.prefix_items.filter _).sublist.countP_le)
  refine ⟨by rw [hfork, userTurns_leading], hnone, ?_⟩
  have hleading : (leading rd fork.items).filter isShown = before.filter isShown ++
      (leading rd ((turn :: after).filter keepForked)).filter isShown := by
    rw [h.front, hcut.split, filter_append, (append_of_userTurns_eq_zero hbef _).1, filter_append,
      filter_isShown_keepForked]
  rw [hfork, hleading, filter_isShown_keepForked, hcut.items, ← append_assoc]
  split
  next => rw [filter_nil, append_nil]
  next =>
    rw [append_cancel_right_eq, ← filter_append, rdropWhile_append_rtakeWhile]

theorem forkKeeps_of_no_turns {filtered forked : List ResponseItem} (hkept : ∀ item ∈ forked, keepForked item = true)
    (hforked : userTurns rd forked = 0) (hfil : userTurns rd filtered = 0)
    (hshn : forked.filter isShown = filtered.filter isShown) : ForkKeeps rd filtered forked := by
  have hnone {items : List ResponseItem} (h : userTurns rd items = 0) : turnsFrom rd items = [] := by
    have := (append_of_userTurns_eq_zero h []).2
    rwa [append_nil] at this
  refine ⟨hkept, ?_, by rw [hnone hforked, hnone hfil]⟩
  rw [leading_of_userTurns_eq_zero hforked, leading_of_userTurns_eq_zero hfil, hshn]

theorem keepsLeading_iff : KeepsLeading rd before turn after ↔
    (if userTurns rd before = 0 then [] else before.rtakeWhile (isPreTurnContext rd)).filter isShown ++
      (leading rd ((turn :: after).filter keepForked)).filter isShown = [] := by
  rw [append_eq_nil_iff, filter_eq_nil_iff, filter_eq_nil_iff]
  constructor
  · rintro ⟨hctx, hleading⟩
    refine ⟨fun item hitem => ?_, by simpa using hleading⟩
    split at hitem
    next => cases hitem
    next hsome => simpa using hctx hsome item hitem
  · rintro ⟨hctx, hleading⟩
    refine ⟨fun hsome item hitem => ?_, by simpa using hleading⟩
    rw [if_neg hsome] at hctx
    simpa using hctx item hitem

/-! ## One rollback -/

include h in
theorem ForkKeeps.rollback (hkps : RollbackKeepsFork rd parent.items n) :
    ForkKeeps rd ((parent.dropLastNUserTurns rd n).items.filter keepForked) (fork.dropLastNUserTurns rd n).items := by
  by_cases hnone : n = 0 ∨ userTurns rd parent.items = 0
  · have hfork : n = 0 ∨ userTurns rd fork.items = 0 := by
      refine hnone.imp_right fun htns => ?_
      rw [h.userTurns_eq (all_keepForked_filter _)]
      exact le_zero.mp (htns ▸ filter_sublist.countP_le)
    rwa [items_of_no_cut hnone, items_of_no_cut hfork]
  · rw [not_or] at hnone
    obtain ⟨before, turn, after, hcut⟩ := exists_cutsAt hnone.1 hnone.2
    have hcase := hkps before turn after hcut
    split at hcase
    next hbeh => exact h.rollback_behind hcut hbeh hcase
    next hall =>
      obtain ⟨hforked, hfil, hshn⟩ := h.rollback_leading hcut hall
      rw [keepsLeading_iff.mp hcase, append_nil] at hshn
      exact forkKeeps_of_no_turns h.kept_rollback hforked hfil hshn

include h in
theorem ForkKeeps.rollbackKeepsFork (hshn : (fork.dropLastNUserTurns rd n).items.filter isShown =
      ((parent.dropLastNUserTurns rd n).items.filter keepForked).filter isShown) :
    RollbackKeepsFork rd parent.items n := by
  intro before turn after hcut
  split
  next hbeh => exact h.keepsTurns_of_shown hcut hbeh hshn
  next hall =>
    have hdiffer := (h.rollback_leading hcut hall).2.2
    rw [hshn, self_eq_append_right] at hdiffer
    exact keepsLeading_iff.mpr hdiffer

end

/-! ## Rollouts -/

section

variable {rollout : List RolloutEntry} {entry : RolloutEntry}

def parentReplay (rd : ItemReaders) (rollout : List RolloutEntry) : ContextManager :=
  replayItems rd {} (rollout.map RolloutEntry.item)

def forkedReplay (rd : ItemReaders) (rollout : List RolloutEntry) : ContextManager :=
  replayItems rd {} ((rollout.map RolloutEntry.item).filter keepForkedRolloutItem)

theorem parentReplay_concat :
    parentReplay rd (rollout ++ [entry]) = replayItem rd (parentReplay rd rollout) entry.item := by
  simp [parentReplay, replayItems]

theorem forkedReplay_concat :
    forkedReplay rd (rollout ++ [entry]) =
      if keepForkedRolloutItem entry.item then replayItem rd (forkedReplay rd rollout) entry.item
      else forkedReplay rd rollout := by
  by_cases h : keepForkedRolloutItem entry.item
  · simp [forkedReplay, replayItems, filter_append, h]
  · simp [forkedReplay, replayItems, filter_append, h]

theorem ForkKeeps.recordItem {parent fork : ContextManager} {item : ResponseItem}
    (h : ForkKeeps rd (parent.items.filter keepForked) fork.items) :
    ForkKeeps rd ((parent.recordItem rd item).items.filter keepForked)
      (if keepForked item then fork.recordItem rd item else fork).items := by
  by_cases hapi : isApiMessage item
  · simp only [ContextManager.recordItem, if_pos hapi, filter_append]
    by_cases hkept : keepForked item
    · rw [processItem_of_keepForked hkept, filter_cons_of_pos hkept, filter_nil, if_pos hkept]
      exact h.record (all_keepForked_filter _) hkept
    · have hprocessed : ¬ keepForked (processItem rd item) = true := by rwa [keepForked_processItem]
      rwa [filter_cons_of_neg hprocessed, filter_nil, append_nil, if_neg hkept]
  · simp only [ContextManager.recordItem, if_neg hapi, ite_self]
    exact h

def ForkInStep (rd : ItemReaders) (rollout : List RolloutEntry) : Prop :=
  ForkKeeps rd ((parentReplay rd rollout).items.filter keepForked) (forkedReplay rd rollout).items

theorem forkInStep_nil : ForkInStep rd [] := ⟨by simp [forkedReplay, replayItems], rfl, rfl⟩

theorem ForkInStep.concat (h : ForkInStep rd rollout)
    (hkps : ∀ n, entry = .threadRolledBack n → RollbackKeepsFork rd (parentHistory rd rollout) n) :
    ForkInStep rd (rollout ++ [entry]) := by
  rw [ForkInStep, parentReplay_concat, forkedReplay_concat]
  cases entry with
  | responseItem item => exact ForkKeeps.recordItem h
  | threadRolledBack n => exact ForkKeeps.rollback h (hkps n rfl)

theorem ForkInStep.agrees (h : ForkInStep rd rollout) : ForkAgrees rd rollout := h.shown

theorem ForkInStep.rollbackKeepsFork (h : ForkInStep rd rollout) (hagr : ForkAgrees rd (rollout ++ [entry])) :
    ∀ n, entry = .threadRolledBack n → RollbackKeepsFork rd (parentHistory rd rollout) n := by
  rintro n rfl
  refine ForkKeeps.rollbackKeepsFork h ?_
  have hshn : (forkedReplay rd (rollout ++ [.threadRolledBack n])).items.filter isShown =
      ((parentReplay rd (rollout ++ [.threadRolledBack n])).items.filter keepForked).filter isShown := hagr
  rwa [forkedReplay_concat, parentReplay_concat] at hshn

end

/-- At each point of a rollout a forked sub-agent sees what the filter leaves of its parent's history, exactly when each
rollback keeps the fork in step. -/
theorem fork_commutes_iff (rd : ItemReaders) (rollout : List RolloutEntry) :
    (∀ replayed, replayed <+: rollout → ForkAgrees rd replayed) ↔
      ∀ replayed numTurns, replayed ++ [.threadRolledBack numTurns] <+: rollout →
        RollbackKeepsFork rd (parentHistory rd replayed) numTurns := by
  rw [forall_prefix_iff (I := ForkInStep rd) forkInStep_nil (fun _ _ h hkps => h.concat hkps)
    (fun _ h => h.agrees) fun _ _ h hagr => h.rollbackKeepsFork hagr]
  constructor
  · exact fun h replayed numTurns hpre => h replayed _ hpre numTurns rfl
  · rintro h replayed entry hpre numTurns rfl
    exact h replayed numTurns hpre

/-! ## A message of another agent -/

def mailText : Text :=
  ("\x7b\"author\":\"/root\",\"recipient\":\"/root/worker\",\"other_recipients\":[]," ++
    "\"content\":\"look again\",\"trigger_turn\":true\x7d").toList

/-- The message of the sample is one of another agent. -/
def mailReaders : ItemReaders where
  parseHookPromptFragment _ := false
  isInterAgentCommunication text := text == mailText
  truncateFunctionOutputPayload output := output
  buildCompactedHistory history _ := history

def mailRolledBack : List RolloutEntry :=
  [.responseItem (.message none "user" [.inputText "fix the bug"] none),
   .responseItem (.message none "assistant" [.outputText mailText] (some .commentary)),
   .threadRolledBack 1]

/-- The fork loses the question of the user, which the parent keeps. -/
theorem fork_loses_question : ¬ ∀ rd rollout, ForkAgrees rd rollout := by
  intro h
  have hagr := h mailReaders mailRolledBack
  rw [ForkAgrees] at hagr
  exact absurd hagr (by decide +kernel)

end CodexStudy.Core
