import CodexStudy.Desktop.ThreadLifecycle

/-!
# What becomes of one item when the items of a thread are prepared
-/

namespace CodexStudy.Desktop

open CodexStudy.Lib JsString List ConversationItem

def itemIds (items : List ConversationItem) : List JsString := items.map ConversationItem.id

def lastShown (items : List ConversationItem) : Option ConversationItem := (dropRepeatedReviews none items).getLast?

section

variable {items before after result : List ConversationItem} {item x : ConversationItem} {last : Option ConversationItem}

theorem itemIds_append : itemIds (before ++ after) = itemIds before ++ itemIds after := map_append

/-! ## Repeated reviews -/

theorem dropRepeatedReviews_cons : dropRepeatedReviews last (item :: after) = if repeatsReview last item then
    dropRepeatedReviews last after else item :: dropRepeatedReviews (some item) after := rfl

theorem dropRepeatedReviews_sublist : (dropRepeatedReviews last items).Sublist items := by
  induction items generalizing last with
  | nil => exact List.Sublist.slnil
  | cons item rest ih =>
      rw [dropRepeatedReviews_cons]
      split
      next => exact ih.cons item
      next => exact ih.cons_cons item

theorem dropRepeatedReviews_append : dropRepeatedReviews last (before ++ after) = dropRepeatedReviews last before ++
    dropRepeatedReviews ((dropRepeatedReviews last before).getLast?.or last) after := by
  induction before generalizing last with
  | nil => rfl
  | cons item rest ih =>
      rw [cons_append, dropRepeatedReviews_cons, dropRepeatedReviews_cons]
      split
      next => exact ih
      next =>
        rw [ih, cons_append]
        cases hrest : dropRepeatedReviews (some item) rest with
        | nil => rfl
        | cons next more =>
            rw [getLast?_cons_cons]
            cases hlast : (next :: more).getLast? with
            | none => cases getLast?_eq_none_iff.mp hlast
            | some shown => rfl

theorem dropRepeatedReviews_split : dropRepeatedReviews none (before ++ x :: after) =
    dropRepeatedReviews none before ++ if repeatsReview (lastShown before) x then
      dropRepeatedReviews (lastShown before) after else x :: dropRepeatedReviews (some x) after := by
  rw [dropRepeatedReviews_append, Option.or_none]
  rfl

/-! ## The limit -/

theorem scrollbackLimit_pos {maxItemsPerThread : Option Nat} {limit : Nat}
    (h : scrollbackLimit maxItemsPerThread = some limit) : 0 < limit := by
  obtain ⟨n, -, rfl⟩ := Option.map_eq_some_iff.mp h
  split
  next hpos => exact hpos
  next => decide

theorem limitItems_suffix (limit : Option Nat) : limitItems limit items <:+ items := by
  cases limit with
  | none => exact suffix_rfl
  | some limit => exact drop_suffix _ _

theorem limitItems_keeps {limit : Option Nat} (h : ∀ n, limit = some n → after.length < n) :
    ∃ kept, kept <:+ before ∧ limitItems limit (before ++ x :: after) = kept ++ x :: after := by
  cases limit with
  | none => exact ⟨before, suffix_rfl, rfl⟩
  | some n =>
      have hlt := h n rfl
      refine ⟨before.drop ((before ++ x :: after).length - n), drop_suffix _ _, ?_⟩
      refine drop_append_of_le_length ?_
      rw [length_append, length_cons]
      omega

/-! ## Explore items -/

theorem exploreOf_id {summary : ExploreItem} (h : exploreOf item = some summary) : summary.id = item.id := by
  cases item with
  | explore item =>
      cases h
      rfl
  | tool item =>
      unfold exploreOf at h
      simp only [Option.ite_none_right_eq_some] at h
      have hsum := h.2
      unfold summarizeCommandExecution at hsum
      split at hsum
      next => cases hsum
      next =>
        obtain ⟨entries, -, rfl⟩ := Option.map_eq_some_iff.mp hsum
        rfl
  | _ => cases h

theorem pushItem_cases : (exploreOf item = none ∧ pushItem result item = result ++ [item]) ∨
    (∃ summary, exploreOf item = some summary ∧ pushItem result item = result ++ [.explore summary] ∧
      ∀ last, result.getLast? = some (.explore last) → last.status ≠ summary.status) ∨
    ∃ rest last summary, exploreOf item = some summary ∧ result = rest ++ [.explore last] ∧ last.status = summary.status ∧
      pushItem result item =
        rest ++ [.explore { last with entries := mergeExploreEntries last.entries summary.entries }] := by
  unfold pushItem
  split
  next summary hsum =>
    unfold pushExplore
    split
    next last hlast =>
      split
      next hstatus =>
        obtain ⟨rest, rfl⟩ := getLast?_eq_some_iff.mp hlast
        rw [dropLast_concat]
        exact .inr (.inr ⟨rest, last, summary, hsum, rfl, hstatus, rfl⟩)
      next hstatus =>
        refine .inr (.inl ⟨summary, hsum, rfl, fun last' hlast' => ?_⟩)
        rw [hlast] at hlast'
        cases hlast'
        exact hstatus
    next hlast => exact .inr (.inl ⟨summary, hsum, rfl, fun last hlast' => absurd hlast' (hlast last)⟩)
  next hnone => exact .inl ⟨hnone, rfl⟩

theorem pushItem_after (hx : ∀ summary, x ≠ .explore summary) (rest : List ConversationItem) :
    ∃ more, pushItem (result ++ x :: rest) item = result ++ x :: more ∧ more.length ≤ rest.length + 1 ∧
      ∀ y ∈ more, y.id ∈ itemIds rest ∨ y.id = item.id := by
  have hadd : ∀ new : ConversationItem, new.id = item.id →
      ∀ y ∈ rest ++ [new], y.id ∈ itemIds rest ∨ y.id = item.id := by
    intro new hnew y hy
    rcases mem_append.mp hy with hy | hy
    · exact .inl (mem_map_of_mem hy)
    · exact .inr (mem_singleton.mp hy ▸ hnew)
  rcases @pushItem_cases (result ++ x :: rest) item with ⟨-, heq⟩ | ⟨summary, hsum, heq, -⟩ |
    ⟨front, last, summary, -, hres, -, heq⟩
  · refine ⟨rest ++ [item], by rw [heq, append_assoc, cons_append], ?_, hadd item rfl⟩
    rw [length_append, length_singleton]
  · refine ⟨rest ++ [.explore summary], by rw [heq, append_assoc, cons_append], ?_,
      hadd (.explore summary) (exploreOf_id hsum)⟩
    rw [length_append, length_singleton]
  · -- The last summary is one of `rest`, as `x` is none.
    rcases eq_nil_or_concat' rest with rfl | ⟨rest, end_, rfl⟩
    · have hlast := congrArg getLast? hres
      simp only [getLast?_concat] at hlast
      exact absurd (Option.some.inj hlast) (hx last)
    · have hspl : result ++ x :: (rest ++ [end_]) = (result ++ x :: rest) ++ [end_] := by simp
      rw [hspl] at hres
      obtain ⟨rfl, hend⟩ := append_inj' hres rfl
      obtain rfl := singleton_inj.mp hend
      refine ⟨rest ++ [.explore { last with entries := mergeExploreEntries last.entries summary.entries }],
        by rw [heq, append_assoc, cons_append], ?_, fun y hy => ?_⟩
      · simp only [length_append, length_singleton]
        omega
      · rcases mem_append.mp hy with hy | hy
        · exact .inl (mem_map_of_mem (mem_append_left _ hy))
        · rw [mem_singleton.mp hy]
          exact .inl (mem_map.mpr ⟨.explore last, mem_append_right _ (mem_singleton_self _), rfl⟩)

theorem foldl_pushItem_after (hx : ∀ summary, x ≠ .explore summary) (rest : List ConversationItem) :
    ∃ more, after.foldl pushItem (result ++ x :: rest) = result ++ x :: more ∧
      more.length ≤ rest.length + after.length ∧ ∀ y ∈ more, y.id ∈ itemIds rest ∨ y.id ∈ itemIds after := by
  induction after generalizing rest with
  | nil => exact ⟨rest, rfl, Nat.le_refl _, fun y hy => .inl (mem_map_of_mem hy)⟩
  | cons item after ih =>
      obtain ⟨next, hnext, hlen, hids⟩ := @pushItem_after result item _ hx rest
      obtain ⟨more, hmore, hlen', hids'⟩ := ih next
      refine ⟨more, by rw [foldl_cons, hnext, hmore], ?_, fun y hy => ?_⟩
      · rw [length_cons]
        omega
      · rcases hids' y hy with hy | hy
        · obtain ⟨z, hz, hzid⟩ := mem_map.mp hy
          rcases hids z hz with hz | hz
          · exact .inl (hzid ▸ hz)
          · exact .inr (by rw [← hzid, hz]; exact mem_cons_self)
        · exact .inr (mem_cons_of_mem _ hy)

theorem pushItem_ids {y : ConversationItem} (h : y ∈ pushItem result item) : y.id ∈ itemIds result ∨ y.id = item.id := by
  have hadd : ∀ new : ConversationItem, new.id = item.id → y ∈ result ++ [new] → y.id ∈ itemIds result ∨ y.id = item.id := by
    intro new hnew hy
    rcases mem_append.mp hy with hy | hy
    · exact .inl (mem_map_of_mem hy)
    · exact .inr (mem_singleton.mp hy ▸ hnew)
  rcases @pushItem_cases result item with ⟨-, heq⟩ | ⟨summary, hsum, heq, -⟩ |
    ⟨front, last, summary, -, rfl, -, heq⟩
  · exact hadd item rfl (heq ▸ h)
  · exact hadd (.explore summary) (exploreOf_id hsum) (heq ▸ h)
  · rw [heq] at h
    rcases mem_append.mp h with hy | hy
    · exact .inl (mem_map_of_mem (mem_append_left _ hy))
    · rw [mem_singleton.mp hy]
      exact .inl (mem_map.mpr ⟨.explore last, mem_append_right _ (mem_singleton_self _), rfl⟩)

theorem foldl_pushItem_ids : itemIds (items.foldl pushItem result) ⊆ itemIds (result ++ items) := by
  induction items generalizing result with
  | nil => rw [append_nil]; exact List.Subset.refl _
  | cons item rest ih =>
      intro id hid
      have hmem := ih hid
      rw [itemIds_append, mem_append] at hmem ⊢
      rcases hmem with hmem | hmem
      · obtain ⟨y, hy, rfl⟩ := mem_map.mp hmem
        rcases pushItem_ids hy with hy | hy
        · exact .inl hy
        · exact .inr (hy ▸ mem_cons_self)
      · exact .inr (mem_cons_of_mem _ hmem)

/-! ## Old outputs -/

@[simp] theorem truncateOldItem_id : (truncateOldItem item).id = item.id := by
  cases item with
  | _ => rfl

theorem truncateOldItems_ids : itemIds (truncateOldItems items) = itemIds items := by
  unfold truncateOldItems itemIds
  simp only
  rw [map_append, map_map]
  have hids : ConversationItem.id ∘ truncateOldItem = ConversationItem.id := funext fun _ => truncateOldItem_id
  rw [hids, ← map_append, take_append_drop]

theorem mem_truncateOldItems (h : item ∈ truncateOldItems items) :
    ∃ old ∈ items, item = old ∨ item = truncateOldItem old := by
  rcases mem_append.mp h with h | h
  · obtain ⟨old, hold, rfl⟩ := mem_map.mp h
    exact ⟨old, take_subset _ _ hold, .inr rfl⟩
  · exact ⟨item, drop_subset _ _ h, .inl rfl⟩

theorem truncateOldItems_split : ∃ before' x' after', truncateOldItems (before ++ x :: after) = before' ++ x' :: after' ∧
    itemIds before' = itemIds before ∧ itemIds after' = itemIds after ∧ (x' = x ∨ x' = truncateOldItem x) := by
  have hids := @truncateOldItems_ids (before ++ x :: after)
  obtain ⟨before', rest, heq, hbef, hrest⟩ := map_eq_append_iff.mp (hids.trans itemIds_append)
  obtain ⟨x', after', rfl, -, haft⟩ := map_eq_cons_iff.mp hrest
  refine ⟨before', x', after', heq, hbef, haft, ?_⟩
  have hlen : before'.length = before.length := by simpa [itemIds] using congrArg length hbef
  have hget : (truncateOldItems (before ++ x :: after))[before.length]? = some x' := by
    rw [heq, ← hlen, getElem?_append_right (Nat.le_refl _), Nat.sub_self]
    rfl
  have hold : (before ++ x :: after)[before.length]? = some x := by
    rw [getElem?_append_right (Nat.le_refl _), Nat.sub_self]
    rfl
  unfold truncateOldItems at hget
  simp only at hget
  rw [getElem?_append, length_map, getElem?_map, getElem?_drop] at hget
  split at hget
  next hlt =>
    rw [getElem?_take_of_lt (by rw [length_take] at hlt; omega), hold] at hget
    exact .inr (Option.some.inj hget).symm
  next hge =>
    rw [length_take] at hge
    have hindex : (before ++ x :: after).length - TOOL_OUTPUT_RECENT_ITEMS + (before.length -
        ((before ++ x :: after).take ((before ++ x :: after).length - TOOL_OUTPUT_RECENT_ITEMS)).length) =
        before.length := by
      rw [length_take]
      omega
    rw [hindex, hold] at hget
    exact .inl (Option.some.inj hget).symm

/-! ## All of it -/

variable {maxItemsPerThread : Option Nat}

theorem map_normalizeItem_ids : itemIds (items.map normalizeItem) = itemIds items := by
  unfold itemIds
  rw [map_map]
  exact map_congr_left fun item _ => normalizeItem_id item

theorem prepareThreadItems_ids :
    itemIds (prepareThreadItems items maxItemsPerThread) ⊆ itemIds (dropRepeatedReviews none items) := by
  unfold prepareThreadItems
  simp only
  rw [truncateOldItems_ids]
  refine List.Subset.trans foldl_pushItem_ids ?_
  rw [nil_append]
  refine List.Subset.trans ((limitItems_suffix _).sublist.map ConversationItem.id).subset ?_
  exact map_normalizeItem_ids ▸ List.Subset.refl _

theorem prepareThreadItems_drop (h : repeatsReview (lastShown before) x = true) :
    itemIds (prepareThreadItems (before ++ x :: after) maxItemsPerThread) ⊆ itemIds (before ++ after) := by
  refine List.Subset.trans prepareThreadItems_ids ?_
  rw [dropRepeatedReviews_split, if_pos h, itemIds_append, itemIds_append]
  exact ((dropRepeatedReviews_sublist.map _).append (dropRepeatedReviews_sublist.map _)).subset

theorem prepareThreadItems_split (hreview : repeatsReview (lastShown before) x = false)
    (hexplore : exploreOf (normalizeItem x) = none)
    (hlimit : ∀ n, scrollbackLimit maxItemsPerThread = some n → after.length < n) :
    ∃ before' x' after', prepareThreadItems (before ++ x :: after) maxItemsPerThread = before' ++ x' :: after' ∧
      itemIds before' ⊆ itemIds before ∧ itemIds after' ⊆ itemIds after ∧ after'.length ≤ after.length ∧
      (x' = normalizeItem x ∨ x' = truncateOldItem (normalizeItem x)) := by
  let shownAfter := (dropRepeatedReviews (some x) after).map normalizeItem
  have hshn : shownAfter.length ≤ after.length := by
    rw [length_map]
    exact dropRepeatedReviews_sublist.length_le
  have hfil : (dropRepeatedReviews none (before ++ x :: after)).map normalizeItem =
      (dropRepeatedReviews none before).map normalizeItem ++ normalizeItem x :: shownAfter := by
    rw [dropRepeatedReviews_split, hreview, if_neg Bool.false_ne_true, map_append, map_cons]
  obtain ⟨kept, hkept, hlimited⟩ := @limitItems_keeps ((dropRepeatedReviews none before).map normalizeItem) _
    (normalizeItem x) _ fun n hn => hshn.trans_lt (hlimit n hn)
  have hx : ∀ summary, normalizeItem x ≠ .explore summary := by
    intro summary heq
    rw [heq] at hexplore
    cases hexplore
  obtain ⟨more, hmore, hlen, hids⟩ := @foldl_pushItem_after shownAfter
    (kept.foldl pushItem []) _ hx []
  have hpush : pushItem (kept.foldl pushItem []) (normalizeItem x) = kept.foldl pushItem [] ++ [normalizeItem x] := by
    unfold pushItem
    rw [hexplore]
  have hsum : summarizeExploration (kept ++ normalizeItem x :: shownAfter) =
      kept.foldl pushItem [] ++ normalizeItem x :: more := by
    rw [summarizeExploration, foldl_append, foldl_cons, hpush, hmore]
  obtain ⟨before', x', after', hold, hbef, haft, hx'⟩ := @truncateOldItems_split
    (kept.foldl pushItem []) more (normalizeItem x)
  refine ⟨before', x', after', ?_, ?_, ?_, ?_, hx'⟩
  · unfold prepareThreadItems
    simp only
    rw [hfil, hlimited, hsum, hold]
  · rw [hbef]
    refine List.Subset.trans foldl_pushItem_ids ?_
    rw [nil_append]
    refine List.Subset.trans (hkept.sublist.map ConversationItem.id).subset ?_
    show itemIds ((dropRepeatedReviews none before).map normalizeItem) ⊆ itemIds before
    rw [map_normalizeItem_ids]
    exact (dropRepeatedReviews_sublist.map ConversationItem.id).subset
  · rw [haft]
    intro id hid
    obtain ⟨y, hy, rfl⟩ := mem_map.mp hid
    rcases hids y hy with hy | hy
    · cases hy
    · rw [map_normalizeItem_ids] at hy
      exact (dropRepeatedReviews_sublist.map _).subset hy
  · have hcnt : after'.length = more.length := by simpa [itemIds] using congrArg length haft
    rw [length_nil, Nat.zero_add] at hlen
    omega

/-! ## Items of a thread -/

variable {state : ThreadState} {threadId itemId : JsString}

theorem ne_of_not_mem_itemIds (h : itemId ∉ itemIds items) : ∀ y ∈ items, y.id ≠ itemId :=
  fun _ hy hid => h (hid ▸ mem_map_of_mem hy)

theorem find?_of_not_mem (h : itemId ∉ itemIds items) : (items.find? fun item => item.id == itemId) = none :=
  find?_eq_none.mpr fun y hy hid => ne_of_not_mem_itemIds h y hy (beq_iff_eq.mp hid)

theorem find?_split (h : itemId ∉ itemIds before) (hitem : item.id = itemId) :
    ((before ++ item :: after).find? fun item => item.id == itemId) = some item := by
  rw [find?_append, find?_of_not_mem h, Option.none_or]
  exact find?_cons_of_pos (beq_iff_eq.mpr hitem)

theorem modifyItem_split (h : itemId ∉ itemIds before) (hitem : item.id = itemId)
    (f : ConversationItem → ConversationItem) :
    modifyItem itemId f (before ++ item :: after) = before ++ f item :: after := by
  induction before with
  | nil => exact if_pos hitem
  | cons y before ih =>
      have hy : y.id ≠ itemId := ne_of_not_mem_itemIds h y mem_cons_self
      rw [cons_append, modifyItem, if_neg hy, ih fun hmem => h (mem_cons_of_mem _ hmem)]
      rfl

theorem itemsOf_setItems (items : List ConversationItem) :
    (state.setItems threadId items).itemsOf threadId = prepareThreadItems items state.maxItemsPerThread := by
  unfold ThreadState.setItems ThreadState.itemsOf
  simp only
  rw [HashMap.lookup_insert_eq, if_pos rfl]
  rfl

theorem truncateText_truncateText (s : JsString) {maxLength : Nat} (h : 3 ≤ maxLength) :
    truncateText (truncateText s maxLength) maxLength = truncateText s maxLength := by
  refine truncateText_of_le ?_
  unfold truncateText
  split
  next hle => exact hle
  next =>
    have hdots : (ofLiteral "...").length = 3 := rfl
    rw [length_append, length_take, hdots]
    omega

theorem exploreOf_tool_congr {a b : ToolItem} (hid : a.id = b.id) (htype : a.toolType = b.toolType)
    (hstatus : a.status = b.status) (htitle : a.title = b.title) : exploreOf (.tool a) = exploreOf (.tool b) := by
  unfold exploreOf summarizeCommandExecution
  simp only [hid, htype, hstatus, htitle]

end

end CodexStudy.Desktop
