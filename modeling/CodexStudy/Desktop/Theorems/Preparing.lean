import CodexStudy.Desktop.Lemmas.PrepareItems
import Mathlib.Data.List.Chain
import Mathlib.Algebra.Order.Floor.Defs
import Mathlib.Data.Rat.Floor

/-!
# Items that are prepared again

Items that were prepared are prepared again with each action.
-/

namespace CodexStudy.Desktop

open CodexStudy.Lib JsString List ItemChange ConversationItem

/-- The setting that a number stands for. A fraction below one keeps all items, as `slice(-0)` does. -/
def settingOf (maxItemsPerThread : Option ℚ) : Option Nat :=
  maxItemsPerThread.bind fun limit =>
    if limit ≤ 0 then some 0 else if ⌊limit⌋₊ = 0 then none else some ⌊limit⌋₊

section

variable {items before after result rest : List ConversationItem} {item a b : ConversationItem} {limit : Option Nat}

/-! ## Texts that are short enough -/

theorem truncateText_length {maxLength : Nat} (text : JsString) (h : 3 ≤ maxLength) :
    (truncateText text maxLength).length ≤ maxLength := by
  unfold truncateText
  split
  next hle => exact hle
  next =>
    have hdots : (ofLiteral "...").length = 3 := rfl
    rw [length_append, length_take, hdots]
    omega

section

variable {f g : JsString → JsString}

theorem map_settled (h : ∀ text, f (g text) = g text) (text : Option JsString) : (text.map g).map f = text.map g := by
  cases text with
  | none => rfl
  | some text => exact congrArg some (h text)

theorem changes_settled (h : ∀ text, f (g text) = g text) (changes : Option (List ItemChange)) :
    (changes.map fun changes => changes.map (truncate g)).map (fun changes => changes.map (truncate f)) =
      changes.map fun changes => changes.map (truncate g) := by
  have hchg : ∀ change, truncate f (truncate g change) = truncate g change := by
    intro change
    simp only [truncate, map_settled h]
  cases changes with
  | none => rfl
  | some changes => simp [hchg]

end

theorem truncateText_settled (text : JsString) :
    truncateText (truncateText text MAX_ITEM_TEXT) MAX_ITEM_TEXT = truncateText text MAX_ITEM_TEXT :=
  truncateText_truncateText text (by decide)

theorem normalizeItem_normalizeItem (item : ConversationItem) :
    normalizeItem (normalizeItem item) = normalizeItem item := by
  cases item with
  | message id role text images => simp only [normalizeItem, truncateText_settled]
  | userInput id questions => simp [normalizeItem, normalizeQuestion, truncateText_truncateText]
  | reasoning id summary content => simp only [normalizeItem, truncateText_settled]
  | diff id title diff status => simp only [normalizeItem, truncateText_settled]
  | review id state text => rfl
  | explore item => rfl
  | tool item =>
      have htool : ∀ text, truncateToolText item.toolType (truncateToolText item.toolType text) =
          truncateToolText item.toolType text := by
        intro text
        unfold truncateToolText
        split
        · exact truncateText_truncateText _ (by decide)
        · exact truncateText_truncateText _ (by decide)
      simp only [normalizeItem, normalizeTool, map_settled htool, changes_settled htool,
        truncateText_truncateText _ (show 3 ≤ 200 by decide), truncateText_truncateText _ (show 3 ≤ 2000 by decide)]

theorem truncateOldItem_truncateOldItem (item : ConversationItem) :
    truncateOldItem (truncateOldItem item) = truncateOldItem item := by
  cases item with
  | tool item =>
      let old := fun text => truncateText text MAX_ITEM_TEXT
      have hold : ∀ text, old (old text) = old text := truncateText_settled
      exact congrArg₂ (fun output changes => tool { item with output, changes })
        (map_settled hold item.output) (changes_settled hold item.changes)
  | _ => rfl

theorem normalizeItem_truncateOldItem (h : normalizeItem item = item) :
    normalizeItem (truncateOldItem item) = truncateOldItem item := by
  cases item with
  | tool item =>
      have htitle := congrArg ToolItem.title (tool.inj h)
      have hdetail := congrArg ToolItem.detail (tool.inj h)
      have htool : ∀ text, truncateToolText item.toolType (truncateText text MAX_ITEM_TEXT) =
          truncateText text MAX_ITEM_TEXT :=
        fun text => truncateToolText_of_le _ (truncateText_length text (by decide))
      simp only [normalizeTool] at htitle hdetail
      simp only [normalizeItem, truncateOldItem, normalizeTool, htitle, hdetail, map_settled htool,
        changes_settled htool]
  | _ => exact h

/-! ## Summaries of summaries -/

structure Folded (items : List ConversationItem) : Prop where
  apart : items.IsChain fun a b => ∀ x y, a = .explore x → b = .explore y → x.status ≠ y.status
  plain : ∀ tool, .tool tool ∈ items → exploreOf (.tool tool) = none

theorem Folded.pushItem (h : Folded result) : Folded (pushItem result item) := by
  have hadd : ∀ {front : List ConversationItem} {new : ConversationItem}, Folded front →
      (∀ x y, front.getLast? = some (.explore x) → new = .explore y → x.status ≠ y.status) →
      (∀ tool, new = .tool tool → exploreOf (.tool tool) = none) → Folded (front ++ [new]) := by
    intro front new hfro hnew htool
    refine ⟨isChain_append.mpr ⟨hfro.apart, .singleton new, ?_⟩, fun tool hmem => ?_⟩
    · rintro _ hlast _ hhead x y rfl rfl
      exact hnew x y hlast (Option.some.inj hhead)
    · rcases mem_append.mp hmem with hmem | hmem
      · exact hfro.plain tool hmem
      · exact htool tool (mem_singleton.mp hmem).symm
  rcases @pushItem_cases result item with ⟨hnone, heq⟩ | ⟨summary, -, heq, hlast⟩ | ⟨front, last, summary, -, rfl, -, heq⟩
  · rw [heq]
    refine hadd h (fun x y _ hy => ?_) fun tool htool => htool ▸ hnone
    rw [hy] at hnone
    cases hnone
  · rw [heq]
    refine hadd h (fun x y hx hy => ?_) fun tool htool => by cases htool
    cases hy
    exact hlast x hx
  · rw [heq]
    refine hadd ⟨h.apart.left_of_append, fun tool hmem => h.plain tool (mem_append_left _ hmem)⟩ (fun x y hx hy => ?_)
      fun tool htool => by cases htool
    cases hy
    exact (isChain_append.mp h.apart).2.2 _ hx _ rfl x last rfl rfl

theorem folded_foldl (h : Folded result) : Folded (items.foldl pushItem result) := by
  induction items generalizing result with
  | nil => exact h
  | cons item items ih => exact ih h.pushItem

theorem foldl_of_folded (h : Folded (result ++ items)) : items.foldl pushItem result = result ++ items := by
  induction items generalizing result with
  | nil => exact (append_nil result).symm
  | cons item items ih =>
      have hpush : pushItem result item = result ++ [item] := by
        rcases @pushItem_cases result item with ⟨-, heq⟩ | ⟨summary, hsum, heq, -⟩ |
          ⟨front, last, summary, hsum, rfl, hstatus, -⟩
        · exact heq
        · cases item with
          | explore item =>
              cases hsum
              exact heq
          | tool tool =>
              rw [h.plain tool (mem_append_right _ mem_cons_self)] at hsum
              cases hsum
          | _ => cases hsum
        · cases item with
          | explore item =>
              cases hsum
              rw [append_assoc, singleton_append] at h
              have hap := (isChain_append_cons_cons.mp h.apart).2.1
              exact absurd hstatus (hap last _ rfl rfl)
          | tool tool =>
              rw [h.plain tool (mem_append_right _ mem_cons_self)] at hsum
              cases hsum
          | _ => cases hsum
      rw [foldl_cons, hpush, ih (by simpa using h), append_assoc, singleton_append]

theorem foldl_pushItem_length : (items.foldl pushItem result).length ≤ result.length + items.length := by
  induction items generalizing result with
  | nil => exact Nat.le_refl _
  | cons item items ih =>
      have hpush : (pushItem result item).length ≤ result.length + 1 := by
        rcases @pushItem_cases result item with ⟨-, heq⟩ | ⟨summary, -, heq, -⟩ | ⟨front, last, summary, -, rfl, -, heq⟩
        · rw [heq, length_append, length_singleton]
        · rw [heq, length_append, length_singleton]
        · rw [heq, length_append, length_append, length_singleton, length_singleton]
          omega
      have hrest := @ih (pushItem result item)
      rw [foldl_cons, length_cons]
      omega

theorem foldl_pushItem_normal (h : ∀ x ∈ result ++ items, normalizeItem x = x) :
    ∀ x ∈ items.foldl pushItem result, normalizeItem x = x := by
  induction items generalizing result with
  | nil => rwa [append_nil] at h
  | cons item items ih =>
      refine ih fun x hx => ?_
      rcases mem_append.mp hx with hx | hx
      · have hres : ∀ y ∈ result, normalizeItem y = y := fun y hy => h y (mem_append_left _ hy)
        rcases @pushItem_cases result item with ⟨-, heq⟩ | ⟨summary, -, heq, -⟩ | ⟨front, last, summary, -, rfl, -, heq⟩
        · rw [heq] at hx
          rcases mem_append.mp hx with hx | hx
          · exact hres x hx
          · exact h x (mem_append_right _ (mem_singleton.mp hx ▸ mem_cons_self))
        · rw [heq] at hx
          rcases mem_append.mp hx with hx | hx
          · exact hres x hx
          · rw [mem_singleton.mp hx]
            rfl
        · rw [heq] at hx
          rcases mem_append.mp hx with hx | hx
          · exact hres x (mem_append_left _ hx)
          · rw [mem_singleton.mp hx]
            rfl
      · exact h x (mem_append_right _ (mem_cons_of_mem _ hx))

/-! ## Reviews that are repeated -/

def Unrepeated (items : List ConversationItem) : Prop := items.IsChain fun a b => repeatsReview (some a) b = false

theorem dropRepeatedReviews_eq_self_iff (first : ConversationItem) :
    dropRepeatedReviews (some first) items = items ↔ Unrepeated (first :: items) := by
  induction items generalizing first with
  | nil => exact iff_of_true rfl (.singleton first)
  | cons item items ih =>
      rw [Unrepeated, isChain_cons_cons, dropRepeatedReviews_cons]
      split
      next hrepeats =>
        refine iff_of_false (fun heq => ?_) fun h => absurd (hrepeats.symm.trans h.1) (by decide)
        have hlen := (@dropRepeatedReviews_sublist items (some first)).length_le
        rw [heq, length_cons] at hlen
        omega
      next hrepeats =>
        rw [cons_inj_right, ih]
        exact (and_iff_right (Bool.eq_false_of_not_eq_true hrepeats)).symm

theorem unrepeated_iff : Unrepeated items ↔ dropRepeatedReviews none items = items := by
  cases items with
  | nil => exact iff_of_true .nil rfl
  | cons first items =>
      have hfst : repeatsReview none first = false := by
        cases first with
        | message id role text images => cases role <;> rfl
        | _ => rfl
      rw [dropRepeatedReviews_cons, hfst, if_neg Bool.false_ne_true, cons_inj_right,
        dropRepeatedReviews_eq_self_iff]

theorem unrepeated_split (hitem : (∃ x, item = .explore x) ∨ ∃ tool, item = .tool tool) :
    Unrepeated (before ++ item :: after) ↔ Unrepeated before ∧ Unrepeated after := by
  have hinert : ∀ other, repeatsReview (some other) item = false ∧ repeatsReview (some item) other = false := by
    intro other
    rcases hitem with ⟨x, rfl⟩ | ⟨tool, rfl⟩
    · refine ⟨rfl, ?_⟩
      cases other with
      | message id role text images => cases role <;> rfl
      | _ => rfl
    · refine ⟨rfl, ?_⟩
      cases other with
      | message id role text images => cases role <;> rfl
      | _ => rfl
  unfold Unrepeated
  rw [isChain_append, isChain_cons]
  exact ⟨fun h => ⟨h.1, h.2.1.2⟩, fun h => ⟨h.1, ⟨fun y _ => (hinert y).2, h.2⟩, fun x _ y hy => by
    rw [← Option.some.inj hy]
    exact (hinert x).1⟩⟩

theorem unrepeated_pushItem : Unrepeated (pushItem result item ++ rest) ↔ Unrepeated (result ++ item :: rest) := by
  have hshn : ∀ summary, exploreOf item = some summary → (∃ x, item = .explore x) ∨ ∃ tool, item = .tool tool := by
    intro summary h
    cases item with
    | explore x => exact .inl ⟨x, rfl⟩
    | tool tool => exact .inr ⟨tool, rfl⟩
    | _ => cases h
  rcases @pushItem_cases result item with ⟨-, heq⟩ | ⟨summary, hsum, heq, -⟩ |
    ⟨front, last, summary, hsum, rfl, -, heq⟩
  · rw [heq, append_assoc, singleton_append]
  · rw [heq, append_assoc, singleton_append, unrepeated_split (.inl ⟨_, rfl⟩),
      unrepeated_split (hshn _ hsum)]
  · rw [heq, append_assoc, singleton_append, unrepeated_split (.inl ⟨_, rfl⟩),
      unrepeated_split (hshn _ hsum), ← append_nil (front ++ _), append_assoc, singleton_append,
      unrepeated_split (.inl ⟨_, rfl⟩)]
    exact ⟨fun h => ⟨⟨h.1, .nil⟩, h.2⟩, fun h => ⟨h.1.1, h.2⟩⟩

theorem unrepeated_foldl : Unrepeated (items.foldl pushItem result) ↔ Unrepeated (result ++ items) := by
  induction items generalizing result with
  | nil => rw [append_nil]; exact Iff.rfl
  | cons item items ih => rw [foldl_cons, ih, unrepeated_pushItem]

/-! ## Old items -/

theorem truncateOldItems_length : (truncateOldItems items).length = items.length := by
  simpa only [itemIds, length_map] using congrArg length (@truncateOldItems_ids items)

theorem truncateOldItems_truncateOldItems : truncateOldItems (truncateOldItems items) = truncateOldItems items := by
  have hlen : ((items.take (items.length - TOOL_OUTPUT_RECENT_ITEMS)).map truncateOldItem).length =
      items.length - TOOL_OUTPUT_RECENT_ITEMS := by
    rw [length_map, length_take]
    omega
  have houter : truncateOldItems (truncateOldItems items) =
      ((truncateOldItems items).take (items.length - TOOL_OUTPUT_RECENT_ITEMS)).map truncateOldItem ++
        (truncateOldItems items).drop (items.length - TOOL_OUTPUT_RECENT_ITEMS) := by
    rw [← @truncateOldItems_length items]
    rfl
  have hinner : truncateOldItems items = (items.take (items.length - TOOL_OUTPUT_RECENT_ITEMS)).map truncateOldItem ++
      items.drop (items.length - TOOL_OUTPUT_RECENT_ITEMS) := rfl
  rw [houter, hinner, take_left' hlen, drop_left' hlen, map_map]
  simp only [Function.comp_def, truncateOldItem_truncateOldItem]

/-- What only looks at other items than the outputs of tools does not see that they are cut. -/
theorem chain_truncateOldItems {R : ConversationItem → ConversationItem → Prop}
    (hR : ∀ a b, R (truncateOldItem a) (truncateOldItem b) ↔ R a b) :
    (truncateOldItems items).IsChain R ↔ items.IsChain R := by
  have hmap : ∀ items : List ConversationItem, (items.map truncateOldItem).IsChain R ↔ items.IsChain R := by
    intro items
    rw [isChain_map]
    simp only [hR]
  have hsame : (truncateOldItems items).map truncateOldItem = items.map truncateOldItem := by
    unfold truncateOldItems
    simp only [map_append, map_map, Function.comp_def, truncateOldItem_truncateOldItem]
    rw [← map_append, take_append_drop]
  rw [← hmap, hsame, hmap]

theorem Folded.truncateOldItems (h : Folded items) : Folded (truncateOldItems items) := by
  refine ⟨(chain_truncateOldItems fun a b => ?_).mpr h.apart, fun tool hmem => ?_⟩
  · have hexplore : ∀ item x, truncateOldItem item = .explore x ↔ item = .explore x := by
      intro item x
      cases item with
      | tool tool => exact iff_of_false (fun heq => by cases heq) fun heq => by cases heq
      | _ => exact Iff.rfl
    simp only [hexplore]
  · obtain ⟨old, hold, heq | heq⟩ := mem_truncateOldItems hmem
    · exact h.plain tool (heq ▸ hold)
    · cases old with
      | tool old =>
          cases heq
          exact (exploreOf_tool_congr rfl rfl rfl rfl).trans (h.plain old hold)
      | _ => cases heq

theorem unrepeated_truncateOldItems : Unrepeated (truncateOldItems items) ↔ Unrepeated items := by
  refine chain_truncateOldItems fun a b => ?_
  have hsame : repeatsReview (some (truncateOldItem a)) (truncateOldItem b) = repeatsReview (some a) b := by
    cases b with
    | message id role text images =>
        cases role with
        | user => rfl
        | assistant =>
            cases a with
            | _ => rfl
    | _ => rfl
  rw [hsame]

/-! ## The second time -/

/-- Of the items that are kept, one is an answer that repeats the completed review before it once it is cut. -/
def CutToReview (limit : Option Nat) (items : List ConversationItem) : Prop :=
  ∃ before review answer after, dropRepeatedReviews none items = before ++ review :: answer :: after ∧
    repeatsReview (some review) (normalizeItem answer) = true ∧ ∀ n, limit = some n → after.length + 2 ≤ n

theorem limitItems_length {n : Nat} (h : limit = some n) : (limitItems limit items).length ≤ n := by
  rw [h, limitItems, length_drop]
  omega

theorem repeatsReview_normalizeItem (review answer : ConversationItem) :
    repeatsReview (some (normalizeItem review)) answer = repeatsReview (some review) answer := by
  cases answer with
  | message id role text images =>
      cases role with
      | user => rfl
      | assistant =>
          cases review with
          | _ => rfl
  | _ => rfl

theorem unrepeated_limited :
    Unrepeated (limitItems limit ((dropRepeatedReviews none items).map normalizeItem)) ↔ ¬CutToReview limit items := by
  rw [Unrepeated, isChain_iff_forall_rel_of_append_cons_cons]
  constructor
  · rintro h ⟨before, review, answer, after, heq, hrepeats, hlimit⟩
    have hkept : ∃ front, limitItems limit ((dropRepeatedReviews none items).map normalizeItem) =
        front ++ normalizeItem review :: normalizeItem answer :: after.map normalizeItem := by
      rw [heq, map_append, map_cons, map_cons]
      obtain ⟨front, -, hfro⟩ := @limitItems_keeps (before.map normalizeItem)
        (normalizeItem answer :: after.map normalizeItem) (normalizeItem review) limit fun n hn => by
          have := hlimit n hn
          rw [length_cons, length_map]
          omega
      exact ⟨front, hfro⟩
    obtain ⟨front, hfro⟩ := hkept
    have hfalse := h hfro
    rw [repeatsReview_normalizeItem, hrepeats] at hfalse
    cases hfalse
  · intro h a b front back heq
    by_contra hrepeats
    obtain ⟨dropped, hdropped⟩ := @limitItems_suffix ((dropRepeatedReviews none items).map normalizeItem) limit
    rw [heq, ← append_assoc] at hdropped
    obtain ⟨before, rest, hits, -, hrest⟩ := map_eq_append_iff.mp hdropped.symm
    obtain ⟨review, more, rfl, rfl, hmore⟩ := map_eq_cons_iff.mp hrest
    obtain ⟨answer, after, rfl, rfl, rfl⟩ := map_eq_cons_iff.mp hmore
    refine h ⟨before, review, answer, after, hits, ?_, fun n hn => ?_⟩
    · rw [repeatsReview_normalizeItem] at hrepeats
      exact Bool.eq_true_of_not_eq_false hrepeats
    · have hlen := @limitItems_length ((dropRepeatedReviews none items).map normalizeItem) _ _ hn
      rw [heq, length_append, length_cons, length_cons, length_map] at hlen
      omega

section

variable {maxItemsPerThread : Option Nat}

theorem prepareThreadItems_length : (prepareThreadItems items maxItemsPerThread).length ≤
    (limitItems (scrollbackLimit maxItemsPerThread) ((dropRepeatedReviews none items).map normalizeItem)).length := by
  unfold prepareThreadItems
  simp only [truncateOldItems_length]
  exact foldl_pushItem_length.trans (Nat.le_of_eq (Nat.zero_add _))

theorem prepareThreadItems_normal : ∀ x ∈ prepareThreadItems items maxItemsPerThread, normalizeItem x = x := by
  intro x hx
  have hnorm : ∀ y ∈ summarizeExploration (limitItems (scrollbackLimit maxItemsPerThread)
      ((dropRepeatedReviews none items).map normalizeItem)), normalizeItem y = y := by
    refine foldl_pushItem_normal fun y hy => ?_
    obtain ⟨z, -, rfl⟩ := mem_map.mp ((limitItems_suffix _).subset hy)
    exact normalizeItem_normalizeItem z
  obtain ⟨old, hold, rfl | rfl⟩ := mem_truncateOldItems hx
  · exact hnorm _ hold
  · exact normalizeItem_truncateOldItem (hnorm old hold)

theorem prepareThreadItems_folded : Folded (prepareThreadItems items maxItemsPerThread) :=
  (folded_foldl ⟨.nil, fun _ h => by cases h⟩).truncateOldItems

theorem unrepeated_prepareThreadItems : Unrepeated (prepareThreadItems items maxItemsPerThread) ↔
    ¬CutToReview (scrollbackLimit maxItemsPerThread) items :=
  unrepeated_truncateOldItems.trans (unrepeated_foldl.trans unrepeated_limited)

theorem prepareThreadItems_twice (h : Unrepeated (prepareThreadItems items maxItemsPerThread)) :
    prepareThreadItems (prepareThreadItems items maxItemsPerThread) maxItemsPerThread =
      prepareThreadItems items maxItemsPerThread := by
  have hnorm : (prepareThreadItems items maxItemsPerThread).map normalizeItem =
      prepareThreadItems items maxItemsPerThread :=
    (map_congr_left prepareThreadItems_normal).trans (map_id _)
  have hlimit : limitItems (scrollbackLimit maxItemsPerThread) (prepareThreadItems items maxItemsPerThread) =
      prepareThreadItems items maxItemsPerThread := by
    cases hn : scrollbackLimit maxItemsPerThread with
    | none => rfl
    | some n =>
        have hle := prepareThreadItems_length.trans
          (@limitItems_length ((dropRepeatedReviews none items).map normalizeItem) _ _ hn)
        exact (congrArg (drop · _) (Nat.sub_eq_zero_of_le hle)).trans drop_zero
  have hsum : summarizeExploration (prepareThreadItems items maxItemsPerThread) =
      prepareThreadItems items maxItemsPerThread := foldl_of_folded prepareThreadItems_folded
  have hold : truncateOldItems (prepareThreadItems items maxItemsPerThread) =
      prepareThreadItems items maxItemsPerThread := truncateOldItems_truncateOldItems
  rw [prepareThreadItems]
  simp only [unrepeated_iff.mp h, hnorm, hlimit, hsum, hold]

theorem prepareThreadItems_shorter (h : ¬Unrepeated (prepareThreadItems items maxItemsPerThread)) :
    prepareThreadItems (prepareThreadItems items maxItemsPerThread) maxItemsPerThread ≠
      prepareThreadItems items maxItemsPerThread := by
  intro heq
  have hle := @prepareThreadItems_length (prepareThreadItems items maxItemsPerThread) maxItemsPerThread
  have hlimit := (@limitItems_suffix ((dropRepeatedReviews none
    (prepareThreadItems items maxItemsPerThread)).map normalizeItem) (scrollbackLimit maxItemsPerThread)).length_le
  rw [length_map] at hlimit
  rw [heq] at hle
  exact h (unrepeated_iff.mpr (dropRepeatedReviews_sublist.eq_of_length_le (hle.trans hlimit)))

end

/-- Preparing again changes nothing unless an answer repeats a review only since it was cut. -/
theorem preparing_idempotent_iff (items : List ConversationItem) (maxItemsPerThread : Option ℚ) :
    prepareThreadItems (prepareThreadItems items (settingOf maxItemsPerThread)) (settingOf maxItemsPerThread) =
        prepareThreadItems items (settingOf maxItemsPerThread) ↔
      ¬CutToReview (scrollbackLimit (settingOf maxItemsPerThread)) items := by
  rw [← unrepeated_prepareThreadItems]
  refine ⟨fun heq => ?_, prepareThreadItems_twice⟩
  by_contra h
  exact prepareThreadItems_shorter h heq

end

/-! ## An answer that repeats the review when it is cut -/

def longText : JsString := replicate 20001 97

def longAnswer : ConversationItem := .message [2] .assistant longText none

/-- The review says what the answer says up to the length at which answers are cut. -/
def cutReview : ConversationItem := .review [1] .completed (truncateText longText MAX_ITEM_TEXT)

theorem trim_of_forall {text : JsString} (h : ∀ u ∈ text, isWhitespace u = false) : trim text = text := by
  have hfro : text.dropWhile isWhitespace = text :=
    dropWhile_eq_self_iff.mpr fun hpos => by simp [h _ (getElem_mem hpos)]
  rw [trim, hfro]
  exact rdropWhile_eq_self_iff.mpr fun hne => by simp [h _ (getLast_mem hne)]

theorem cut_answer_dropped_later : ¬∀ (items : List ConversationItem) (maxItemsPerThread : Option ℚ),
    prepareThreadItems (prepareThreadItems items (settingOf maxItemsPerThread)) (settingOf maxItemsPerThread) =
      prepareThreadItems items (settingOf maxItemsPerThread) := by
  intro h
  have hlong : longText.length = 20001 := length_replicate
  have hcut : truncateText longText MAX_ITEM_TEXT = replicate 19997 97 ++ ofLiteral "..." := by
    rw [truncateText, if_neg (by rw [hlong]; decide), longText, take_replicate]
    rfl
  have hpl : ∀ n, ∀ u ∈ replicate n (97 : UInt16), isWhitespace u = false := by
    intro n u hu
    rw [eq_of_mem_replicate hu]
    rfl
  have hdiffer : repeatsReview (some cutReview) longAnswer = false := by
    refine beq_eq_false_iff_ne.mpr fun heq => ?_
    have hdots : ∀ u ∈ ofLiteral "...", isWhitespace u = false := by
      intro u hu
      rw [show u = 46 from eq_of_mem_replicate (n := 3) hu]
      rfl
    have htrim : trim longText = longText := trim_of_forall (hpl 20001)
    have htrimCut : trim (replicate 19997 97 ++ ofLiteral "...") = replicate 19997 97 ++ ofLiteral "..." :=
      trim_of_forall fun u hu => (mem_append.mp hu).elim (hpl 19997 u) (hdots u)
    rw [htrim, hcut, htrimCut] at heq
    have hlen := congrArg length heq
    rw [hlong, length_append, length_replicate] at hlen
    exact absurd hlen (by decide)
  refine prepareThreadItems_shorter (fun hun => ?_) (h [cutReview, longAnswer] none)
  refine unrepeated_prepareThreadItems.mp hun ⟨[], cutReview, longAnswer, [], ?_, beq_self_eq_true _, fun n hn => by cases hn⟩
  rw [dropRepeatedReviews_cons, if_neg (by decide), dropRepeatedReviews_cons, hdiffer]
  rfl

end CodexStudy.Desktop
