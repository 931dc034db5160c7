import CodexStudy.Desktop.Lemmas.PrepareItems
import CodexStudy.Lib.Transition
import Mathlib.Data.List.Infix

/-!
# Streamed text

The text of an item is what its deltas say exactly when no delta begins the way the text so far begins or ends, and when
a message does not repeat a review.
-/

namespace CodexStudy.Desktop

open CodexStudy.Lib JsString List ThreadState Nat

/-! ## Overlaps -/

/-- The delta begins neither the text nor with an end of it. -/
def NoOverlap (text delta : JsString) : Prop :=
  ¬delta <+: text ∧ ∀ part ∈ delta.inits, part ≠ [] → ¬part <:+ text

instance (text delta : JsString) : Decidable (NoOverlap text delta) := inferInstanceAs (Decidable (_ ∧ _))

section

variable {text delta : JsString}

theorem startsWith_iff {s start : JsString} : startsWith s start = true ↔ start <+: s := isPrefixOf_iff_prefix

theorem endsWith_iff {s ending : JsString} : endsWith s ending = true ↔ ending <:+ s := isSuffixOf_iff_suffix

theorem mergeOverlap_cases (length : Nat) :
    (∃ n, 0 < n ∧ n ≤ length ∧ delta.take n <:+ text ∧ mergeOverlap text delta length = text ++ delta.drop n) ∨
      mergeOverlap text delta length = text ++ delta ∧ ∀ n, 0 < n → n ≤ length → ¬delta.take n <:+ text := by
  induction length with
  | zero => exact .inr ⟨rfl, fun n hpos hle => absurd hle (not_le.mpr hpos)⟩
  | succ length ih =>
      unfold mergeOverlap
      split
      next hends => exact .inl ⟨length + 1, succ_pos length, le_refl _, endsWith_iff.mp hends, rfl⟩
      next hends =>
        rcases ih with ⟨n, hpos, hle, hsuf, heq⟩ | ⟨heq, hnone⟩
        · exact .inl ⟨n, hpos, le_succ_of_le hle, hsuf, heq⟩
        · refine .inr ⟨heq, fun n hpos hle => ?_⟩
          rcases le_succ_iff.mp hle with hle | rfl
          · exact hnone n hpos hle
          · exact fun hsuf => hends (endsWith_iff.mpr hsuf)

theorem mergeStreamingText_append (h : NoOverlap text delta) : mergeStreamingText text delta = text ++ delta := by
  have hpart : ∀ n, 0 < n → delta ≠ [] → ¬delta.take n <:+ text := by
    intro n hpos hdel
    refine h.2 _ ((mem_inits _ _).mpr ( take_prefix n delta)) ?_
    cases delta with
    | nil => exact absurd rfl hdel
    | cons u rest =>
        obtain ⟨n, rfl⟩ := exists_eq_add_one_of_ne_zero hpos.ne'
        exact cons_ne_nil u _
  unfold mergeStreamingText
  split
  next hdel => exact absurd (hdel ▸ nil_prefix) h.1
  next hdel =>
    split
    next htext => rw [htext, nil_append]
    next htext =>
      split
      next heq => exact absurd (heq ▸ prefix_rfl) h.1
      next =>
        split
        next hst =>
          obtain ⟨rest, rfl⟩ := startsWith_iff.mp hst
          refine absurd ?_ (hpart text.length (length_pos_iff.mpr htext) hdel)
          rw [take_left]
        next =>
          split
          next hst => exact absurd (startsWith_iff.mp hst) h.1
          next =>
            rcases @mergeOverlap_cases text delta (min text.length delta.length) with
              ⟨n, hpos, -, hsuf, -⟩ | ⟨heq, -⟩
            · exact absurd hsuf (hpart n hpos hdel)
            · exact heq

theorem mergeStreamingText_shorter (hdel : delta ≠ []) (h : ¬NoOverlap text delta) :
    (mergeStreamingText text delta).length < text.length + delta.length := by
  have hpos : 0 < delta.length := length_pos_iff.mpr hdel
  have htext : text ≠ [] := by
    rintro rfl
    refine h ⟨fun hbeg => hdel (prefix_nil.mp hbeg), fun part _ hne hsuf => ?_⟩
    exact hne (suffix_nil.mp hsuf)
  have htextPos : 0 < text.length := length_pos_iff.mpr htext
  unfold mergeStreamingText
  rw [if_neg hdel, if_neg htext]
  split
  next => omega
  next =>
    split
    next => omega
    next =>
      split
      next => omega
      next hst =>
        rcases @mergeOverlap_cases text delta (min text.length delta.length) with
          ⟨n, hn, hle, -, heq⟩ | ⟨-, hnone⟩
        · rw [heq, length_append, length_drop]
          omega
        · refine absurd ⟨fun hbeg => hst (startsWith_iff.mpr hbeg), fun part hpart hne hsuf => ?_⟩ h
          have hbeg := (mem_inits _ _).mp hpart
          refine hnone part.length (length_pos_iff.mpr hne) ?_ ?_
          · exact le_min hsuf.length_le hbeg.length_le
          · rw [← prefix_iff_eq_take.mp hbeg]
            exact hsuf

theorem mergeStreamingText_length_le : (mergeStreamingText text delta).length ≤ text.length + delta.length := by
  by_cases h : NoOverlap text delta
  · rw [mergeStreamingText_append h, length_append]
  · by_cases hdel : delta = []
    · rw [mergeStreamingText, if_pos hdel]
      exact le_add_right _ _
    · exact (mergeStreamingText_shorter hdel h).le

end

/-! ## Channels -/

/-- The texts of an item that deltas are added to. -/
inductive StreamChannel where
  | agentMessage (workspaceId : JsString) (hasCustomName : Bool)
  | reasoningSummary
  | reasoningContent
  | toolOutput
  deriving DecidableEq

namespace StreamChannel

variable (channel : StreamChannel)

def action (threadId itemId delta : JsString) : ThreadAction :=
  match channel with
  | agentMessage workspaceId hasCustomName => .appendAgentDelta workspaceId threadId itemId delta hasCustomName
  | reasoningSummary => .appendReasoningSummary threadId itemId delta
  | reasoningContent => .appendReasoningContent threadId itemId delta
  | toolOutput => .appendToolOutput threadId itemId delta

def textOf : ConversationItem → Option JsString
  | .message _ _ text _ => if channel matches agentMessage _ _ then some text else none
  | .reasoning _ summary content =>
      match channel with
      | reasoningSummary => some summary
      | reasoningContent => some content
      | _ => none
  | .tool item => if channel = toolOutput then some (item.output.getD []) else none
  | _ => none

def streamedText (items : List ConversationItem) (itemId : JsString) : JsString :=
  ((items.find? fun item => item.id == itemId).bind channel.textOf).getD []

/-- A message with the text is shown, as it does not repeat a review. -/
def Shows (items : List ConversationItem) (itemId text : JsString) : Prop :=
  match channel with
  | agentMessage _ _ =>
      repeatsReview (lastShown (items.takeWhile fun item => item.id ≠ itemId)) (.message itemId .assistant text none) = false
  | _ => True

def next (threadId itemId : JsString) (state : ThreadState) (delta : JsString) : ThreadState :=
  threadReducer state (channel.action threadId itemId delta)

/-- The item is new, or it is a tool item without output that is not shown as an explore item. -/
def Starts (state : ThreadState) (threadId itemId : JsString) : Prop :=
  match channel with
  | toolOutput =>
      (∃ before tool after, state.itemsOf threadId = before ++ .tool tool :: after ∧ tool.id = itemId ∧
        itemId ∉ itemIds before ∧ tool.output.getD [] = [] ∧ exploreOf (normalizeItem (.tool tool)) = none) ∧
      ∀ limit, scrollbackLimit state.maxItemsPerThread = some limit → (state.itemsOf threadId).length ≤ limit
  | _ => itemId ∉ itemIds (state.itemsOf threadId)

/-- The text so far and the delta have no overlap, and the item is shown with both. -/
structure Appends (threadId itemId : JsString) (state : ThreadState) (delta : JsString) : Prop where
  noOverlap : NoOverlap (channel.streamedText (state.itemsOf threadId) itemId) delta
  shows : channel.Shows (state.itemsOf threadId) itemId
    (channel.streamedText (state.itemsOf threadId) itemId ++ delta)

def Shape (itemId text : JsString) (after : List ConversationItem) (item : ConversationItem) : Prop :=
  match channel with
  | agentMessage _ _ => item = .message itemId .assistant text none ∧ after = []
  | reasoningSummary => item = .reasoning itemId text [] ∧ after = []
  | reasoningContent => item = .reasoning itemId [] text ∧ after = []
  | toolOutput => ∃ tool, item = .tool tool ∧ tool.id = itemId ∧ tool.output.getD [] = text ∧
      exploreOf (normalizeItem (.tool tool)) = none

structure Streams (maxItemsPerThread : Option Nat) (itemId text : JsString) (items : List ConversationItem) : Prop where
  split : ∃ before item after, items = before ++ item :: after ∧ itemId ∉ itemIds before ∧
    channel.Shape itemId text after item ∧
    ∀ limit, scrollbackLimit maxItemsPerThread = some limit → after.length < limit

/-- What holds from the start on. -/
def Good (maxItemsPerThread : Option Nat) (itemId : JsString) (items : List ConversationItem) : Prop :=
  (∃ text, channel.Streams maxItemsPerThread itemId text items) ∨ channel ≠ toolOutput ∧ itemId ∉ itemIds items

end StreamChannel

section

variable {channel : StreamChannel} {maxItemsPerThread : Option Nat} {itemId text : JsString}
  {items before after : List ConversationItem} {item : ConversationItem}

/-! ## An item keeps its text -/

theorem output_truncated {output : Option JsString} (truncate : JsString → JsString)
    (htext : truncate (output.getD []) = output.getD []) : (output.map truncate).getD [] = output.getD [] := by
  cases output with
  | none => rfl
  | some text => exact htext

variable (h : channel.Shape itemId text after item)

include h in
theorem shape_normalizeItem (hlen : text.length ≤ MAX_ITEM_TEXT)
    {after' : List ConversationItem} (haft : after'.length ≤ after.length) :
    channel.Shape itemId text after' (normalizeItem item) ∧
      channel.Shape itemId text after' (truncateOldItem (normalizeItem item)) := by
  have hemp : after = [] → after' = [] := by
    rintro rfl
    exact eq_nil_of_length_eq_zero (le_zero.mp haft)
  have htext := truncateText_of_le hlen
  have hnil : truncateText [] MAX_ITEM_TEXT = [] := truncateText_of_le (zero_le _)
  cases channel with
  | agentMessage workspaceId hasCustomName =>
      obtain ⟨rfl, hlast⟩ := h
      simp only [StreamChannel.Shape, normalizeItem, truncateOldItem, htext, hemp hlast, and_self]
  | reasoningSummary =>
      obtain ⟨rfl, hlast⟩ := h
      simp only [StreamChannel.Shape, normalizeItem, truncateOldItem, htext, hnil, hemp hlast, and_self]
  | reasoningContent =>
      obtain ⟨rfl, hlast⟩ := h
      simp only [StreamChannel.Shape, normalizeItem, truncateOldItem, htext, hnil, hemp hlast, and_self]
  | toolOutput =>
      obtain ⟨tool, rfl, hid, rfl, hexplore⟩ := h
      have hout : (tool.output.map (truncateToolText tool.toolType)).getD [] = tool.output.getD [] :=
        output_truncated _ (truncateToolText_of_le _ hlen)
      have htitle : truncateText (truncateText tool.title 200) 200 = truncateText tool.title 200 :=
        truncateText_truncateText tool.title (by decide)
      have hsame : ∀ other : ToolItem, other.id = tool.id → other.toolType = tool.toolType → other.status = tool.status →
          other.title = truncateText tool.title 200 → exploreOf (normalizeItem (.tool other)) = none := by
        intro other hid htype hstatus h
        have htwice : (normalizeTool other).title = (normalizeTool tool).title :=
          (congrArg (truncateText · 200) h).trans htitle
        exact (exploreOf_tool_congr (a := normalizeTool other) (b := normalizeTool tool) hid htype hstatus htwice).trans
          hexplore
      refine ⟨⟨normalizeTool tool, rfl, hid, hout, ?_⟩, ⟨_, rfl, hid, ?_, ?_⟩⟩
      · exact hsame _ rfl rfl rfl rfl
      · refine (output_truncated (truncateText · MAX_ITEM_TEXT) ?_).trans hout
        exact truncateText_of_le (hout.symm ▸ hlen)
      · exact hsame _ rfl rfl rfl rfl

/-! ## One step -/

include h in
theorem shape_id : item.id = itemId := by
  cases channel with
  | toolOutput =>
      obtain ⟨tool, rfl, hid, -⟩ := h
      exact hid
  | _ =>
      obtain ⟨rfl, -⟩ := h
      rfl

include h in
theorem shape_textOf : channel.textOf item = some text := by
  cases channel with
  | toolOutput =>
      obtain ⟨tool, rfl, -, rfl, -⟩ := h
      rfl
  | _ =>
      obtain ⟨rfl, -⟩ := h
      rfl

include h in
theorem shape_exploreOf : exploreOf (normalizeItem item) = none := by
  cases channel with
  | toolOutput =>
      obtain ⟨tool, rfl, -, -, hexplore⟩ := h
      exact hexplore
  | _ =>
      obtain ⟨rfl, -⟩ := h
      rfl

theorem takeWhile_split (h : itemId ∉ itemIds before) (haft : ∀ y ∈ after.head?, y.id = itemId) :
    ((before ++ after).takeWhile fun item => item.id ≠ itemId) = before := by
  rw [takeWhile_append_of_pos fun y hy => decide_eq_true (ne_of_not_mem_itemIds h y hy)]
  cases after with
  | nil => rw [takeWhile_nil, append_nil]
  | cons y after =>
      have hy : ¬decide (y.id ≠ itemId) = true := fun hne => of_decide_eq_true hne (haft y rfl)
      rw [takeWhile_cons, if_neg hy, append_nil]

theorem takeWhile_own (h : itemId ∉ itemIds before) : (before.takeWhile fun item => item.id ≠ itemId) = before :=
  takeWhile_eq_self_iff.mpr fun y hy => decide_eq_true (ne_of_not_mem_itemIds h y hy)

theorem shows_split (h : itemId ∉ itemIds before) (haft : ∀ y ∈ after.head?, y.id = itemId) :
    channel.Shows (before ++ after) itemId text ↔ channel.Shows before itemId text := by
  cases channel with
  | agentMessage workspaceId hasCustomName =>
      unfold StreamChannel.Shows
      simp only
      rw [takeWhile_split h haft, takeWhile_own h]
  | _ => exact Iff.rfl

theorem shows_iff (h : itemId ∉ itemIds before) (hshp : channel.Shape itemId text after item) :
    channel.Shows before itemId text ↔ repeatsReview (lastShown before) item = false := by
  cases channel with
  | agentMessage workspaceId hasCustomName =>
      obtain ⟨rfl, -⟩ := hshp
      unfold StreamChannel.Shows
      simp only
      rw [takeWhile_own h]
  | toolOutput =>
      obtain ⟨tool, rfl, -⟩ := hshp
      exact iff_of_true trivial rfl
  | _ =>
      obtain ⟨rfl, -⟩ := hshp
      exact iff_of_true trivial rfl

theorem prepare_shape (hbef : itemId ∉ itemIds before) (hshp : channel.Shape itemId text after item)
    (hfits : ∀ limit, scrollbackLimit maxItemsPerThread = some limit → after.length < limit)
    (hlen : text.length ≤ MAX_ITEM_TEXT) : (channel.Shows before itemId text →
      channel.Streams maxItemsPerThread itemId text (prepareThreadItems (before ++ item :: after) maxItemsPerThread)) ∧
    (¬channel.Shows before itemId text → channel ≠ .toolOutput ∧
      itemId ∉ itemIds (prepareThreadItems (before ++ item :: after) maxItemsPerThread)) := by
  rw [shows_iff hbef hshp, Bool.not_eq_false]
  constructor
  · intro hshows
    obtain ⟨before', item', after', heq, hids, -, haft, hitem⟩ :=
      prepareThreadItems_split hshows (shape_exploreOf hshp) hfits
    refine ⟨before', item', after', heq, fun hmem => hbef (hids hmem), ?_,
      fun limit hlimit => haft.trans_lt (hfits limit hlimit)⟩
    obtain ⟨hnormalized, hold⟩ := shape_normalizeItem hshp hlen haft
    rcases hitem with rfl | rfl
    · exact hnormalized
    · exact hold
  · intro hrepeats
    have hlast : channel ≠ .toolOutput ∧ after = [] := by
      cases channel with
      | toolOutput =>
          obtain ⟨tool, rfl, -⟩ := hshp
          cases hrepeats
      | _ => exact ⟨fun h => (by cases h), hshp.2⟩
    refine ⟨hlast.1, fun hmem => hbef ?_⟩
    have hsub := prepareThreadItems_drop hrepeats hmem
    rwa [hlast.2, append_nil] at hsub

theorem streamedText_split (h : itemId ∉ itemIds before) (hshp : channel.Shape itemId text after item) :
    channel.streamedText (before ++ item :: after) itemId = text := by
  rw [StreamChannel.streamedText, find?_split h (shape_id hshp), Option.bind_some, shape_textOf hshp]
  rfl

theorem streamedText_of_not_mem (h : itemId ∉ itemIds items) : channel.streamedText items itemId = [] := by
  rw [StreamChannel.streamedText, find?_of_not_mem h]
  rfl

theorem mergeStreamingText_nil (delta : JsString) : mergeStreamingText [] delta = delta := by
  unfold mergeStreamingText
  split
  next hdel => exact hdel.symm
  next => rfl

variable {state : ThreadState} {threadId delta : JsString}

theorem maybeRename_same (workspaceId : JsString) (hasCustomName : Bool) :
    (state.maybeRenameThreadFromAgent workspaceId threadId items itemId hasCustomName).itemsByThread =
      state.itemsByThread ∧
    (state.maybeRenameThreadFromAgent workspaceId threadId items itemId hasCustomName).maxItemsPerThread =
      state.maxItemsPerThread := by
  unfold maybeRenameThreadFromAgent
  split
  next => exact ⟨rfl, rfl⟩
  next =>
    split
    next => exact ⟨rfl, rfl⟩
    next => exact ⟨rfl, rfl⟩

theorem next_eq : channel.next threadId itemId state delta =
    state.reduceThreadItems (channel.action threadId itemId delta) := by
  cases channel with
  | _ => rfl

theorem reduceToolOutput_eq {tool : ToolItem}
    (h : ((state.itemsOf threadId).find? fun item => item.id == itemId) = some (.tool tool)) :
    state.reduceToolOutput threadId itemId delta = state.setItems threadId (modifyItem itemId
      (fun _ => .tool { tool with output := some (mergeStreamingText (tool.output.getD []) delta) })
      (state.itemsOf threadId)) := by
  unfold reduceToolOutput
  simp only [h]

theorem next_maxItemsPerThread :
    (channel.next threadId itemId state delta).maxItemsPerThread = state.maxItemsPerThread := by
  cases channel with
  | agentMessage workspaceId hasCustomName => exact (maybeRename_same workspaceId hasCustomName).2
  | toolOutput =>
      unfold StreamChannel.next
      simp only [threadReducer, StreamChannel.action, reduceThreadLifecycle, reduceThreadItems,
        reduceToolOutput]
      split
      next => rfl
      next => rfl
  | _ => rfl

theorem reduceAgentDelta_items (workspaceId : JsString) (hasCustomName : Bool) :
    (state.reduceAgentDelta workspaceId threadId itemId delta hasCustomName).itemsOf threadId = prepareThreadItems
      (match (state.itemsOf threadId).find? fun item => item.id == itemId with
      | some (.message id role text images) =>
          modifyItem itemId (fun _ => .message id role (mergeStreamingText text delta) images) (state.itemsOf threadId)
      | _ => state.itemsOf threadId ++ [.message itemId .assistant delta none]) state.maxItemsPerThread := by
  unfold reduceAgentDelta
  rw [itemsOf, (maybeRename_same workspaceId hasCustomName).1]
  exact itemsOf_setItems _

variable (hgood : channel.Good state.maxItemsPerThread itemId (state.itemsOf threadId))

include hgood in
theorem next_items :
    ∃ before rest item after, state.itemsOf threadId = before ++ rest ∧ (∀ y ∈ rest.head?, y.id = itemId) ∧
      itemId ∉ itemIds before ∧
      channel.Shape itemId (mergeStreamingText (channel.streamedText (state.itemsOf threadId) itemId) delta) after item ∧
      (∀ limit, scrollbackLimit state.maxItemsPerThread = some limit → after.length < limit) ∧
      (channel.next threadId itemId state delta).itemsOf threadId =
        prepareThreadItems (before ++ item :: after) state.maxItemsPerThread := by
  rw [next_eq]
  rcases hgood with ⟨text, before, item, after, hits, hbef, hshp, hfits⟩ | ⟨htool, hnew⟩
  · have hid := shape_id hshp
    have htext : channel.streamedText (state.itemsOf threadId) itemId = text := hits ▸ streamedText_split hbef hshp
    have hfind : ((state.itemsOf threadId).find? fun item => item.id == itemId) = some item :=
      hits ▸ find?_split hbef hid
    have hmodify := fun f => congrArg (modifyItem itemId f) hits |>.trans (modifyItem_split hbef hid f)
    have hhead : ∀ y ∈ (item :: after).head?, y.id = itemId := fun y hy => Option.some.inj hy ▸ hid
    rw [htext]
    cases channel with
    | agentMessage workspaceId hasCustomName =>
        obtain ⟨rfl, rfl⟩ := hshp
        refine ⟨before, _, _, [], hits, hhead, hbef, ⟨rfl, rfl⟩, hfits, ?_⟩
        refine (reduceAgentDelta_items workspaceId hasCustomName).trans ?_
        simp only [hfind, hmodify]
    | reasoningSummary =>
        obtain ⟨rfl, rfl⟩ := hshp
        refine ⟨before, _, _, [], hits, hhead, hbef, ⟨rfl, rfl⟩, hfits, ?_⟩
        refine (itemsOf_setItems _).trans ?_
        simp only [hfind, hmodify]
    | reasoningContent =>
        obtain ⟨rfl, rfl⟩ := hshp
        refine ⟨before, _, _, [], hits, hhead, hbef, ⟨rfl, rfl⟩, hfits, ?_⟩
        refine (itemsOf_setItems _).trans ?_
        simp only [hfind, hmodify]
    | toolOutput =>
        obtain ⟨tool, rfl, htool, rfl, hexplore⟩ := hshp
        refine ⟨before, _, .tool { tool with output := some (mergeStreamingText (tool.output.getD []) delta) }, after,
          hits, hhead, hbef, ⟨_, rfl, htool, rfl, (exploreOf_tool_congr rfl rfl rfl rfl).trans hexplore⟩, hfits, ?_⟩
        rw [← hmodify fun _ => .tool { tool with output := some (mergeStreamingText (tool.output.getD []) delta) },
          ← itemsOf_setItems, ← reduceToolOutput_eq hfind]
        rfl
  · have hfind := find?_of_not_mem hnew
    rw [streamedText_of_not_mem hnew]
    have hhead : ∀ y ∈ ([] : List ConversationItem).head?, y.id = itemId := fun y hy => (by cases hy)
    have hfits : ∀ limit, scrollbackLimit state.maxItemsPerThread = some limit →
        ([] : List ConversationItem).length < limit := fun limit hlimit => scrollbackLimit_pos hlimit
    cases channel with
    | agentMessage workspaceId hasCustomName =>
        refine ⟨state.itemsOf threadId, [], _, [], (append_nil _).symm, hhead, hnew, ⟨rfl, rfl⟩, hfits, ?_⟩
        refine (reduceAgentDelta_items workspaceId hasCustomName).trans ?_
        rw [hfind, mergeStreamingText_nil]
    | toolOutput => exact absurd rfl htool
    | _ =>
        refine ⟨state.itemsOf threadId, [], _, [], (append_nil _).symm, hhead, hnew, ⟨rfl, rfl⟩, hfits, ?_⟩
        refine (itemsOf_setItems _).trans ?_
        rw [hfind]

theorem streams_text (h : channel.Streams maxItemsPerThread itemId text items) :
    channel.streamedText items itemId = text := by
  obtain ⟨before, item, after, rfl, hbef, hshp, -⟩ := h
  exact streamedText_split hbef hshp

include hgood in
theorem next_spec (hdel : delta ≠ [])
    (hlen : (channel.streamedText (state.itemsOf threadId) itemId).length + delta.length ≤ MAX_ITEM_TEXT) :
    channel.Good (channel.next threadId itemId state delta).maxItemsPerThread itemId
      ((channel.next threadId itemId state delta).itemsOf threadId) ∧ (channel.Appends threadId itemId state delta →
      channel.streamedText ((channel.next threadId itemId state delta).itemsOf threadId) itemId =
        channel.streamedText (state.itemsOf threadId) itemId ++ delta) ∧ (¬channel.Appends threadId itemId state delta →
      (channel.streamedText ((channel.next threadId itemId state delta).itemsOf threadId) itemId).length <
        (channel.streamedText (state.itemsOf threadId) itemId).length + delta.length) := by
  obtain ⟨before, rest, item, after, hits, hhead, hbef, hshp, hfits, hnext⟩ :=
    @next_items _ _ _ _ delta hgood
  have hprepare := prepare_shape hbef hshp hfits (mergeStreamingText_length_le.trans hlen)
  have hshows : ∀ text, channel.Shows (state.itemsOf threadId) itemId text ↔ channel.Shows before itemId text :=
    fun text => hits ▸ shows_split hbef hhead
  rw [next_maxItemsPerThread, hnext]
  by_cases hshn : channel.Shows before itemId
      (mergeStreamingText (channel.streamedText (state.itemsOf threadId) itemId) delta)
  · have hstreams := hprepare.1 hshn
    rw [streams_text hstreams]
    refine ⟨.inl ⟨_, hstreams⟩, fun happends => mergeStreamingText_append happends.noOverlap, fun happends => ?_⟩
    refine mergeStreamingText_shorter hdel fun hno => happends ⟨hno, (hshows _).mpr ?_⟩
    rwa [mergeStreamingText_append hno] at hshn
  · obtain ⟨htool, hnew⟩ := hprepare.2 hshn
    rw [streamedText_of_not_mem hnew]
    refine ⟨.inr ⟨htool, hnew⟩, fun happends => absurd ?_ hshn, fun _ => ?_⟩
    · rw [mergeStreamingText_append happends.noOverlap]
      exact (hshows _).mp happends.shows
    · exact Nat.add_pos_right _ (length_pos_iff.mpr hdel)

/-! ## Runs -/

def StreamChannel.stream (channel : StreamChannel) (threadId itemId : JsString) (state : ThreadState)
    (deltas : List JsString) : ThreadState := deltas.foldl (channel.next threadId itemId) state

variable {deltas : List JsString}

include hgood in
theorem stream_length_le (hne : ∀ delta ∈ deltas, delta ≠ []) (hlen :
      (channel.streamedText (state.itemsOf threadId) itemId).length + deltas.flatten.length ≤ MAX_ITEM_TEXT) :
    (channel.streamedText ((channel.stream threadId itemId state deltas).itemsOf threadId) itemId).length ≤
      (channel.streamedText (state.itemsOf threadId) itemId).length + deltas.flatten.length := by
  induction deltas generalizing state with
  | nil => exact le_add_right _ _
  | cons delta rest ih =>
      rw [flatten_cons, length_append] at hlen ⊢
      obtain ⟨hgood', happends, hshorter⟩ := next_spec hgood (hne delta mem_cons_self) (by omega)
      have hstep : (channel.streamedText ((channel.next threadId itemId state delta).itemsOf threadId) itemId).length ≤
          (channel.streamedText (state.itemsOf threadId) itemId).length + delta.length := by
        by_cases h : channel.Appends threadId itemId state delta
        · rw [happends h, length_append]
        · exact (hshorter h).le
      have hrest := ih hgood' (fun delta hmem => hne delta (mem_cons_of_mem _ hmem)) (by omega)
      refine hrest.trans ?_
      omega

include hgood in
theorem stream_append_iff (hne : ∀ delta ∈ deltas, delta ≠ []) (hlen :
      (channel.streamedText (state.itemsOf threadId) itemId).length + deltas.flatten.length ≤ MAX_ITEM_TEXT) :
    channel.streamedText ((channel.stream threadId itemId state deltas).itemsOf threadId) itemId =
        channel.streamedText (state.itemsOf threadId) itemId ++ deltas.flatten ↔
      StepsMeet (fun state delta state' => channel.next threadId itemId state delta = state')
        (channel.Appends threadId itemId) state deltas := by
  induction deltas generalizing state with
  | nil => exact iff_of_true (append_nil _).symm stepsMeet_nil
  | cons delta rest ih =>
      rw [flatten_cons, length_append] at hlen
      obtain ⟨hgood', happends, hshorter⟩ := next_spec hgood (hne delta mem_cons_self) (by omega)
      have hneRest : ∀ delta ∈ rest, delta ≠ [] := fun delta hmem => hne delta (mem_cons_of_mem _ hmem)
      rw [stepsMeet_cons_iff, flatten_cons]
      by_cases h : channel.Appends threadId itemId state delta
      · have htext := happends h
        rw [and_iff_right h, ← ih hgood' hneRest (by rw [htext, length_append]; omega), htext, append_assoc]
        rfl
      · -- One delta that is not added whole leaves the text too short.
        refine iff_of_false (fun heq => ?_) fun hsts => h hsts.1
        have hle := stream_length_le hgood' hneRest (by have := hshorter h; omega)
        have hcnt := congrArg length heq
        rw [length_append, length_append] at hcnt
        have hlt := hshorter h
        have hsame : channel.stream threadId itemId state (delta :: rest) =
            channel.stream threadId itemId (channel.next threadId itemId state delta) rest := rfl
        rw [hsame] at hcnt
        omega

theorem good_of_starts (h : channel.Starts state threadId itemId) :
    channel.Good state.maxItemsPerThread itemId (state.itemsOf threadId) ∧
      channel.streamedText (state.itemsOf threadId) itemId = [] := by
  cases channel with
  | toolOutput =>
      obtain ⟨⟨before, tool, after, hits, hid, hbef, hout, hexplore⟩, hlimit⟩ := h
      have hstreams : StreamChannel.toolOutput.Streams state.maxItemsPerThread itemId [] (state.itemsOf threadId) := by
        refine ⟨before, .tool tool, after, hits, hbef, ⟨tool, rfl, hid, hout, hexplore⟩, fun limit hle => ?_⟩
        have hlen := hlimit limit hle
        rw [hits, length_append, length_cons] at hlen
        omega
      exact ⟨.inl ⟨[], hstreams⟩, streams_text hstreams⟩
  | _ => exact ⟨.inr ⟨fun heq => (by cases heq), h⟩, streamedText_of_not_mem h⟩

/-- The text of the item is what the deltas say exactly when each of them is added whole. -/
theorem streamedText_iff (hstart : channel.Starts state threadId itemId) (hne : ∀ delta ∈ deltas, delta ≠ [])
    (hlength : deltas.flatten.length ≤ MAX_ITEM_TEXT) :
    channel.streamedText ((channel.stream threadId itemId state deltas).itemsOf threadId) itemId = deltas.flatten ↔
      StepsMeet (fun state delta state' => channel.next threadId itemId state delta = state')
        (channel.Appends threadId itemId) state deltas := by
  obtain ⟨hgood, htext⟩ := good_of_starts hstart
  have hiff := stream_append_iff hgood hne (by rwa [htext, length_nil, zero_add])
  rwa [htext, nil_append] at hiff

/-- A message of the two parts `a` and `b`. -/
theorem streamedText_two_parts : (StreamChannel.agentMessage [] false).streamedText
    (((StreamChannel.agentMessage [] false).stream [] [49] {} [[97], [98]]).itemsOf []) [49] = [97, 98] := by
  have hst : (StreamChannel.agentMessage [] false).Starts {} [] [49] := not_mem_nil
  refine (streamedText_iff hst (by decide) (by decide)).mpr ?_
  refine stepsMeet_cons_iff.mpr ⟨⟨by decide, rfl⟩, stepsMeet_cons_iff.mpr ⟨⟨by decide +kernel, rfl⟩, ?_⟩⟩
  exact stepsMeet_nil

/-- The second of two equal parts is taken for what the first one has said. -/
theorem equal_parts_lost : ¬∀ (channel : StreamChannel) (state : ThreadState) (threadId itemId : JsString)
    (deltas : List JsString), channel.Starts state threadId itemId → (∀ delta ∈ deltas, delta ≠ []) →
    deltas.flatten.length ≤ MAX_ITEM_TEXT →
    channel.streamedText ((channel.stream threadId itemId state deltas).itemsOf threadId) itemId = deltas.flatten := by
  intro h
  have hlost := h (.agentMessage [] false) {} [] [49] [[97], [97]] not_mem_nil (by decide) (by decide)
  exact absurd hlost (by decide +kernel)

end

end CodexStudy.Desktop
