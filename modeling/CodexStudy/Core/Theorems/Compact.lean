import CodexStudy.Core.Compact
import CodexStudy.Lib.Ascii
import Mathlib.Logic.Relation

/-!
# Repeated compaction

After each compaction the history has one summary, at its end, and the newest of all user messages that there have
been.
-/

namespace CodexStudy.Core

open CodexStudy.Lib List Text

def tokenCount (messages : List Text) : Nat := (messages.map approxTokenCount).sum

/-- The text comes from the message by truncating it once or more often. -/
def TruncatedFrom : Text → Text → Prop :=
  Relation.TransGen fun message text => ∃ policy, text = truncateText message policy

/-- The kept messages are the newest ones, `verbatim` or with a truncated one before them. -/
inductive KeptFrom (messages : List Text) : List Text → List Text → Prop where
  | whole {verbatim : List Text} : verbatim <:+ messages → KeptFrom messages verbatim verbatim
  | truncated {message text : Text} {verbatim : List Text} :
      message :: verbatim <:+ messages → TruncatedFrom message text → KeptFrom messages (text :: verbatim) verbatim

variable (rd : ItemReaders)

def IsSummaryItem (item : ResponseItem) : Prop :=
  ∃ user, parseTurnItem rd item = some (.userMessage user) ∧ isSummaryMessage user.message = true

/-- What a history is like after a compaction. -/
structure Compacted (rd : ItemReaders) (thread : CompactedThread) : Prop where
  summaryLast : ∃ before summary, thread.history = before ++ [summary] ∧ IsSummaryItem rd summary ∧
    ∀ item ∈ before, ¬IsSummaryItem rd item
  newest : ∃ verbatim, KeptFrom thread.userMessages (collectUserMessages rd thread.history) verbatim ∧
    tokenCount verbatim ≤ COMPACT_USER_MESSAGE_MAX_TOKENS

/-- The message is a user message also when it is one text. -/
def ReadsBack (message : Text) : Prop :=
  isContextualUserFragment rd (.inputText message) = false

/-- The messages that a compaction keeps are user messages when they are one text, except for the oldest one. -/
def KeepsUserMessages (thread : CompactedThread) : CompactionStep → Prop
  | .append _ => True
  | .compact _ _ => ∀ older message newer, collectUserMessages rd thread.history = older ++ message :: newer →
      older ≠ [] → tokenCount (message :: newer) < COMPACT_USER_MESSAGE_MAX_TOKENS → ReadsBack rd message

/-- An XML document starts with a tag and not with a letter. -/
def PromptStartsWithTag : Prop :=
  ∀ c text, c.isAlpha = true → rd.parseHookPromptFragment (c :: text) = false

variable {c : Char} {message : Text} {remaining : Nat} {newest : List Text}
    {initialContext : Option (List ResponseItem)} {thread : CompactedThread}

section

variable {rd : ItemReaders}

/-! ## Items of one text -/

theorem parseTurnItem_userItem (text : Text) : parseTurnItem rd (userItem text) =
    if isVisibleHookPromptMessage rd [.inputText text] then some .hookPrompt
    else (parseUserMessage rd [.inputText text]).map .userMessage := by
  unfold userItem parseTurnItem
  exact if_pos rfl

theorem isContextualUserMessageContent_text (text : Text) :
    isContextualUserMessageContent rd [.inputText text] = isContextualUserFragment rd (.inputText text) :=
  Bool.or_false _

variable {text : Text} {items : List ResponseItem} {messages verbatim kept : List Text}

theorem parseTurnItem_userItem_of_readsBack (h : ReadsBack rd text) :
    parseTurnItem rd (userItem text) = some (.userMessage ⟨[.text text]⟩) := by
  have hpr : isVisibleHookPromptMessage rd [.inputText text] = false := by
    obtain ⟨hfragment, hstandard⟩ := Bool.or_eq_false_iff.mp h
    simp only [isVisibleHookPromptMessage, all_cons, any_cons, hfragment, hstandard, Bool.or_false,
      Bool.false_and]
  have hinputs : userInputs none [.inputText text] = [.text text] := by
    simp only [userInputs, head?_nil, Option.any_none, Bool.and_false, Bool.or_false, Bool.false_eq_true, if_false]
  rw [parseTurnItem_userItem, hpr, parseUserMessage, isContextualUserMessageContent_text, h, hinputs]
  rfl

theorem parseTurnItem_userItem_of_not_readsBack (h : ¬ReadsBack rd text) (user : UserMessageItem) :
    parseTurnItem rd (userItem text) ≠ some (.userMessage user) := by
  have hctx : isContextualUserFragment rd (.inputText text) = true := Bool.of_not_eq_false h
  rw [parseTurnItem_userItem, parseUserMessage, isContextualUserMessageContent_text, hctx]
  split
  next => exact fun heq => (by cases heq)
  next => exact fun heq => (by cases heq)

theorem message_of_text (text : Text) : UserMessageItem.message ⟨[.text text]⟩ = text := append_nil text

theorem summaryPrefix_starts : ∃ rest, SUMMARY_PREFIX = 'A' :: rest := ⟨_, rfl⟩

theorem isStandardContextualUserText_of_letter (hc : c.isAlpha = true) (hW : c ≠ 'W') (rest : Text) :
    isStandardContextualUserText (c :: rest) = false := by
  have hspace : isWhitespace c = false := isWhitespace_of_isAlpha hc
  have hst : trimStart (c :: rest) = c :: rest :=
    dropWhile_cons_of_neg (Bool.not_eq_true _ ▸ hspace)
  have hleg : isLegacyWarning (c :: rest) = false := by
    have hwarning : ∀ p : Text, p.head? = some 'W' → p.isPrefixOf (trim (c :: rest)) = false := by
      intro p hp
      rw [Bool.eq_false_iff]
      intro hpre
      have htrim : trim (c :: rest) <+: c :: rest := by
        unfold trim trimEnd
        rw [hst]
        exact rdropWhile_prefix ..
      exact not_prefix_of_head? hp (by simpa using hW) (( isPrefixOf_iff_prefix.mp hpre).trans htrim)
    unfold isLegacyWarning
    simp only
    rw [String.toList_ofList, hwarning _ rfl, String.toList_ofList, hwarning _ rfl, String.toList_ofList,
      String.toList_ofList, hwarning _ rfl]
    rfl
  have hmk : ∀ (d : Char) (p : Text), d.isAlpha = false → startsWithIgnoreAsciiCase (d :: p) (c :: rest) = false := by
    intro d p hd
    unfold startsWithIgnoreAsciiCase eqIgnoreAsciiCase
    rw [Bool.eq_false_iff, length_cons, take_succ_cons, map_cons, map_cons]
    intro heq
    have hlower := (cons.inj (eq_of_beq heq)).1
    rw [← isAlpha_toLower, ← hlower, isAlpha_toLower, hc] at hd
    cases hd
  have hmks : ∀ markers ∈ contextualUserMarkers, markers.1.toList.head?.any (fun d => !d.isAlpha) = true := by
    decide
  have hany : contextualUserMarkers.any (fun markers => matchesMarkers markers.1 markers.2 (c :: rest)) = false := by
    refine any_eq_false.mpr fun markers hmem => Bool.eq_false_iff.mp ?_
    have hhead := hmks markers hmem
    unfold matchesMarkers
    cases hlist : markers.1.toList with
    | nil =>
        rw [hlist] at hhead
        cases hhead
    | cons d p =>
        rw [hlist] at hhead
        simp only [hst, hmk d p (Bool.not_eq_true' _ ▸ hhead), Bool.false_and]
  unfold isStandardContextualUserText
  rw [hany, hleg]
  rfl

theorem readsBack_of_summary (hpr : PromptStartsWithTag rd) (h : isSummaryMessage text = true) : ReadsBack rd text := by
  obtain ⟨start, hst⟩ := summaryPrefix_starts
  obtain ⟨rest, rfl⟩ : ∃ rest, text = 'A' :: rest := by
    obtain ⟨rest, rfl⟩ := isPrefixOf_iff_prefix.mp h
    exact ⟨_, by rw [hst]; rfl⟩
  unfold ReadsBack isContextualUserFragment
  simp only
  rw [hpr 'A' rest rfl, isStandardContextualUserText_of_letter rfl (by decide)]
  rfl

/-! ## Selected messages -/

theorem collectUserMessages_append (xs ys : List ResponseItem) :
    collectUserMessages rd (xs ++ ys) = collectUserMessages rd xs ++ collectUserMessages rd ys :=
  filterMap_append

theorem collectUserMessages_userItem (text : Text) : collectUserMessages rd [userItem text] =
    if isContextualUserFragment rd (.inputText text) || isSummaryMessage text then [] else [text] := by
  unfold collectUserMessages
  rw [filterMap_cons, filterMap_nil]
  cases hctx : isContextualUserFragment rd (.inputText text) with
  | false =>
      rw [parseTurnItem_userItem_of_readsBack hctx]
      simp only [message_of_text, Bool.false_or]
      cases isSummaryMessage text with
      | false => rfl
      | true => rfl
  | true =>
      have hnone := parseTurnItem_userItem_of_not_readsBack (Bool.eq_false_iff.not_left.mpr hctx)
      simp only [Bool.true_or]
      cases hitem : parseTurnItem rd (userItem text) with
      | none => rfl
      | some item =>
          cases item with
          | userMessage user => exact absurd hitem (hnone user)
          | _ => rfl

def isUserText (rd : ItemReaders) (text : Text) : Bool :=
  !(isContextualUserFragment rd (.inputText text) || isSummaryMessage text)

theorem collectUserMessages_map_userItem (texts : List Text) :
    collectUserMessages rd (texts.map userItem) = texts.filter (isUserText rd) := by
  induction texts with
  | nil => rfl
  | cons text texts ih =>
      have hcons : userItem text :: texts.map userItem = [userItem text] ++ texts.map userItem := rfl
      rw [map_cons, hcons, collectUserMessages_append, collectUserMessages_userItem, ih, filter_cons,
        isUserText]
      cases isContextualUserFragment rd (.inputText text) || isSummaryMessage text with
      | false => rfl
      | true => rfl

theorem not_summary_of_mem_collect
    (h : message ∈ collectUserMessages rd items) : isSummaryMessage message = false := by
  obtain ⟨item, -, hitem⟩ := mem_filterMap.mp h
  split at hitem
  next user =>
    split at hitem
    next => cases hitem
    next hsum =>
      cases hitem
      exact Bool.of_not_eq_true hsum
  next => cases hitem

theorem isSummaryItem_userItem (h : IsSummaryItem rd (userItem text)) : isSummaryMessage text = true := by
  obtain ⟨user, hitem, hsum⟩ := h
  by_cases hrds : ReadsBack rd text
  · rw [parseTurnItem_userItem_of_readsBack hrds] at hitem
    cases hitem
    rwa [message_of_text] at hsum
  · exact absurd hitem (parseTurnItem_userItem_of_not_readsBack hrds user)

theorem tokenCount_reverse (messages : List Text) : tokenCount messages.reverse = tokenCount messages := by
  unfold tokenCount
  rw [map_reverse, sum_reverse]

theorem selectMessages_zero (messages : List Text) : selectMessages 0 messages = [] := by
  cases messages with
  | nil => rfl
  | cons message older => exact if_pos rfl

theorem mem_selectMessages (h : text ∈ selectMessages remaining messages) :
    ∃ message ∈ messages, text = message ∨ ∃ policy, text = truncateText message policy := by
  induction messages generalizing remaining with
  | nil => cases h
  | cons message older ih =>
      unfold selectMessages at h
      simp only at h
      split at h
      next => cases h
      next =>
        split at h
        next =>
          rcases mem_cons.mp h with rfl | h
          · exact ⟨text, mem_cons_self, .inl rfl⟩
          · obtain ⟨message, hmem, hcases⟩ := ih h
            exact ⟨message, mem_cons_of_mem _ hmem, hcases⟩
        next =>
          obtain rfl := mem_singleton.mp h
          exact ⟨message, mem_cons_self, .inr ⟨_, rfl⟩⟩

/-- The newest messages are kept, and one more perhaps truncated. Only the last one may not be read back. -/
theorem selectMessages_spec {keeps : Text → Bool}
    (h : ∀ newer message older, messages = newer ++ message :: older → older ≠ [] →
      tokenCount (newer ++ [message]) < remaining → keeps message = true) :
    ∃ verbatim, verbatim <+: messages ∧ tokenCount verbatim ≤ remaining ∧
      ((selectMessages remaining messages).filter keeps = verbatim ∨
        ∃ message policy, verbatim ++ [message] <+: messages ∧
          (selectMessages remaining messages).filter keeps = verbatim ++ [truncateText message policy]) := by
  induction messages generalizing remaining with
  | nil => exact ⟨[], prefix_rfl, Nat.zero_le _, .inl rfl⟩
  | cons message older ih =>
      unfold selectMessages
      simp only
      by_cases hzero : remaining = 0
      · rw [if_pos hzero]
        exact ⟨[], nil_prefix, Nat.zero_le _, .inl rfl⟩
      · rw [if_neg hzero]
        by_cases hfits : approxTokenCount message ≤ remaining
        · rw [if_pos hfits]
          by_cases hlast : selectMessages (remaining - approxTokenCount message) older = []
          · rw [hlast]
            cases hkps : keeps message with
            | true =>
                refine ⟨[message], cons_prefix_cons.mpr ⟨rfl, nil_prefix⟩, hfits, .inl ?_⟩
                rw [filter_cons, hkps]
                rfl
            | false =>
                refine ⟨[], nil_prefix, Nat.zero_le _, .inl ?_⟩
                rw [filter_cons, hkps]
                rfl
          · have holder : older ≠ [] := by
              rintro rfl
              exact hlast rfl
            have hless : approxTokenCount message < remaining := by
              refine Nat.lt_of_le_of_ne hfits fun heq => hlast ?_
              rw [heq, Nat.sub_self, selectMessages_zero]
            have hkps : keeps message = true := h [] message older rfl holder hless
            obtain ⟨verbatim, hbeg, htks, hcases⟩ := @ih (remaining - approxTokenCount message) (by
              intro newer next rest heq hrest hnext
              refine h (message :: newer) next rest (by rw [heq]; rfl) hrest ?_
              have hcons : tokenCount (message :: newer ++ [next]) = approxTokenCount message +
                tokenCount (newer ++ [next]) := rfl
              omega)
            refine ⟨message :: verbatim, cons_prefix_cons.mpr ⟨rfl, hbeg⟩, ?_, ?_⟩
            · have hcons : tokenCount (message :: verbatim) = approxTokenCount message + tokenCount verbatim := rfl
              omega
            · rw [filter_cons, if_pos hkps]
              rcases hcases with heq | ⟨next, policy, hnext, heq⟩
              · exact .inl (by rw [heq])
              · exact .inr ⟨next, policy, cons_prefix_cons.mpr ⟨rfl, hnext⟩, by rw [heq]; rfl⟩
        · rw [if_neg hfits]
          cases hkps : keeps (truncateText message (.tokens remaining)) with
          | true =>
              refine ⟨[], nil_prefix, Nat.zero_le _, .inr ⟨message, .tokens remaining, ?_, ?_⟩⟩
              · exact cons_prefix_cons.mpr ⟨rfl, nil_prefix⟩
              · rw [filter_cons, hkps]
                rfl
          | false =>
              refine ⟨[], nil_prefix, Nat.zero_le _, .inl ?_⟩
              rw [filter_cons, hkps]
              rfl

/-! ## What is kept of what was kept -/

theorem KeptFrom.append (h : KeptFrom messages kept verbatim) (more : List Text) :
    KeptFrom (messages ++ more) (kept ++ more) (verbatim ++ more) := by
  cases h with
  | whole h => exact .whole (suffix_append_self_iff.mpr h)
  | truncated h htruncated => exact .truncated (suffix_append_self_iff.mpr h) htruncated

theorem KeptFrom.of_suffix (h : KeptFrom messages kept verbatim)
    (hnewest : newest <:+ kept) : ∃ verbatim, KeptFrom messages newest verbatim ∧ tokenCount verbatim ≤ tokenCount newest := by
  cases h with
  | whole h => exact ⟨newest, .whole (hnewest.trans h), Nat.le_refl _⟩
  | truncated h htruncated =>
      rcases suffix_cons_iff.mp hnewest with rfl | hnewest
      · exact ⟨verbatim, .truncated h htruncated, Nat.le_add_left ..⟩
      · exact ⟨newest, .whole (hnewest.trans ((suffix_cons ..).trans h)), Nat.le_refl _⟩

theorem KeptFrom.truncate {policy : TruncationPolicy}
    (h : KeptFrom messages kept verbatim) (hnewest : message :: newest <:+ kept) :
    KeptFrom messages (truncateText message policy :: newest) newest := by
  cases h with
  | whole h => exact .truncated (hnewest.trans h) (.single ⟨policy, rfl⟩)
  | truncated h htruncated =>
      rcases suffix_cons_iff.mp hnewest with heq | hnewest
      · obtain ⟨rfl, rfl⟩ := cons.inj heq
        exact .truncated h (htruncated.tail ⟨policy, rfl⟩)
      · exact .truncated (hnewest.trans ((suffix_cons ..).trans h)) (.single ⟨policy, rfl⟩)

/-! ## The initial context -/

theorem lastUserIndices_some (i : Nat) (entries : List (ResponseItem × Nat)) :
    (lastUserIndices rd (some i) entries).1 = some i ∧
      ∀ j, (lastUserIndices rd (some i) entries).2 = some j → j ∈ entries.map Prod.snd := by
  induction entries with
  | nil => exact ⟨rfl, fun j hj => (by cases hj)⟩
  | cons entry entries ih =>
      obtain ⟨item, k⟩ := entry
      have hskip : ∀ j, (lastUserIndices rd (some i) entries).2 = some j → j ∈ ((item, k) :: entries).map Prod.snd :=
        fun j hj => mem_cons_of_mem _ (ih.2 j hj)
      unfold lastUserIndices
      split
      next =>
        simp only
        split
        next => exact ⟨ih.1, hskip⟩
        next =>
          refine ⟨rfl, fun j hj => ?_⟩
          cases hj
          exact mem_cons_self
      next => exact ⟨ih.1, hskip⟩

theorem insertInitialContext_spec (before : List ResponseItem) {summary : ResponseItem}
    (hsum : IsSummaryItem rd summary) (context : List ResponseItem) : ∃ first second, before = first ++ second ∧
      insertInitialContextBeforeLastRealUserOrSummary rd (before ++ [summary]) context =
        first ++ context ++ second ++ [summary] := by
  obtain ⟨user, hitem, hmsg⟩ := hsum
  have hents : (before ++ [summary]).zipIdx.reverse = (summary, before.length) :: before.zipIdx.reverse := by
    rw [zipIdx_append, reverse_append, Nat.zero_add]
    rfl
  have hindices : lastUserIndices rd none (before ++ [summary]).zipIdx.reverse =
      lastUserIndices rd (some before.length) before.zipIdx.reverse := by
    rw [hents, lastUserIndices, hitem]
    simp only
    rw [if_pos hmsg]
    rfl
  obtain ⟨hsome, hreal⟩ := @lastUserIndices_some rd before.length before.zipIdx.reverse
  have hinsert : ∃ i, i ≤ before.length ∧ insertInitialContextBeforeLastRealUserOrSummary rd (before ++ [summary])
      context = (before ++ [summary]).take i ++ context ++ (before ++ [summary]).drop i := by
    unfold insertInitialContextBeforeLastRealUserOrSummary
    rw [hindices]
    simp only [hsome]
    cases hlast : (lastUserIndices rd (some before.length) before.zipIdx.reverse).2 with
    | none => exact ⟨before.length, Nat.le_refl _, rfl⟩
    | some i =>
        refine ⟨i, ?_, rfl⟩
        obtain ⟨entry, hent, rfl⟩ := mem_map.mp (hreal i hlast)
        have hlt := snd_lt_of_mem_zipIdx (mem_reverse.mp hent)
        omega
  obtain ⟨i, hi, hinsert⟩ := hinsert
  refine ⟨before.take i, before.drop i, (take_append_drop i before).symm, ?_⟩
  rw [hinsert, take_append_of_le_length hi, drop_append_of_le_length hi]
  simp only [append_assoc]

/-! ## One compaction -/

theorem collectUserMessages_eq_nil (h : NoUserMessages rd items) : collectUserMessages rd items = [] := by
  refine filterMap_eq_nil_iff.mpr fun item hitem => ?_
  split
  next user heq => exact absurd heq (h item hitem user)
  next => rfl

theorem not_summary_of_noUserMessages (h : NoUserMessages rd items) : ∀ item ∈ items, ¬IsSummaryItem rd item := by
  rintro item hitem ⟨user, heq, -⟩
  exact h item hitem user heq

theorem not_summary_of_mem_select
    (h : text ∈ selectMessages remaining (collectUserMessages rd items).reverse) : isSummaryMessage text = false := by
  obtain ⟨message, hmem, htext⟩ := mem_selectMessages h
  have hmsg := not_summary_of_mem_collect (mem_reverse.mp hmem)
  rcases htext with rfl | ⟨policy, rfl⟩
  · exact hmsg
  · have hmk : '…' ∉ SUMMARY_PREFIX ++ ['\n'] := by
      unfold SUMMARY_PREFIX
      simp only [mem_append, not_or]
      refine ⟨⟨⟨⟨⟨⟨?_, ?_⟩, ?_⟩, ?_⟩, ?_⟩, ?_⟩, by decide⟩
      -- a literal is not decoded when it is read as the list it is made of
      all_goals
        rw [String.toList_ofList]
        decide
    rw [isSummaryMessage, Bool.eq_false_iff, ne_eq, isPrefixOf_iff_prefix] at hmsg ⊢
    exact not_prefix_truncateText hmk policy hmsg

theorem isSummaryMessage_summaryText (summarySuffix : Text) :
    isSummaryMessage (SUMMARY_PREFIX ++ ['\n'] ++ summarySuffix) = true :=
  isPrefixOf_iff_prefix.mpr (prefix_append ..)

theorem runCompactTask_spec (hpr : PromptStartsWithTag rd) (history : List ResponseItem) (summarySuffix : Text)
    (hctx : ∀ items, initialContext = some items → NoUserMessages rd items) :
    ∃ before summary, runCompactTask rd history summarySuffix initialContext = before ++ [summary] ∧
      IsSummaryItem rd summary ∧ (∀ item ∈ before, ¬IsSummaryItem rd item) ∧
      collectUserMessages rd (before ++ [summary]) =
        ((selectMessages COMPACT_USER_MESSAGE_MAX_TOKENS (collectUserMessages rd history).reverse).reverse).filter
          (isUserText rd) := by
  let selected := (selectMessages COMPACT_USER_MESSAGE_MAX_TOKENS (collectUserMessages rd history).reverse).reverse
  let summaryText := SUMMARY_PREFIX ++ ['\n'] ++ summarySuffix
  have hsummaryText : isSummaryMessage summaryText = true := isSummaryMessage_summaryText summarySuffix
  have hsum : IsSummaryItem rd (userItem summaryText) := by
    refine ⟨_, parseTurnItem_userItem_of_readsBack (readsBack_of_summary hpr hsummaryText), ?_⟩
    rw [message_of_text]
    exact hsummaryText
  have hselected : ∀ item ∈ selected.map userItem, ¬IsSummaryItem rd item := by
    intro item hitem hsum
    obtain ⟨text, htext, rfl⟩ := mem_map.mp hitem
    have hfalse := not_summary_of_mem_select (mem_reverse.mp htext)
    rw [isSummaryItem_userItem hsum] at hfalse
    cases hfalse
  have hcollect : collectUserMessages rd [userItem summaryText] = [] := by
    rw [collectUserMessages_userItem, hsummaryText, Bool.or_true, if_pos rfl]
  have hhistory : buildCompactedHistory [] (collectUserMessages rd history) summaryText =
      selected.map userItem ++ [userItem summaryText] := by
    have hne : summaryText ≠ [] := by
      obtain ⟨start, hst⟩ := summaryPrefix_starts
      intro hnil
      have hmem : 'A' ∈ summaryText := mem_append_left _ (mem_append_left _ (hst ▸ mem_cons_self))
      rw [hnil] at hmem
      cases hmem
    unfold buildCompactedHistory buildCompactedHistoryWithLimit
    simp only
    rw [if_pos (by decide), if_neg hne]
    rfl
  unfold runCompactTask
  simp only
  rw [hhistory]
  cases initialContext with
  | none =>
      refine ⟨selected.map userItem, userItem summaryText, rfl, hsum, hselected, ?_⟩
      rw [collectUserMessages_append, hcollect, append_nil, collectUserMessages_map_userItem]
  | some context =>
      obtain ⟨first, second, hpts, hinsert⟩ := insertInitialContext_spec (selected.map userItem) hsum context
      have hno := hctx context rfl
      refine ⟨first ++ context ++ second, userItem summaryText, hinsert, hsum, ?_, ?_⟩
      · intro item hitem
        rcases mem_append.mp hitem with hitem | hitem
        · rcases mem_append.mp hitem with hitem | hitem
          · exact hselected item (hpts ▸ mem_append_left _ hitem)
          · exact not_summary_of_noUserMessages hno item hitem
        · exact hselected item (hpts ▸ mem_append_right _ hitem)
      · rw [collectUserMessages_append, hcollect, append_nil, collectUserMessages_append,
          collectUserMessages_append, collectUserMessages_eq_nil hno, append_nil, ← collectUserMessages_append,
          ← hpts, collectUserMessages_map_userItem]

theorem isUserText_of_readsBack
    (hmem : message ∈ collectUserMessages rd items) (hrds : ReadsBack rd message) : isUserText rd message = true := by
  rw [isUserText, hrds, not_summary_of_mem_collect hmem]
  rfl

theorem compacted_of_compact (hpr : PromptStartsWithTag rd) {summarySuffix : Text}
    (hkept : KeptFrom thread.userMessages (collectUserMessages rd thread.history) verbatim)
    (hctx : ∀ items, initialContext = some items → NoUserMessages rd items)
    (hgd : KeepsUserMessages rd thread (.compact summarySuffix initialContext)) :
    Compacted rd { thread with history := runCompactTask rd thread.history summarySuffix initialContext } := by
  obtain ⟨before, summary, hrun, hsum, hbef, hcollect⟩ :=
    runCompactTask_spec hpr thread.history summarySuffix hctx
  constructor
  · exact ⟨before, summary, hrun, hsum, hbef⟩
  · simp only
    rw [hrun, hcollect, filter_reverse]
    obtain ⟨newest, hbeg, htks, hcases⟩ := @selectMessages_spec
      COMPACT_USER_MESSAGE_MAX_TOKENS (collectUserMessages rd thread.history).reverse (isUserText rd) (by
        intro newer message older hmsgs holder htks
        have hmsgs' : collectUserMessages rd thread.history = older.reverse ++ message :: newer.reverse := by
          rw [← reverse_reverse (collectUserMessages rd thread.history), hmsgs]
          simp only [reverse_append, reverse_cons, append_assoc, cons_append, nil_append]
        refine @isUserText_of_readsBack _ _ thread.history ?_ ?_
        · rw [hmsgs']
          exact mem_append_right _ mem_cons_self
        · refine hgd older.reverse message newer.reverse hmsgs' (by simpa using holder) ?_
          rw [← tokenCount_reverse]
          simpa using htks)
    have hsuf : newest.reverse <:+ collectUserMessages rd thread.history := by
      rw [← reverse_reverse (collectUserMessages rd thread.history)]
      exact reverse_suffix.mpr hbeg
    rcases hcases with heq | ⟨message, policy, hmsg, heq⟩
    · rw [heq]
      obtain ⟨verbatim, hkept, hcnt⟩ := hkept.of_suffix hsuf
      refine ⟨verbatim, hkept, hcnt.trans ?_⟩
      rw [tokenCount_reverse]
      exact htks
    · rw [heq, reverse_append]
      refine ⟨newest.reverse, hkept.truncate ?_, ?_⟩
      · rw [← reverse_reverse (collectUserMessages rd thread.history)]
        have := reverse_suffix.mpr hmsg
        rwa [reverse_append] at this
      · rw [tokenCount_reverse]
        exact htks

/-! ## Whole runs -/

def KeepsNewest (rd : ItemReaders) (thread : CompactedThread) : Prop :=
  ∃ verbatim, KeptFrom thread.userMessages (collectUserMessages rd thread.history) verbatim

theorem keepsNewest_of_move (hpr : PromptStartsWithTag rd) {thread' : CompactedThread}
    {step : CompactionStep} (h : KeepsNewest rd thread) (hgd : KeepsUserMessages rd thread step)
    (hmove : CompactionMove rd thread step thread') : KeepsNewest rd thread' := by
  obtain ⟨verbatim, hkept⟩ := h
  cases hmove with
  | append items =>
      have hcollect := hkept.append (collectUserMessages rd items)
      rw [← collectUserMessages_append] at hcollect
      exact ⟨_, hcollect⟩
  | compact hctx =>
      obtain ⟨verbatim, hkept, -⟩ := (compacted_of_compact hpr hkept hctx hgd).newest
      exact ⟨verbatim, hkept⟩

end

/-- Each compaction of the run leaves a history with one summary at its end and the newest user messages. -/
def CompactsWell (history : List ResponseItem) (steps : List CompactionStep) : Prop :=
  ∀ past summarySuffix initialContext thread thread', past ++ [.compact summarySuffix initialContext] <+: steps →
    Run (CompactionMove rd) (.start rd history) past thread →
    CompactionMove rd thread (.compact summarySuffix initialContext) thread' → Compacted rd thread'

def promptlessReaders : ItemReaders where
  parseHookPromptFragment _ := false
  isInterAgentCommunication _ := false
  truncateFunctionOutputPayload payload := payload
  buildCompactedHistory items _ := items

theorem promptStartsWithTag_promptless : PromptStartsWithTag promptlessReaders := fun _ _ _ => rfl

theorem isSummaryMessage_of_ne (hA : c ≠ 'A') (rest : Text) : isSummaryMessage (c :: rest) = false := by
  obtain ⟨start, hst⟩ := summaryPrefix_starts
  rw [isSummaryMessage, hst, Bool.eq_false_iff]
  exact fun hpre => hA (cons_prefix_cons.mp ( isPrefixOf_iff_prefix.mp hpre)).1.symm

theorem readsBack_letter (hc : c.isAlpha = true) (hW : c ≠ 'W') (rest : Text) :
    ReadsBack promptlessReaders (c :: rest) := by
  rw [ReadsBack, isContextualUserFragment, isStandardContextualUserText_of_letter hc hW]
  rfl

theorem isUserText_letter (hc : c.isAlpha = true) (hW : c ≠ 'W') (hA : c ≠ 'A') (rest : Text) :
    isUserText promptlessReaders (c :: rest) = true := by
  rw [isUserText, readsBack_letter hc hW, isSummaryMessage_of_ne hA]
  rfl

def appendsAndCompacts : List CompactionStep :=
  [.append [userItem ['b']], .compact ['S'] (some [.message none "developer" [] none])]

def partsItem (texts : List Text) : ResponseItem := .message none "user" (texts.map .inputText) none

def joinedParts : List ResponseItem := [userItem ['a'], partsItem ["<skill>", "</skill>"], userItem ['b']]

theorem truncatedFrom_marker {text : Text} (h : TruncatedFrom message text) : text = message ∨ '…' ∈ text := by
  have hstep : ∀ message policy, truncateText message policy = message ∨ '…' ∈ truncateText message policy := by
    intro message policy
    rcases truncateText_cases message policy with heq | ⟨left, rest, heq, -⟩
    · exact .inl heq
    · exact .inr (heq ▸ mem_append_right left mem_cons_self)
  induction h with
  | single hfst =>
      obtain ⟨policy, rfl⟩ := hfst
      exact hstep message policy
  | tail _ hnext ih =>
      obtain ⟨policy, rfl⟩ := hnext
      rcases hstep _ policy with heq | hmem
      · rw [heq]
        exact ih
      · exact .inr hmem

theorem isStandardContextualUserText_tags : isStandardContextualUserText "<skill>" = false ∧
    isStandardContextualUserText "</skill>" = false ∧ isStandardContextualUserText "<skill></skill>" = true := by
  unfold isStandardContextualUserText contextualUserMarkers isLegacyWarning
  simp only [any_cons, any_nil, matchesMarkers]
  repeat rw [String.toList_ofList]
  decide +kernel

theorem collectUserMessages_joinedParts :
    collectUserMessages promptlessReaders joinedParts = [['a'], "<skill></skill>", ['b']] := by
  have hpts : collectUserMessages promptlessReaders [partsItem ["<skill>", "</skill>"]] =
      ["<skill></skill>"] := by
    have hctx : isContextualUserMessageContent promptlessReaders
        [.inputText "<skill>", .inputText "</skill>"] = false := by
      simp only [isContextualUserMessageContent, any_cons, any_nil, isContextualUserFragment,
        isStandardContextualUserText_tags]
      rfl
    have hitem : parseTurnItem promptlessReaders (partsItem ["<skill>", "</skill>"]) =
        some (.userMessage ⟨[.text "<skill>", .text "</skill>"]⟩) := by
      unfold partsItem parseTurnItem
      simp only [map_cons, map_nil, if_true]
      rw [parseUserMessage, hctx, isVisibleHookPromptMessage]
      simp only [all_cons, isStandardContextualUserText_tags, promptlessReaders]
      rfl
    have hmsg : UserMessageItem.message ⟨[.text "<skill>", .text "</skill>"]⟩ =
        '<' :: "skill></skill>" := by decide +kernel
    have hsum := isSummaryMessage_of_ne (by decide : '<' ≠ 'A') "skill></skill>"
    unfold collectUserMessages
    rw [filterMap_cons, filterMap_nil, hitem]
    simp only [hmsg, hsum]
    decide +kernel
  have hspl : joinedParts = [['a']].map userItem ++ [partsItem ["<skill>", "</skill>"]] ++
    [['b']].map userItem := rfl
  rw [hspl, collectUserMessages_append, collectUserMessages_append, collectUserMessages_map_userItem,
    collectUserMessages_map_userItem, hpts]
  rfl

end CodexStudy.Core
