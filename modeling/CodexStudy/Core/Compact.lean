import CodexStudy.Core.ContextManager
import CodexStudy.Lib.Transition

/-!
# Local compaction (`compact.rs`, `event_mapping.rs`)

A compacted history has the newest user messages that fit into a budget of tokens and the summary after them.
-/

namespace CodexStudy.Core

open CodexStudy.Lib List

/-! ## Truncation of texts (`utils/string/src/truncate.rs`) -/

section

def APPROX_BYTES_PER_TOKEN : Nat := 4

def byteCount (s : Text) : Nat := (s.map Char.utf8Size).sum

def approxTokenCount (s : Text) : Nat := (byteCount s + (APPROX_BYTES_PER_TOKEN - 1)) / APPROX_BYTES_PER_TOKEN

def approxBytesForTokens (tokens : Nat) : Nat := tokens * APPROX_BYTES_PER_TOKEN

def approxTokensFromByteCount (bytes : Nat) : Nat := (bytes + (APPROX_BYTES_PER_TOKEN - 1)) / APPROX_BYTES_PER_TOKEN

def splitStringFrom (beginningBytes tailStartTarget idx : Nat) : Text → Nat × Text × Text
  | [] => (0, [], [])
  | ch :: rest =>
      let charEnd := idx + ch.utf8Size
      let (removedChars, before, after) := splitStringFrom beginningBytes tailStartTarget charEnd rest
      if charEnd ≤ beginningBytes then (removedChars, ch :: before, after)
      else if tailStartTarget ≤ idx then (removedChars, before, ch :: after)
      else (removedChars + 1, before, after)

def splitString (s : Text) (beginningBytes endBytes : Nat) : Nat × Text × Text :=
  splitStringFrom beginningBytes (byteCount s - endBytes) 0 s

def splitBudget (budget : Nat) : Nat × Nat := (budget / 2, budget - budget / 2)

def formatTruncationMarker (useTokens : Bool) (removedCount : Nat) : Text :=
  '…' :: (Nat.repr removedCount).toList ++ (if useTokens then " tokens truncated…" else " chars truncated…").toList

def removedUnits (useTokens : Bool) (removedBytes removedChars : Nat) : Nat :=
  if useTokens then approxTokensFromByteCount removedBytes else removedChars

def truncateWithByteEstimate (s : Text) (maxBytes : Nat) (useTokens : Bool) : Text :=
  if s = [] then []
  else if maxBytes = 0 then formatTruncationMarker useTokens (removedUnits useTokens (byteCount s) s.length)
  else if byteCount s ≤ maxBytes then s
  else
    let (leftBudget, rightBudget) := splitBudget maxBytes
    let (removedChars, left, right) := splitString s leftBudget rightBudget
    let marker := formatTruncationMarker useTokens (removedUnits useTokens (byteCount s - maxBytes) removedChars)
    left ++ marker ++ right

def truncateMiddleWithTokenBudget (s : Text) (maxTokens : Nat) : Text × Option Nat :=
  if s = [] then ([], none)
  else if 0 < maxTokens ∧ byteCount s ≤ approxBytesForTokens maxTokens then (s, none)
  else
    let truncated := truncateWithByteEstimate s (approxBytesForTokens maxTokens) true
    (truncated, if truncated = s then none else some (approxTokenCount s))

inductive TruncationPolicy where
  | bytes (limit : Nat)
  | tokens (limit : Nat)

def truncateText (content : Text) : TruncationPolicy → Text
  | .bytes limit => truncateWithByteEstimate content limit false
  | .tokens limit => (truncateMiddleWithTokenBudget content limit).1

/-! ## What is left of the text -/

variable {s : Text} {beginningBytes tailStartTarget idx : Nat}

theorem splitStringFrom_before_nil (h : beginningBytes < idx) :
    (splitStringFrom beginningBytes tailStartTarget idx s).2.1 = [] := by
  induction s generalizing idx with
  | nil => rfl
  | cons ch rest ih =>
      have hrest := @ih (idx + ch.utf8Size) (by omega)
      unfold splitStringFrom
      simp only
      rw [if_neg (by omega)]
      split
      next => exact hrest
      next => exact hrest

theorem splitStringFrom_before_prefix : (splitStringFrom beginningBytes tailStartTarget idx s).2.1 <+: s := by
  induction s generalizing idx with
  | nil => exact prefix_rfl
  | cons ch rest ih =>
      unfold splitStringFrom
      simp only
      by_cases hkept : idx + ch.utf8Size ≤ beginningBytes
      · rw [if_pos hkept, cons_prefix_cons]
        exact ⟨rfl, ih⟩
      · have hnil := @splitStringFrom_before_nil rest _ tailStartTarget _
          (Nat.lt_of_not_le hkept)
        rw [if_neg hkept]
        split
        next =>
          simp only
          rw [hnil]
          exact nil_prefix
        next =>
          simp only
          rw [hnil]
          exact nil_prefix

theorem truncateWithByteEstimate_cases (s : Text) (maxBytes : Nat) (useTokens : Bool) :
    truncateWithByteEstimate s maxBytes useTokens = s ∨
      ∃ left rest, truncateWithByteEstimate s maxBytes useTokens = left ++ '…' :: rest ∧ left <+: s := by
  unfold truncateWithByteEstimate
  split
  next h => exact .inl h.symm
  next =>
    split
    next => exact .inr ⟨[], _, rfl, nil_prefix⟩
    next =>
      split
      next => exact .inl rfl
      next => exact .inr ⟨_, _, append_assoc .., splitStringFrom_before_prefix⟩

theorem truncateText_cases (s : Text) (policy : TruncationPolicy) :
    truncateText s policy = s ∨ ∃ left rest, truncateText s policy = left ++ '…' :: rest ∧ left <+: s := by
  cases policy with
  | bytes limit => exact truncateWithByteEstimate_cases s limit false
  | tokens limit =>
      unfold truncateText truncateMiddleWithTokenBudget
      simp only
      split
      next h => exact .inl h.symm
      next =>
        split
        next => exact .inl rfl
        next => exact truncateWithByteEstimate_cases s _ true

theorem not_prefix_truncateText {p : Text} (hp : '…' ∉ p) (policy : TruncationPolicy) (h : ¬p <+: s) :
    ¬p <+: truncateText s policy := by
  intro hpre
  rcases truncateText_cases s policy with heq | ⟨left, rest, heq, hleft⟩
  · rw [heq] at hpre
    exact h hpre
  · rw [heq] at hpre
    rcases prefix_or_prefix_of_prefix hpre (prefix_append left ('…' :: rest)) with hshort | ⟨more, rfl⟩
    · exact h (hshort.trans hleft)
    · rw [prefix_append_right_inj] at hpre
      cases more with
      | nil => exact h ((append_nil left).symm ▸ hleft)
      | cons c more =>
          rw [cons_prefix_cons] at hpre
          exact hp (hpre.1 ▸ mem_append_right left mem_cons_self)

end

def SUMMARY_PREFIX : Text :=
  "Another language model " ++
    "started to solve this problem and produced a summary of its thinking process. " ++
    "You also have access to the state of the tools that were used by that language model. " ++
    "Use this to build on the work that has already been done and avoid duplicating work. " ++
    "Here is the summary produced by the other language model, " ++
    "use the information in this summary to assist with your own analysis:"

def COMPACT_USER_MESSAGE_MAX_TOKENS : Nat := 20000

/-! ## Turn items -/

inductive UserInput where
  | text (text : Text)
  | image (imageUrl : Text)

structure UserMessageItem where
  content : List UserInput

def UserMessageItem.message (item : UserMessageItem) : Text :=
  (item.content.map fun input =>
    match input with
    | .text text => text
    | .image _ => []).flatten

/-- What an item of the history is for the reader of the conversation. -/
inductive TurnItem where
  | hookPrompt
  | userMessage (item : UserMessageItem)
  | agentMessage
  | reasoning
  | webSearch
  | imageGeneration

def isLocalImageOpenTagText (text : Text) : Bool :=
  match Text.stripPrefix? "<image name=" text with
  | some rest => ">".toList.isSuffixOf rest
  | none => false

def isImageOpenTagText (text : Text) : Bool := text == "<image>"

def isImageCloseTagText (text : Text) : Bool := text == "</image>"

def ContentItem.isInputImage : ContentItem → Bool
  | .inputImage .. => true
  | _ => false

/-- The inputs of a message after the item `previous`. The tags before and after an image are left out. -/
def userInputs (previous : Option ContentItem) : List ContentItem → List UserInput
  | [] => []
  | .inputText text :: rest =>
      let opens := (isLocalImageOpenTagText text || isImageOpenTagText text) && rest.head?.any ContentItem.isInputImage
      let closes := isImageCloseTagText text && previous.any ContentItem.isInputImage
      let inputs := userInputs (some (.inputText text)) rest
      if opens || closes then inputs else .text text :: inputs
  | .inputImage imageUrl detail :: rest => .image imageUrl :: userInputs (some (.inputImage imageUrl detail)) rest
  | .outputText text :: rest => userInputs (some (.outputText text)) rest

section

variable (rd : ItemReaders)

def parseUserMessage (message : List ContentItem) : Option UserMessageItem :=
  if isContextualUserMessageContent rd message then none else some { content := userInputs none message }

def isVisibleHookPromptMessage (content : List ContentItem) : Bool :=
  content.all (fun item =>
      match item with
      | .inputText text => rd.parseHookPromptFragment text || isStandardContextualUserText text
      | _ => false) &&
    content.any fun item =>
      match item with
      | .inputText text => rd.parseHookPromptFragment text
      | _ => false

def parseTurnItem : ResponseItem → Option TurnItem
  | .message _ role content _ =>
      if role = "user" then
        if isVisibleHookPromptMessage rd content then some .hookPrompt
        else (parseUserMessage rd content).map .userMessage
      else if role = "assistant" then some .agentMessage
      else none
  | .reasoning .. => some .reasoning
  | .webSearchCall .. => some .webSearch
  | .imageGenerationCall .. => some .imageGeneration
  | _ => none

/-! ## Messages and summaries -/

def isSummaryMessage (message : Text) : Bool := (SUMMARY_PREFIX ++ ['\n']).isPrefixOf message

def collectUserMessages (items : List ResponseItem) : List Text :=
  items.filterMap fun item =>
    match parseTurnItem rd item with
    | some (.userMessage user) => if isSummaryMessage user.message then none else some user.message
    | _ => none

def lastUserIndices (lastUserOrSummary : Option Nat) : List (ResponseItem × Nat) → Option Nat × Option Nat
  | [] => (lastUserOrSummary, none)
  | (item, i) :: earlier =>
      match parseTurnItem rd item with
      | some (.userMessage user) =>
          let lastUserOrSummary := lastUserOrSummary <|> some i
          if isSummaryMessage user.message then lastUserIndices lastUserOrSummary earlier
          else (lastUserOrSummary, some i)
      | _ => lastUserIndices lastUserOrSummary earlier

def isCompactionItem : ResponseItem → Bool
  | .compaction _ | .contextCompaction _ => true
  | _ => false

def insertInitialContextBeforeLastRealUserOrSummary (compactedHistory initialContext : List ResponseItem) :
    List ResponseItem :=
  let (lastUserOrSummaryIndex, lastRealUserIndex) := lastUserIndices rd none compactedHistory.zipIdx.reverse
  let lastCompactionIndex := (compactedHistory.zipIdx.reverse.find? fun entry => isCompactionItem entry.1).map Prod.snd
  match lastRealUserIndex <|> lastUserOrSummaryIndex <|> lastCompactionIndex with
  | some i => compactedHistory.take i ++ initialContext ++ compactedHistory.drop i
  | none => compactedHistory ++ initialContext

end

/-! ## The compacted history -/

/-- Which messages are kept, newest first. -/
def selectMessages (remaining : Nat) : List Text → List Text
  | [] => []
  | message :: older =>
      if remaining = 0 then []
      else
        let tokens := approxTokenCount message
        if tokens ≤ remaining then message :: selectMessages (remaining - tokens) older
        else [truncateText message (.tokens remaining)]

def userItem (text : Text) : ResponseItem := .message none "user" [.inputText text] none

def buildCompactedHistoryWithLimit (history : List ResponseItem) (userMessages : List Text) (summaryText : Text)
    (maxTokens : Nat) : List ResponseItem :=
  let selectedMessages := if 0 < maxTokens then (selectMessages maxTokens userMessages.reverse).reverse else []
  let summaryText := if summaryText = [] then "(no summary available)".toList else summaryText
  history ++ selectedMessages.map userItem ++ [userItem summaryText]

def buildCompactedHistory (initialContext : List ResponseItem) (userMessages : List Text) (summaryText : Text) :
    List ResponseItem :=
  buildCompactedHistoryWithLimit initialContext userMessages summaryText COMPACT_USER_MESSAGE_MAX_TOKENS

def runCompactTask (rd : ItemReaders) (historyItems : List ResponseItem) (summarySuffix : Text)
    (initialContext : Option (List ResponseItem)) : List ResponseItem :=
  let summaryText := SUMMARY_PREFIX ++ ['\n'] ++ summarySuffix
  let newHistory := buildCompactedHistory [] (collectUserMessages rd historyItems) summaryText
  match initialContext with
  | some initialContext => insertInitialContextBeforeLastRealUserOrSummary rd newHistory initialContext
  | none => newHistory

/-! ## Runs -/

inductive CompactionStep where
  | append (items : List ResponseItem)
  | compact (summarySuffix : Text) (initialContext : Option (List ResponseItem))

structure CompactedThread where
  history : List ResponseItem
  userMessages : List Text

def CompactedThread.start (rd : ItemReaders) (history : List ResponseItem) : CompactedThread :=
  ⟨history, collectUserMessages rd history⟩

def NoUserMessages (rd : ItemReaders) (items : List ResponseItem) : Prop :=
  ∀ item ∈ items, ∀ user, parseTurnItem rd item ≠ some (.userMessage user)

inductive CompactionMove (rd : ItemReaders) : CompactedThread → CompactionStep → CompactedThread → Prop where
  | append {thread : CompactedThread} (items : List ResponseItem) :
      CompactionMove rd thread (.append items)
        ⟨thread.history ++ items, thread.userMessages ++ collectUserMessages rd items⟩
  | compact {thread : CompactedThread} {summarySuffix : Text} {initialContext : Option (List ResponseItem)} :
      (∀ items, initialContext = some items → NoUserMessages rd items) →
      CompactionMove rd thread (.compact summarySuffix initialContext)
        { thread with history := runCompactTask rd thread.history summarySuffix initialContext }

end CodexStudy.Core
