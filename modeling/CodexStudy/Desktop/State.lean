import CodexStudy.Desktop.Explore
import CodexStudy.Lib.HashMap

/-!
# The state of the threads (`useThreadsReducer.ts`, `threadReducer/common.ts`)

The threads of each workspace, what is known of each thread, and the actions that change them.
-/

namespace CodexStudy.Desktop

open CodexStudy.Lib JsString

structure ThreadSummary where
  id : JsString
  name : JsString
  updatedAt : Int
  createdAt : Option Int := none
  isSubagent : Option Bool := none
  subagentNickname : Option JsString := none
  subagentRole : Option JsString := none
  deriving DecidableEq

structure ThreadActivityStatus where
  isProcessing : Bool := false
  hasUnread : Bool := false
  isReviewing : Bool := false
  processingStartedAt : Option Int := none
  lastDurationMs : Option Int := none
  deriving DecidableEq

inductive ThreadListSortKey where
  | createdAt
  | updatedAt
  deriving DecidableEq

structure LastAgentMessage where
  text : JsString
  timestamp : Int

structure ThreadState where
  activeThreadIdByWorkspace : HashMap JsString (Option JsString) := ∅
  itemsByThread : HashMap JsString (List ConversationItem) := ∅
  maxItemsPerThread : Option Nat := some DEFAULT_MAX_ITEMS_PER_THREAD
  threadsByWorkspace : HashMap JsString (List ThreadSummary) := ∅
  hiddenThreadIdsByWorkspace : HashMap JsString (HashMap JsString Unit) := ∅
  threadParentById : HashMap JsString JsString := ∅
  threadStatusById : HashMap JsString ThreadActivityStatus := ∅
  threadSortKeyByWorkspace : HashMap JsString ThreadListSortKey := ∅
  lastAgentMessageByThread : HashMap JsString LastAgentMessage := ∅

namespace ThreadState

variable (state : ThreadState)

def itemsOf (threadId : JsString) : List ConversationItem := (state.itemsByThread.lookup threadId).getD []

variable (workspaceId : JsString)

def threadsOf : List ThreadSummary := (state.threadsByWorkspace.lookup workspaceId).getD []

def hiddenOf : HashMap JsString Unit :=
  (state.hiddenThreadIdsByWorkspace.lookup workspaceId).getD ∅

def hides (workspaceId threadId : JsString) : Bool := ((state.hiddenOf workspaceId).lookup threadId).isSome

def activeThreadIdOf : Option JsString :=
  (state.activeThreadIdByWorkspace.lookup workspaceId).getD none

def statusOf (threadId : JsString) : ThreadActivityStatus := (state.threadStatusById.lookup threadId).getD {}

def prefersUpdatedSort : Bool :=
  (state.threadSortKeyByWorkspace.lookup workspaceId).getD .updatedAt == .updatedAt

def setItems (threadId : JsString) (items : List ConversationItem) : ThreadState :=
  { state with itemsByThread :=
      state.itemsByThread.insert threadId (prepareThreadItems items state.maxItemsPerThread) }

def setThreadsOf (threads : List ThreadSummary) : ThreadState :=
  { state with threadsByWorkspace := state.threadsByWorkspace.insert workspaceId threads }

end ThreadState

structure ThreadSummaryPatch where
  createdAt : Option Int := none
  isSubagent : Option Bool := none
  subagentNickname : Option (Option JsString) := none
  subagentRole : Option (Option JsString) := none

inductive ThreadAction where
  | setActiveThreadId (workspaceId : JsString) (threadId : Option JsString)
  | ensureThread (workspaceId threadId : JsString)
  | hideThread (workspaceId threadId : JsString)
  | removeThread (workspaceId threadId : JsString)
  | setThreadParent (threadId parentId : JsString)
  | markProcessing (threadId : JsString) (isProcessing : Bool) (timestamp : Int)
  | setThreadName (workspaceId threadId name : JsString)
  | mergeThreadSummary (workspaceId threadId : JsString) (patch : ThreadSummaryPatch)
  | setThreadTimestamp (workspaceId threadId : JsString) (timestamp : Int)
  | setThreads (workspaceId : JsString) (threads : List ThreadSummary) (sortKey : ThreadListSortKey)
      (preserveAnchors : Bool)
  | upsertItem (workspaceId threadId : JsString) (item : ConversationItem) (hasCustomName : Bool)
  | appendAgentDelta (workspaceId threadId itemId delta : JsString) (hasCustomName : Bool)
  | appendReasoningSummary (threadId itemId delta : JsString)
  | appendReasoningContent (threadId itemId delta : JsString)
  | appendToolOutput (threadId itemId delta : JsString)

/-! ## Names -/

def collapseSpaces : JsString → JsString
  | [] => []
  | u :: rest =>
      if isWhitespace u then
        if rest.head?.any isWhitespace then collapseSpaces rest else 32 :: collapseSpaces rest
      else u :: collapseSpaces rest

def afterImageTag (s : JsString) : Option JsString :=
  if toAsciiLowerCase (s.take 6) = ofLiteral "[image" then
    let rest := s.drop 6
    let counted :=
      if toAsciiLowerCase (rest.take 2) = ofLiteral " x" ∧ (rest.drop 2).head?.any (fun u => 48 ≤ u && u ≤ 57) then
        (rest.drop 2).dropWhile fun u => 48 ≤ u && u ≤ 57
      else rest
    if counted.head? = some 93 then some (counted.drop 1) else none
  else none

def replaceImages : Nat → JsString → JsString
  | 0, s => s
  | _, [] => []
  | fuel + 1, u :: rest =>
      match afterImageTag (u :: rest) with
      | some after => 32 :: replaceImages fuel after
      | none => u :: replaceImages fuel rest

/-- What follows the name of a skill at the beginning, which a white space or the end must follow. -/
def afterSkill : JsString → Option JsString
  | 36 :: rest =>
      let isName := fun u : UInt16 => isAsciiAlphanumeric u || u == 95 || u == hyphen
      let after := rest.dropWhile isName
      if rest.head?.any isName ∧ after.head?.all isWhitespace then some after else none
  | _ => none

def replaceSkills (atStart : Bool) : Nat → JsString → JsString
  | 0, s => s
  | _, [] => []
  | fuel + 1, u :: rest =>
      match if atStart then afterSkill (u :: rest) else none with
      | some after => 32 :: replaceSkills false fuel after
      | none =>
          match if isWhitespace u then afterSkill rest else none with
          | some after => 32 :: replaceSkills false fuel after
          | none => u :: replaceSkills false fuel rest

def extractRenameText (text : JsString) : JsString :=
  let withoutImages := replaceImages text.length text
  let withoutSkills := replaceSkills true withoutImages.length withoutImages
  trim (collapseSpaces withoutSkills)

def isHex (u : UInt16) : Bool := (48 ≤ u && u ≤ 57) || (65 ≤ u && u ≤ 70) || (97 ≤ u && u ≤ 102)

def isUuidLike (name : JsString) : Bool :=
  (name.splitOnP (· == hyphen)).map List.length == [8, 4, 4, 4, 12] &&
    (name.splitOnP (· == hyphen)).all fun part => part.all isHex

def looksAutoGeneratedThreadName (name : JsString) : Bool :=
  let trimmed := trim name
  trimmed == ofLiteral "New Agent" || startsWith trimmed (ofLiteral "Agent ") ||
    (4 ≤ trimmed.length && trimmed.length ≤ 8 && trimmed.all isHex) || isUuidLike trimmed

def clipName (name : JsString) : JsString := if 38 < name.length then name.take 38 ++ ofLiteral "…" else name

def clampThreadName (name : JsString) : Option JsString :=
  let trimmed := trim (collapseSpaces name)
  if trimmed = [] then none else some (clipName trimmed)

def ConversationItem.isUserMessage : ConversationItem → Bool
  | .message _ .user _ _ => true
  | _ => false

def ConversationItem.assistantText? : ConversationItem → Option JsString
  | .message _ .assistant text _ => some text
  | _ => none

def getAssistantTextForRename (items : List ConversationItem) (itemId : JsString) : JsString :=
  let byId := if itemId = [] then none
    else (items.find? fun item => item.assistantText?.isSome && item.id == itemId).bind (·.assistantText?)
  (byId <|> items.reverse.findSome? (·.assistantText?)).getD []

def ThreadState.maybeRenameThreadFromAgent (state : ThreadState) (workspaceId threadId : JsString)
    (items : List ConversationItem) (itemId : JsString) (hasCustomName : Bool) : ThreadState :=
  if state.threadsOf workspaceId = [] ∨ items.any (·.isUserMessage) ∨ hasCustomName then state
  else
    match clampThreadName (getAssistantTextForRename items itemId) with
    | none => state
    | some name => state.setThreadsOf workspaceId ((state.threadsOf workspaceId).map fun thread =>
        if thread.id = threadId ∧ looksAutoGeneratedThreadName thread.name then { thread with name } else thread)

/-! ## Streamed text -/

def mergeOverlap (existing delta : JsString) : Nat → JsString
  | 0 => existing ++ delta
  | length + 1 =>
      if endsWith existing (delta.take (length + 1)) then existing ++ delta.drop (length + 1)
      else mergeOverlap existing delta length

def mergeStreamingText (existing delta : JsString) : JsString :=
  if delta = [] then existing
  else if existing = [] then delta
  else if delta = existing then existing
  else if startsWith delta existing then delta
  else if startsWith existing delta then existing
  else mergeOverlap existing delta (min existing.length delta.length)

end CodexStudy.Desktop
