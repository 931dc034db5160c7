import CodexStudy.Desktop.State

/-!
# The list of threads (`threadReducer/threadLifecycleSlice.ts`)

Threads are added to the list of their workspace, hidden and removed, and the list is replaced by one of the server, to
which the threads that are running or shown are added again.
-/

namespace CodexStudy.Desktop

open CodexStudy.Lib JsString

/-! ## Merging items (`threadReducer/threadItemsSlice.ts`, `utils/threadItems.listOps.ts`) -/

def unlessBlank (incoming existing : JsString) : JsString := if trim incoming ≠ [] then incoming else existing

def longer (incoming existing : JsString) : JsString :=
  if existing.length ≤ incoming.length then incoming else existing

def mergeUserInputQuestions (existing incoming : List UserInputQuestion) : List UserInputQuestion :=
  let merged := incoming.map fun question =>
    match existing.reverse.find? fun prior => prior.id == question.id with
    | none => question
    | some prior =>
        { question with
          header := unlessBlank question.header prior.header
          question := unlessBlank question.question prior.question
          answers := if question.answers ≠ [] then question.answers else prior.answers }
  merged ++ existing.filter fun question => !incoming.any fun other => other.id == question.id

def mergeToolItem (existing item : ToolItem) : ToolItem :=
  { item with
    title := unlessBlank item.title existing.title
    detail := unlessBlank item.detail existing.detail
    status := if trim (item.status.getD []) ≠ [] then item.status else existing.status
    output := some (unlessBlank (item.output.getD []) (existing.output.getD []))
    changes := if item.changes.getD [] ≠ [] then item.changes else existing.changes
    durationMs := item.durationMs <|> existing.durationMs }

def mergeItem (existing item : ConversationItem) : ConversationItem :=
  match existing, item with
  | .message _ _ existingText existingImages, .message id role text images =>
      .message id role (longer text existingText) (if images.getD [] ≠ [] then images else existingImages)
  | .userInput _ existing, .userInput id questions => .userInput id (mergeUserInputQuestions existing questions)
  | .reasoning _ existingSummary existingContent, .reasoning id summary content =>
      .reasoning id (longer summary existingSummary) (longer content existingContent)
  | .tool existing, .tool item => .tool (mergeToolItem existing item)
  | .diff _ existingTitle existingDiff existingStatus, .diff id title diff status =>
      .diff id (unlessBlank title existingTitle) (longer diff existingDiff)
        (if trim (status.getD []) ≠ [] then status else existingStatus)
  | .review _ _ existingText, .review id state text => .review id state (longer text existingText)
  | _, item => item

def modifyItem (itemId : JsString) (f : ConversationItem → ConversationItem) :
    List ConversationItem → List ConversationItem
  | [] => []
  | item :: rest => if item.id = itemId then f item :: rest else item :: modifyItem itemId f rest

variable (list : List ConversationItem)

def upsertItem (item : ConversationItem) : List ConversationItem :=
  if list.any fun entry => entry.id == item.id then modifyItem item.id (fun existing => mergeItem existing item) list
  else list ++ [item]

/-! ## Reviews -/

def isLocalReviewStart : ConversationItem → Bool
  | .review id .started _ => startsWith id (ofLiteral "review-start-")
  | _ => false

def dropLatestLocalReviewStart : List ConversationItem :=
  (list.reverse.eraseP isLocalReviewStart).reverse

def matchesReview (state : ReviewState) (text : JsString) : ConversationItem → Bool
  | .review _ otherState otherText => otherState == state && trim otherText == trim text
  | _ => false

def uniqueReviewId (id : JsString) : JsString :=
  let candidates := (List.range' 1 (list.length + 1)).map fun suffix => id ++ ofLiteral s!"-{suffix}"
  (candidates.find? fun candidate => !list.any fun entry => entry.id == candidate).getD id

def ensureUniqueReviewId : ConversationItem → ConversationItem
  | .review id state text =>
      .review (if list.any fun entry => entry.id == id then uniqueReviewId list id else id) state text
  | item => item

def isKnownReview : ConversationItem → Bool
  | .review id state text =>
      (list.any fun entry => entry.id == id && matchesReview state text entry) ||
        (list.find? (matchesReview state text)).any fun existing => existing.id != id
  | _ => false

/-! ## Actions -/

namespace ThreadState

variable (state : ThreadState)

def renameFromUser (workspaceId threadId text : JsString) (hadUserMessage hasCustomName : Bool) : ThreadState :=
  let renameText := extractRenameText text
  let threads := (state.threadsOf workspaceId).map fun thread =>
    if thread.id = threadId ∧ !hadUserMessage ∧ renameText ≠ [] ∧ looksAutoGeneratedThreadName thread.name ∧
        !hasCustomName then
      { thread with name := clipName renameText }
    else thread
  state.setThreadsOf workspaceId
    (if state.prefersUpdatedSort workspaceId ∧ threads ≠ [] then
      threads.filter (fun thread => thread.id == threadId) ++ threads.filter fun thread => thread.id != threadId
    else threads)

def reduceUpsertItem (workspaceId threadId : JsString) (item : ConversationItem) (hasCustomName : Bool) : ThreadState :=
  let item := normalizeItem item
  let list :=
    match item with
    | .review id .started _ =>
        if startsWith id (ofLiteral "review-start-") then state.itemsOf threadId
        else dropLatestLocalReviewStart (state.itemsOf threadId)
    | _ => state.itemsOf threadId
  if isKnownReview list item then state
  else
    let updated := state.setItems threadId (upsertItem list (ensureUniqueReviewId list item))
    match item with
    | .message _ .user text _ =>
        updated.renameFromUser workspaceId threadId text ((state.itemsOf threadId).any (·.isUserMessage)) hasCustomName
    | _ => updated

def reduceAgentDelta (workspaceId threadId itemId delta : JsString) (hasCustomName : Bool) : ThreadState :=
  let list := state.itemsOf threadId
  let updated := state.setItems threadId
    (match list.find? fun item => item.id == itemId with
    | some (.message id role text images) =>
        modifyItem itemId (fun _ => .message id role (mergeStreamingText text delta) images) list
    | _ => list ++ [.message itemId .assistant delta none])
  updated.maybeRenameThreadFromAgent workspaceId threadId (updated.itemsOf threadId) itemId hasCustomName

def reduceReasoning (threadId itemId : JsString) (f : JsString → JsString → ConversationItem) : ThreadState :=
  let list := state.itemsOf threadId
  state.setItems threadId
    (match list.find? fun item => item.id == itemId with
    | some (.reasoning _ summary content) => modifyItem itemId (fun _ => f summary content) list
    | some _ => modifyItem itemId (fun _ => f [] []) list
    | none => list ++ [f [] []])

variable (threadId itemId delta : JsString)

def reduceReasoningSummary : ThreadState :=
  state.reduceReasoning threadId itemId fun summary content =>
    .reasoning itemId (mergeStreamingText summary delta) content

def reduceReasoningContent : ThreadState :=
  state.reduceReasoning threadId itemId fun summary content =>
    .reasoning itemId summary (mergeStreamingText content delta)

def reduceToolOutput : ThreadState :=
  let list := state.itemsOf threadId
  match list.find? fun item => item.id == itemId with
  | some (.tool item) => state.setItems threadId
      (modifyItem itemId (fun _ => .tool { item with
        output := some (mergeStreamingText (item.output.getD []) delta) }) list)
  | _ => state

def reduceThreadItems : ThreadAction → ThreadState
  | .upsertItem workspaceId threadId item hasCustomName =>
      state.reduceUpsertItem workspaceId threadId item hasCustomName
  | .appendAgentDelta workspaceId threadId itemId delta hasCustomName =>
      state.reduceAgentDelta workspaceId threadId itemId delta hasCustomName
  | .appendReasoningSummary threadId itemId delta => state.reduceReasoningSummary threadId itemId delta
  | .appendReasoningContent threadId itemId delta => state.reduceReasoningContent threadId itemId delta
  | .appendToolOutput threadId itemId delta => state.reduceToolOutput threadId itemId delta
  | _ => state

end ThreadState

def ThreadSummary.ids (threads : List ThreadSummary) : List JsString := threads.map ThreadSummary.id

def ThreadSummaryPatch.apply (patch : ThreadSummaryPatch) (thread : ThreadSummary) : ThreadSummary :=
  { thread with
    createdAt := patch.createdAt <|> thread.createdAt
    isSubagent := patch.isSubagent <|> thread.isSubagent
    subagentNickname := patch.subagentNickname.getD thread.subagentNickname
    subagentRole := patch.subagentRole.getD thread.subagentRole }

namespace ThreadState

variable (state : ThreadState)

def setStatus (threadId : JsString) (status : ThreadActivityStatus) : ThreadState :=
  { state with threadStatusById := state.threadStatusById.insert threadId status }

variable (workspaceId : JsString)

def setActive (threadId : Option JsString) : ThreadState :=
  { state with activeThreadIdByWorkspace := state.activeThreadIdByWorkspace.insert workspaceId threadId }

def reduceSetActiveThreadId (threadId : Option JsString) : ThreadState :=
  let state := state.setActive workspaceId threadId
  match threadId.filter (· ≠ []) with
  | some threadId => state.setStatus threadId { state.statusOf threadId with hasUnread := false }
  | none => state

variable (workspaceId threadId : JsString)

def reduceEnsureThread : ThreadState :=
  let list := state.threadsOf workspaceId
  if state.hides workspaceId threadId ∨ list.any (fun thread => thread.id == threadId) then state
  else
    ((state.setThreadsOf workspaceId ({ id := threadId, name := ofLiteral "New Agent", updatedAt := 0 } :: list)).setStatus
      threadId {}).setActive workspaceId (state.activeThreadIdOf workspaceId <|> some threadId)

def activeWithout (filtered : List ThreadSummary) : Option JsString :=
  if state.activeThreadIdOf workspaceId = some threadId then filtered.head?.map ThreadSummary.id
  else state.activeThreadIdOf workspaceId

def reduceHideThread : ThreadState :=
  if state.hides workspaceId threadId then state
  else
    let filtered := (state.threadsOf workspaceId).filter fun thread => thread.id != threadId
    let hidden := (state.hiddenOf workspaceId).insert threadId ()
    ({ state with
        hiddenThreadIdsByWorkspace := state.hiddenThreadIdsByWorkspace.insert workspaceId hidden }.setThreadsOf
      workspaceId filtered).setActive workspaceId (state.activeWithout workspaceId threadId filtered)

def reduceRemoveThread : ThreadState :=
  let filtered := (state.threadsOf workspaceId).filter fun thread => thread.id != threadId
  ({ state with
      itemsByThread := state.itemsByThread.erase threadId
      threadStatusById := state.threadStatusById.erase threadId
      threadParentById := state.threadParentById.erase threadId }.setThreadsOf
    workspaceId filtered).setActive workspaceId (state.activeWithout workspaceId threadId filtered)

def reduceSetThreadParent (threadId parentId : JsString) : ThreadState :=
  if parentId = [] ∨ parentId = threadId ∨ state.threadParentById.lookup threadId = some parentId then state
  else { state with threadParentById := state.threadParentById.insert threadId parentId }

def reduceMarkProcessing (threadId : JsString) (isProcessing : Bool) (timestamp : Int) : ThreadState :=
  let previous := state.statusOf threadId
  let startedAt := previous.processingStartedAt.filter fun startedAt => previous.isProcessing && startedAt != 0
  let nextStatus : ThreadActivityStatus :=
    if isProcessing then
      { previous with isProcessing := true, processingStartedAt := some (startedAt.getD timestamp) }
    else
      { previous with
        isProcessing := false
        processingStartedAt := none
        lastDurationMs := (startedAt.map fun startedAt => max 0 (timestamp - startedAt)) <|> previous.lastDurationMs }
  if state.threadStatusById.lookup threadId = some nextStatus then state else state.setStatus threadId nextStatus

/-- The entries of the thread are changed; nothing happens if none of them is. -/
def mapThread (f : ThreadSummary → ThreadSummary) : ThreadState :=
  let list := state.threadsOf workspaceId
  let next := list.map fun thread => if thread.id = threadId then f thread else thread
  if next = list then state else state.setThreadsOf workspaceId next

def reduceSetThreadName (workspaceId threadId name : JsString) : ThreadState :=
  state.mapThread workspaceId threadId fun thread => { thread with name }

def reduceMergeThreadSummary (patch : ThreadSummaryPatch) : ThreadState :=
  state.mapThread workspaceId threadId patch.apply

def bumpThread (threads : List ThreadSummary) : List ThreadSummary :=
  if state.prefersUpdatedSort workspaceId then
    threads.filter (fun thread => thread.id == threadId) ++ threads.filter fun thread => thread.id != threadId
  else threads

def reduceSetThreadTimestamp (timestamp : Int) : ThreadState :=
  let list := state.threadsOf workspaceId
  let next := list.map fun thread =>
    if thread.id = threadId ∧ thread.updatedAt < timestamp then { thread with updatedAt := timestamp } else thread
  if next = list then state else state.setThreadsOf workspaceId (state.bumpThread workspaceId threadId next)

/-! ## A list of the server -/

def freshenAnchorSummary (summary : ThreadSummary) : ThreadSummary :=
  let lastMessageTimestamp := ((state.lastAgentMessageByThread.lookup summary.id).map (·.timestamp)).getD 0
  let processingStartedAt := (state.statusOf summary.id).processingStartedAt.getD 0
  { summary with updatedAt := max summary.updatedAt (max lastMessageTimestamp processingStartedAt) }

def appendExistingAnchor (reconciled : List ThreadSummary) (threadId : JsString) :
    List ThreadSummary :=
  if threadId = [] ∨ state.hides workspaceId threadId ∨ reconciled.any (fun thread => thread.id == threadId) then
    reconciled
  else
    match (state.threadsOf workspaceId).reverse.find? fun thread => thread.id == threadId with
    | some summary => reconciled ++ [state.freshenAnchorSummary summary]
    | none => reconciled

def appendAncestors (workspaceId : JsString) : Nat → List JsString → List ThreadSummary → JsString → List ThreadSummary
  | 0, _, reconciled, _ => reconciled
  | fuel + 1, visited, reconciled, threadId =>
      match (state.threadParentById.lookup threadId).filter (· ≠ []) with
      | none => reconciled
      | some parentId =>
          if visited.contains parentId then reconciled
          else
            appendAncestors workspaceId fuel (parentId :: visited)
              (state.appendExistingAnchor workspaceId reconciled parentId) parentId

/-- Each thread but the first one that the walk visits is the child of another, so that it visits no more. -/
def walkFuel : Nat := state.threadParentById.entries.length + 1

def reconcileThreads (visibleThreads : List ThreadSummary) : List ThreadSummary :=
  let withActive := (state.activeThreadIdOf workspaceId).elim visibleThreads
    (state.appendExistingAnchor workspaceId visibleThreads)
  let withProcessing := (state.threadsOf workspaceId).foldl
    (fun reconciled thread =>
      if (state.statusOf thread.id).isProcessing then state.appendExistingAnchor workspaceId reconciled thread.id
      else reconciled) withActive
  (ThreadSummary.ids withProcessing).foldl
    (fun reconciled threadId => state.appendAncestors workspaceId state.walkFuel [threadId] reconciled threadId)
    withProcessing

def reduceSetThreads (threads : List ThreadSummary) (sortKey : ThreadListSortKey)
    (preserveAnchors : Bool) : ThreadState :=
  let visibleThreads := threads.filter fun thread => !state.hides workspaceId thread.id
  let sorted := { state with
    threadSortKeyByWorkspace := state.threadSortKeyByWorkspace.insert workspaceId sortKey }
  if preserveAnchors then sorted.setThreadsOf workspaceId (state.reconcileThreads workspaceId visibleThreads)
  else
    let active := (state.activeThreadIdOf workspaceId).filter fun threadId =>
      threadId ≠ [] ∧ visibleThreads.any fun thread => thread.id == threadId
    (sorted.setThreadsOf workspaceId visibleThreads).setActive workspaceId
      (active <|> visibleThreads.head?.map ThreadSummary.id)

def reduceThreadLifecycle : ThreadAction → ThreadState
  | .setActiveThreadId workspaceId threadId => state.reduceSetActiveThreadId workspaceId threadId
  | .ensureThread workspaceId threadId => state.reduceEnsureThread workspaceId threadId
  | .hideThread workspaceId threadId => state.reduceHideThread workspaceId threadId
  | .removeThread workspaceId threadId => state.reduceRemoveThread workspaceId threadId
  | .setThreadParent threadId parentId => state.reduceSetThreadParent threadId parentId
  | .markProcessing threadId isProcessing timestamp => state.reduceMarkProcessing threadId isProcessing timestamp
  | .setThreadName workspaceId threadId name => state.reduceSetThreadName workspaceId threadId name
  | .mergeThreadSummary workspaceId threadId patch => state.reduceMergeThreadSummary workspaceId threadId patch
  | .setThreadTimestamp workspaceId threadId timestamp => state.reduceSetThreadTimestamp workspaceId threadId timestamp
  | .setThreads workspaceId threads sortKey preserveAnchors =>
      state.reduceSetThreads workspaceId threads sortKey preserveAnchors
  | _ => state

end ThreadState

def threadReducer (state : ThreadState) (action : ThreadAction) : ThreadState :=
  (state.reduceThreadLifecycle action).reduceThreadItems action

end CodexStudy.Desktop
