import CodexStudy.Desktop.ThreadLifecycle
import CodexStudy.Lib.Chains
import Mathlib.Data.List.Perm.Basic

/-!
# The threads that are listed

Whatever actions have been taken, no thread is listed twice or listed where it is hidden.
-/

namespace CodexStudy.Desktop

open CodexStudy.Lib JsString ThreadSummary List ThreadState

structure ThreadListsOk (state : ThreadState) : Prop where
  distinct : ∀ workspaceId, (ids (state.threadsOf workspaceId)).Nodup
  visible : ∀ workspaceId, ∀ id ∈ ids (state.threadsOf workspaceId), state.hides workspaceId id = false

/-- A list of the server has each thread once. -/
def DistinctThreads : ThreadAction → Prop
  | .setThreads _ threads _ _ => (ids threads).Nodup
  | _ => True

section

variable {state state' : ThreadState} {workspaceId threadId : JsString}

/-! ## Lists -/

theorem ids_map {f : ThreadSummary → ThreadSummary} (hf : ∀ thread, (f thread).id = thread.id)
    (threads : List ThreadSummary) : ids (threads.map f) = ids threads := by
  unfold ids
  rw [map_map]
  exact map_congr_left fun thread _ => hf thread

theorem ids_filter_sublist (p : ThreadSummary → Bool) (threads : List ThreadSummary) :
    (ids (threads.filter p)).Sublist (ids threads) := filter_sublist.map _

theorem ids_partition_perm (threads : List ThreadSummary) :
    (ThreadSummary.ids (threads.filter (fun thread => thread.id == threadId) ++
      threads.filter fun thread => thread.id != threadId)).Perm (ThreadSummary.ids threads) :=
  (List.filter_append_perm (fun thread : ThreadSummary => thread.id == threadId) threads).map ThreadSummary.id

variable {threads : List ThreadSummary}

theorem any_id_iff : threads.any (fun thread => thread.id == threadId) = true ↔ threadId ∈ ids threads := by
  rw [any_eq_true, ids, mem_map]
  simp only [beq_iff_eq]

theorem threadsOf_setThreadsOf (threads : List ThreadSummary) (other : JsString) :
    (state.setThreadsOf workspaceId threads).threadsOf other =
      if other = workspaceId then threads else state.threadsOf other := by
  unfold setThreadsOf threadsOf
  rw [HashMap.lookup_insert_eq]
  split
  next => rfl
  next => rfl

/-! ## States that list the same -/

variable (h : ThreadListsOk state)

include h in
theorem ThreadListsOk.congr (hthreads : state'.threadsByWorkspace = state.threadsByWorkspace)
    (hhidden : state'.hiddenThreadIdsByWorkspace = state.hiddenThreadIdsByWorkspace) : ThreadListsOk state' := by
  have hlist : ∀ workspaceId, state'.threadsOf workspaceId = state.threadsOf workspaceId := by
    intro workspaceId
    rw [threadsOf, hthreads]
    rfl
  have hhides : ∀ workspaceId id, state'.hides workspaceId id = state.hides workspaceId id := by
    intro workspaceId id
    rw [hides, hiddenOf, hhidden]
    rfl
  constructor
  · intro workspaceId
    rw [hlist]
    exact h.distinct workspaceId
  · intro workspaceId id hid
    rw [hlist] at hid
    rw [hhides]
    exact h.visible workspaceId id hid

include h in
theorem ThreadListsOk.setThreadsOf (hdist : (ids threads).Nodup)
    (hvis : ∀ id ∈ ids threads, state.hides workspaceId id = false) :
    ThreadListsOk (state.setThreadsOf workspaceId threads) := by
  constructor
  · intro other
    rw [threadsOf_setThreadsOf]
    split
    next => exact hdist
    next => exact h.distinct other
  · intro other id hid
    rw [threadsOf_setThreadsOf] at hid
    split at hid
    next heq =>
      rw [heq]
      exact hvis id hid
    next => exact h.visible other id hid

include h in
theorem ThreadListsOk.setThreadsOf_of_perm (hperm : (ids threads).Perm (ids (state.threadsOf workspaceId))) :
    ThreadListsOk (state.setThreadsOf workspaceId threads) :=
  h.setThreadsOf (hperm.nodup_iff.mpr (h.distinct workspaceId)) fun id hid =>
    h.visible workspaceId id (hperm.mem_iff.mp hid)

include h in
theorem ThreadListsOk.setThreadsOf_of_sublist (hsub : (ids threads).Sublist (ids (state.threadsOf workspaceId))) :
    ThreadListsOk (state.setThreadsOf workspaceId threads) :=
  h.setThreadsOf ((h.distinct workspaceId).sublist hsub) fun id hid => h.visible workspaceId id (hsub.subset hid)

theorem ids_bumpThread (threads : List ThreadSummary) :
    (ids (state.bumpThread workspaceId threadId threads)).Perm (ids threads) := by
  unfold bumpThread
  split
  next => exact ids_partition_perm threads
  next => exact List.Perm.refl _

/-! ## Actions on the list -/

include h in
theorem ok_setActiveThreadId (active : Option JsString) :
    ThreadListsOk (state.reduceSetActiveThreadId workspaceId active) := by
  unfold reduceSetActiveThreadId
  simp only
  split
  next => exact h.congr rfl rfl
  next => exact h.congr rfl rfl

include h in
theorem ok_ensureThread : ThreadListsOk (state.reduceEnsureThread workspaceId threadId) := by
  unfold reduceEnsureThread
  simp only
  split
  next => exact h
  next hnew =>
    obtain ⟨hhidden, hlis⟩ := not_or.mp hnew
    rw [any_id_iff] at hlis
    have hlist : ∀ thread : ThreadSummary, thread.id = threadId →
        ThreadListsOk (state.setThreadsOf workspaceId (thread :: state.threadsOf workspaceId)) := by
      rintro thread rfl
      refine h.setThreadsOf (nodup_cons.mpr ⟨hlis, h.distinct workspaceId⟩) fun id hid => ?_
      rcases mem_cons.mp hid with rfl | hid
      · exact Bool.of_not_eq_true hhidden
      · exact h.visible workspaceId id hid
    exact (hlist _ rfl).congr rfl rfl

theorem mem_ids_filter {id : JsString} (hid : id ∈ ids (threads.filter fun thread => thread.id != threadId)) :
    id ∈ ids threads ∧ id ≠ threadId := by
  obtain ⟨thread, hthread, rfl⟩ := mem_map.mp hid
  obtain ⟨hmem, hne⟩ := mem_filter.mp hthread
  exact ⟨mem_map_of_mem hmem, ne_of_apply_ne (· == threadId) (by simpa using hne)⟩

include h in
theorem ok_hideThread : ThreadListsOk (state.reduceHideThread workspaceId threadId) := by
  unfold reduceHideThread
  split
  next => exact h
  next =>
    constructor
    · intro other
      change (ids (threadsOf (setThreadsOf _ _ _) other)).Nodup
      rw [threadsOf_setThreadsOf]
      split
      next => exact (h.distinct workspaceId).sublist (ids_filter_sublist _ _)
      next => exact h.distinct other
    · intro other id hid
      change id ∈ ids (threadsOf (setThreadsOf _ _ _) other) at hid
      rw [threadsOf_setThreadsOf] at hid
      unfold hides hiddenOf setActive setThreadsOf
      simp only
      rw [HashMap.lookup_insert_eq]
      split at hid
      next heq =>
        obtain ⟨hlis, hne⟩ := mem_ids_filter hid
        rw [if_pos heq, Option.getD_some, HashMap.lookup_insert_eq, if_neg hne]
        exact h.visible workspaceId id hlis
      next hne =>
        rw [if_neg hne]
        exact h.visible other id hid

include h in
theorem ok_removeThread : ThreadListsOk (state.reduceRemoveThread workspaceId threadId) := by
  unfold reduceRemoveThread
  have hcleared : ThreadListsOk { state with
      itemsByThread := state.itemsByThread.erase threadId
      threadStatusById := state.threadStatusById.erase threadId
      threadParentById := state.threadParentById.erase threadId } := h.congr rfl rfl
  exact (hcleared.setThreadsOf_of_sublist (ids_filter_sublist _ _)).congr rfl rfl

include h in
theorem ok_setThreadParent (parentId : JsString) :
    ThreadListsOk (state.reduceSetThreadParent threadId parentId) := by
  unfold reduceSetThreadParent
  split
  next => exact h
  next => exact h.congr rfl rfl

include h in
theorem ok_markProcessing (isProcessing : Bool) (timestamp : Int) :
    ThreadListsOk (state.reduceMarkProcessing threadId isProcessing timestamp) := by
  have hstatus : ∀ status, ThreadListsOk
      (if state.threadStatusById.lookup threadId = some status then state else state.setStatus threadId status) := by
    intro status
    split
    next => exact h
    next => exact h.congr rfl rfl
  exact hstatus _

include h in
theorem ok_mapThread {f : ThreadSummary → ThreadSummary} (hf : ∀ thread, (f thread).id = thread.id) :
    ThreadListsOk (state.mapThread workspaceId threadId f) := by
  unfold mapThread
  simp only
  split
  next => exact h
  next =>
    refine h.setThreadsOf_of_perm (List.Perm.of_eq (ids_map (fun thread => ?_) _))
    split
    next => exact hf thread
    next => rfl

include h in
theorem ok_setThreadTimestamp (timestamp : Int) :
    ThreadListsOk (state.reduceSetThreadTimestamp workspaceId threadId timestamp) := by
  unfold reduceSetThreadTimestamp
  simp only
  split
  next => exact h
  next =>
    refine h.setThreadsOf_of_perm ((ids_bumpThread _).trans (List.Perm.of_eq (ids_map (fun thread => ?_) _)))
    split
    next => rfl
    next => rfl

/-! ## Actions on items -/

include h in
theorem ok_setItems (items : List ConversationItem) :
    ThreadListsOk (state.setItems threadId items) := h.congr rfl rfl

include h in
theorem ok_renameFromUser (text : JsString) (hadUserMessage hasCustomName : Bool) :
    ThreadListsOk (state.renameFromUser workspaceId threadId text hadUserMessage hasCustomName) := by
  unfold renameFromUser
  refine h.setThreadsOf_of_perm ?_
  have hids : ∀ name : JsString, (ids ((state.threadsOf workspaceId).map fun thread =>
      if thread.id = threadId ∧ !hadUserMessage ∧ extractRenameText text ≠ [] ∧
          looksAutoGeneratedThreadName thread.name ∧ !hasCustomName then { thread with name } else thread)) =
      ids (state.threadsOf workspaceId) := by
    intro name
    refine ids_map (fun thread => ?_) _
    split
    next => rfl
    next => rfl
  split
  next => exact (ids_partition_perm _).trans (List.Perm.of_eq (hids _))
  next => exact List.Perm.of_eq (hids _)

include h in
theorem ok_maybeRenameThreadFromAgent (items : List ConversationItem) (itemId : JsString) (hasCustomName : Bool) :
    ThreadListsOk (state.maybeRenameThreadFromAgent workspaceId threadId items itemId hasCustomName) := by
  unfold maybeRenameThreadFromAgent
  split
  next => exact h
  next =>
    split
    next => exact h
    next =>
      refine h.setThreadsOf_of_perm (List.Perm.of_eq (ids_map (fun thread => ?_) _))
      split
      next => rfl
      next => rfl

include h in
theorem ok_upsertItem (item : ConversationItem) (hasCustomName : Bool) :
    ThreadListsOk (state.reduceUpsertItem workspaceId threadId item hasCustomName) := by
  unfold reduceUpsertItem
  extract_lets item list updated
  clear_value list item
  split
  next => exact h
  next =>
    split
    next => exact ok_renameFromUser (ok_setItems h _) ..
    next => exact ok_setItems h _

include h in
theorem ok_reduceReasoning (itemId : JsString) (f : JsString → JsString → ConversationItem) :
    ThreadListsOk (state.reduceReasoning threadId itemId f) := ok_setItems h _

include h in
theorem ok_reduceToolOutput (itemId delta : JsString) :
    ThreadListsOk (state.reduceToolOutput threadId itemId delta) := by
  unfold reduceToolOutput
  simp only
  split
  next => exact ok_setItems h _
  next => exact h

include h in
theorem ok_reduceThreadItems (action : ThreadAction) :
    ThreadListsOk (state.reduceThreadItems action) := by
  cases action with
  | upsertItem workspaceId threadId item hasCustomName => exact ok_upsertItem h item hasCustomName
  | appendAgentDelta workspaceId threadId itemId delta hasCustomName =>
      exact ok_maybeRenameThreadFromAgent (ok_setItems h _) ..
  | appendReasoningSummary threadId itemId delta => exact ok_reduceReasoning h ..
  | appendReasoningContent threadId itemId delta => exact ok_reduceReasoning h ..
  | appendToolOutput threadId itemId delta => exact ok_reduceToolOutput h ..
  | _ => exact h

end

/-! ## Walks to the parents -/

def ThreadState.parentOf (state : ThreadState) (threadId : JsString) : Option JsString :=
  (state.threadParentById.lookup threadId).filter (· ≠ [])

/-- The thread is above the other one, by one step or more. -/
def Ancestor (state : ThreadState) (threadId ancestorId : JsString) : Prop :=
  Relation.TransGen (fun a b => state.parentOf a = some b) threadId ancestorId

def ThreadState.ancestorWalk (state : ThreadState) (threadId : JsString) : List JsString :=
  walkFrom state.parentOf [threadId] state.walkFuel threadId

/-- The condition under which a listed thread can be kept. -/
def Anchorable (state : ThreadState) (workspaceId threadId : JsString) : Prop :=
  threadId ≠ [] ∧ state.hides workspaceId threadId = false ∧ threadId ∈ ids (state.threadsOf workspaceId)

/-- The threads that a list of the server keeps: those in it, and of those that may be added again the active one, the
processing ones, and ancestors of kept ones. -/
inductive Kept (mayAdd : JsString → Prop) (state : ThreadState) (workspaceId : JsString) (incoming : List JsString) :
    JsString → Prop where
  | incoming {id : JsString} : id ∈ incoming → Kept mayAdd state workspaceId incoming id
  | active {id : JsString} : mayAdd id → state.activeThreadIdOf workspaceId = some id →
      Kept mayAdd state workspaceId incoming id
  | processing {id : JsString} : mayAdd id → (state.statusOf id).isProcessing = true →
      Kept mayAdd state workspaceId incoming id
  | ancestor {id child : JsString} : mayAdd id → Kept mayAdd state workspaceId incoming child →
      Ancestor state child id → Kept mayAdd state workspaceId incoming id

/-- The second list is the first one with listed threads after it, each with the time of its last event. -/
structure AddsAnchors (state : ThreadState) (workspaceId : JsString) (threads result : List ThreadSummary) : Prop where
  added : ∃ anchors, result = threads ++ anchors ∧
    ∀ anchor ∈ anchors, ∃ summary ∈ state.threadsOf workspaceId, anchor = state.freshenAnchorSummary summary
  distinct : (ids threads).Nodup → (ids result).Nodup
  visible : (∀ id ∈ ids threads, state.hides workspaceId id = false) →
    ∀ id ∈ ids result, state.hides workspaceId id = false

section

variable {state : ThreadState} {workspaceId threadId : JsString}

/-- The walk ends by itself, and is not cut off. -/
theorem walks_ancestorWalk (state : ThreadState) (threadId : JsString) :
    Walks state.parentOf [threadId] threadId (state.ancestorWalk threadId) := by
  refine @walks_walkFrom _ _ _ state.threadParentById.keys _ _ _ ?_ (nil_subset _) (nodup_singleton _) ?_
  · intro y z hparent
    obtain ⟨hlk, -⟩ := Option.filter_eq_some_iff.mp hparent
    exact AList.lookup_isSome.mp (by rw [hlk]; rfl)
  · have hlen : state.threadParentById.keys.length = state.threadParentById.entries.length := length_map _
    rw [hlen]
    exact Nat.lt_succ_self _

theorem appendAncestors_eq (fuel : Nat) (visited : List JsString) (reconciled : List ThreadSummary) (threadId : JsString) :
    state.appendAncestors workspaceId fuel visited reconciled threadId =
      (walkFrom state.parentOf visited fuel threadId).foldl (state.appendExistingAnchor workspaceId) reconciled := by
  induction fuel generalizing visited reconciled threadId with
  | zero => rfl
  | succ fuel ih =>
      unfold appendAncestors walkFrom parentOf
      cases hparent : (state.threadParentById.lookup threadId).filter (· ≠ []) with
      | none => rfl
      | some parentId =>
          simp only [contains_iff_mem]
          split
          next => rfl
          next =>
            rw [ih]
            rfl

/-! ## Threads that are added again -/

theorem AddsAnchors.refl (threads : List ThreadSummary) : AddsAnchors state workspaceId threads threads :=
  ⟨⟨[], (append_nil threads).symm, fun _ h => (by cases h)⟩, id, id⟩

theorem AddsAnchors.trans {threads middle result : List ThreadSummary}
    (h₁ : AddsAnchors state workspaceId threads middle) (h₂ : AddsAnchors state workspaceId middle result) :
    AddsAnchors state workspaceId threads result := by
  obtain ⟨anchors₁, rfl, hanchors₁⟩ := h₁.added
  obtain ⟨anchors₂, rfl, hanchors₂⟩ := h₂.added
  refine ⟨⟨anchors₁ ++ anchors₂, append_assoc .., fun anchor hmem => ?_⟩, fun h => h₂.distinct (h₁.distinct h),
    fun h => h₂.visible (h₁.visible h)⟩
  rcases mem_append.mp hmem with hmem | hmem
  · exact hanchors₁ anchor hmem
  · exact hanchors₂ anchor hmem

theorem AddsAnchors.foldl {α : Type} {f : List ThreadSummary → α → List ThreadSummary}
    (hf : ∀ threads x, AddsAnchors state workspaceId threads (f threads x)) (xs : List α) (threads : List ThreadSummary) :
    AddsAnchors state workspaceId threads (xs.foldl f threads) := by
  induction xs generalizing threads with
  | nil => exact .refl threads
  | cons x xs ih => exact (hf threads x).trans (ih (f threads x))

theorem mem_ids_foldl {α : Type} {f : List ThreadSummary → α → List ThreadSummary} {adds : α → JsString → Prop}
    (hf : ∀ threads x id, id ∈ ids (f threads x) ↔ id ∈ ids threads ∨ adds x id)
    (xs : List α) (threads : List ThreadSummary) (id : JsString) :
    id ∈ ids (xs.foldl f threads) ↔ id ∈ ids threads ∨ ∃ x ∈ xs, adds x id := by
  induction xs generalizing threads with
  | nil => simp
  | cons x xs ih =>
      rw [foldl_cons, ih, hf, or_assoc]
      simp only [mem_cons, exists_eq_or_imp]

theorem appendExistingAnchor_spec (reconciled : List ThreadSummary) (threadId : JsString) :
    AddsAnchors state workspaceId reconciled (state.appendExistingAnchor workspaceId reconciled threadId) ∧
      ∀ id, id ∈ ids (state.appendExistingAnchor workspaceId reconciled threadId) ↔
        id ∈ ids reconciled ∨ (id = threadId ∧ Anchorable state workspaceId threadId) := by
  unfold appendExistingAnchor
  split
  next hskip =>
    refine ⟨.refl _, fun id => ⟨.inl, ?_⟩⟩
    rintro (hid | ⟨rfl, hne, hvis, -⟩)
    · exact hid
    · rcases hskip with hemp | hhidden | hmem
      · exact absurd hemp hne
      · rw [hvis] at hhidden
        cases hhidden
      · exact any_id_iff.mp hmem
  next hadd =>
    obtain ⟨hne, hadd⟩ := not_or.mp hadd
    obtain ⟨hvis, hnew⟩ := not_or.mp hadd
    have hvis := Bool.of_not_eq_true hvis
    rw [any_id_iff] at hnew
    split
    next summary hfind =>
      have hsum : summary ∈ state.threadsOf workspaceId := mem_reverse.mp (mem_of_find?_eq_some hfind)
      obtain rfl : summary.id = threadId := beq_iff_eq.mp (find?_some hfind :)
      have hids : ids (reconciled ++ [state.freshenAnchorSummary summary]) =
          ids reconciled ++ [summary.id] := map_append
      refine ⟨⟨⟨_, rfl, fun anchor hanchor => ⟨summary, hsum, mem_singleton.mp hanchor⟩⟩, ?_, ?_⟩, ?_⟩
      · intro hnd
        rw [hids]
        exact nodup_append.mpr ⟨hnd, nodup_singleton _, fun a ha b hb heq =>
          hnew (mem_singleton.mp hb ▸ heq ▸ ha)⟩
      · intro hall id hid
        rw [hids] at hid
        rcases mem_append.mp hid with hid | hid
        · exact hall id hid
        · rw [mem_singleton.mp hid]
          exact hvis
      · intro id
        rw [hids, mem_append, mem_singleton]
        exact or_congr_right ⟨fun heq => ⟨heq, hne, hvis, mem_map_of_mem hsum⟩, fun h => h.1⟩
    next hfind =>
      refine ⟨.refl _, fun id => ⟨.inl, ?_⟩⟩
      rintro (hid | ⟨rfl, -, -, hlis⟩)
      · exact hid
      · obtain ⟨summary, hmem, hsum⟩ := mem_map.mp hlis
        have hnone := find?_eq_none.mp hfind summary (mem_reverse.mpr hmem)
        exact absurd (beq_iff_eq.mpr hsum) hnone

theorem addsAnchors_reconcileThreads (visibleThreads : List ThreadSummary) :
    AddsAnchors state workspaceId visibleThreads (state.reconcileThreads workspaceId visibleThreads) := by
  have happ : ∀ threads id, AddsAnchors state workspaceId threads (state.appendExistingAnchor workspaceId threads id) :=
    fun threads id => (appendExistingAnchor_spec threads id).1
  unfold reconcileThreads
  refine AddsAnchors.trans (AddsAnchors.trans ?_ (AddsAnchors.foldl ?_ _ _)) (AddsAnchors.foldl ?_ _ _)
  · cases state.activeThreadIdOf workspaceId with
    | none => exact .refl _
    | some id => exact happ _ id
  · intro threads thread
    split
    next => exact happ _ _
    next => exact .refl _
  · intro threads id
    rw [appendAncestors_eq]
    exact AddsAnchors.foldl happ _ _

/-- The threads that are kept before the walks to the parents. -/
def Seed (state : ThreadState) (workspaceId : JsString) (incoming : List JsString) (id : JsString) : Prop :=
  id ∈ incoming ∨ (Anchorable state workspaceId id ∧
    (state.activeThreadIdOf workspaceId = some id ∨ (state.statusOf id).isProcessing = true))

theorem mem_reconcileThreads (visibleThreads : List ThreadSummary) (id : JsString) :
    id ∈ ids (state.reconcileThreads workspaceId visibleThreads) ↔ Seed state workspaceId (ids visibleThreads) id ∨
        ∃ seed, Seed state workspaceId (ids visibleThreads) seed ∧ id ∈ state.ancestorWalk seed ∧
          Anchorable state workspaceId id := by
  have hact : ∀ id, id ∈ ids ((state.activeThreadIdOf workspaceId).elim visibleThreads
      (state.appendExistingAnchor workspaceId visibleThreads)) ↔ id ∈ ids visibleThreads ∨
        (state.activeThreadIdOf workspaceId = some id ∧ Anchorable state workspaceId id) := by
    intro id
    cases state.activeThreadIdOf workspaceId with
    | none => simp
    | some active =>
        rw [Option.elim_some, (appendExistingAnchor_spec visibleThreads active).2]
        constructor
        · rintro (h | ⟨rfl, h⟩)
          · exact .inl h
          · exact .inr ⟨rfl, h⟩
        · rintro (h | ⟨heq, h⟩)
          · exact .inl h
          · cases heq
            exact .inr ⟨rfl, h⟩
  have hseed : ∀ (threads : List ThreadSummary) (thread : ThreadSummary) (id : JsString),
      id ∈ ids (if (state.statusOf thread.id).isProcessing then
        state.appendExistingAnchor workspaceId threads thread.id else threads) ↔ id ∈ ids threads ∨
        ((state.statusOf thread.id).isProcessing = true ∧ id = thread.id ∧ Anchorable state workspaceId thread.id) := by
    intro threads thread id
    split
    next hproc =>
      rw [(appendExistingAnchor_spec threads thread.id).2]
      simp only [hproc, true_and]
    next hproc => simp only [hproc, false_and, or_false, Bool.false_eq_true]
  have hwalk : ∀ threads seed id, id ∈ ids (state.appendAncestors workspaceId state.walkFuel [seed] threads
      seed) ↔ id ∈ ids threads ∨ (id ∈ state.ancestorWalk seed ∧ Anchorable state workspaceId id) := by
    intro threads seed id
    rw [appendAncestors_eq, mem_ids_foldl fun threads parent id => (appendExistingAnchor_spec threads parent).2 id]
    refine or_congr_right ⟨?_, fun h => ⟨id, h.1, rfl, h.2⟩⟩
    rintro ⟨parent, hparent, rfl, h⟩
    exact ⟨hparent, h⟩
  have hproc : ∀ id, (∃ thread ∈ state.threadsOf workspaceId, (state.statusOf thread.id).isProcessing = true ∧
      id = thread.id ∧ Anchorable state workspaceId thread.id) ↔
      ((state.statusOf id).isProcessing = true ∧ Anchorable state workspaceId id) := by
    intro id
    constructor
    · rintro ⟨thread, -, hproc, rfl, hanchor⟩
      exact ⟨hproc, hanchor⟩
    · rintro ⟨hproc, hanchor⟩
      obtain ⟨thread, hmem, rfl⟩ := mem_map.mp hanchor.2.2
      exact ⟨thread, hmem, hproc, rfl, hanchor⟩
  have hseeds : ∀ id, id ∈ ids ((state.threadsOf workspaceId).foldl (fun reconciled thread =>
      if (state.statusOf thread.id).isProcessing then state.appendExistingAnchor workspaceId reconciled thread.id
      else reconciled) ((state.activeThreadIdOf workspaceId).elim visibleThreads
        (state.appendExistingAnchor workspaceId visibleThreads))) ↔
      Seed state workspaceId (ids visibleThreads) id := by
    intro id
    rw [mem_ids_foldl hseed, hact, hproc, Seed]
    tauto
  unfold reconcileThreads
  simp only
  rw [mem_ids_foldl hwalk, hseeds]
  simp only [hseeds]

theorem kept_iff {incoming : List JsString} {id : JsString} :
    Kept (Anchorable state workspaceId) state workspaceId incoming id ↔ Seed state workspaceId incoming id ∨
        ∃ seed, Seed state workspaceId incoming seed ∧ id ∈ state.ancestorWalk seed ∧ Anchorable state workspaceId id := by
  have hseed : ∀ id, Seed state workspaceId incoming id →
      Kept (Anchorable state workspaceId) state workspaceId incoming id := by
    rintro id (h | ⟨hanchor, h | h⟩)
    · exact .incoming h
    · exact .active hanchor h
    · exact .processing hanchor h
  constructor
  · intro h
    induction h with
    | incoming h => exact .inl (.inl h)
    | active hanchor h => exact .inl (.inr ⟨hanchor, .inl h⟩)
    | processing hanchor h => exact .inl (.inr ⟨hanchor, .inr h⟩)
    | @ancestor id child hanchor _ habove ih =>
        -- The thread is above the seed that the child is, or is above.
        obtain ⟨seed, hseed, hreach⟩ : ∃ seed, Seed state workspaceId incoming seed ∧ Ancestor state seed id := by
          rcases ih with hch | ⟨seed, hseed, hwalk, -⟩
          · exact ⟨child, hch, habove⟩
          · exact ⟨seed, hseed, ((walks_ancestorWalk state seed).reached hwalk).trans habove⟩
        rcases (walks_ancestorWalk state seed).passes hreach with rfl | hwalk
        · exact .inl hseed
        · exact .inr ⟨seed, hseed, hwalk, hanchor⟩
  · rintro (h | ⟨seed, h, hwalk, hanchor⟩)
    · exact hseed id h
    · exact .ancestor hanchor (hseed seed h) ((walks_ancestorWalk state seed).reached hwalk)

/-! ## A list of the server -/

theorem ok_setThreads (h : ThreadListsOk state) {threads : List ThreadSummary}
    (hdist : (ids threads).Nodup) (sortKey : ThreadListSortKey) (preserveAnchors : Bool) :
    ThreadListsOk (state.reduceSetThreads workspaceId threads sortKey preserveAnchors) := by
  have hsrt : ThreadListsOk { state with
      threadSortKeyByWorkspace := state.threadSortKeyByWorkspace.insert workspaceId sortKey } := h.congr rfl rfl
  have hnd : (ids (threads.filter fun thread => !state.hides workspaceId thread.id)).Nodup :=
    hdist.sublist (ids_filter_sublist _ _)
  have hvis : ∀ id ∈ ids (threads.filter fun thread => !state.hides workspaceId thread.id),
      state.hides workspaceId id = false := by
    intro id hid
    obtain ⟨thread, hthread, rfl⟩ := mem_map.mp hid
    exact Bool.not_eq_true' _ ▸ (mem_filter.mp hthread).2
  unfold reduceSetThreads
  simp only
  split
  next =>
    have hadds := @addsAnchors_reconcileThreads state workspaceId
      (threads.filter fun thread => !state.hides workspaceId thread.id)
    exact hsrt.setThreadsOf (hadds.distinct hnd) (hadds.visible hvis)
  next => exact (hsrt.setThreadsOf hnd hvis).congr rfl rfl

theorem ok_threadReducer (h : ThreadListsOk state) {action : ThreadAction} (hdist : DistinctThreads action) :
    ThreadListsOk (threadReducer state action) := by
  refine ok_reduceThreadItems ?_ action
  cases action with
  | setActiveThreadId workspaceId threadId => exact ok_setActiveThreadId h threadId
  | ensureThread workspaceId threadId => exact ok_ensureThread h
  | hideThread workspaceId threadId => exact ok_hideThread h
  | removeThread workspaceId threadId => exact ok_removeThread h
  | setThreadParent threadId parentId => exact ok_setThreadParent h parentId
  | markProcessing threadId isProcessing timestamp => exact ok_markProcessing h isProcessing timestamp
  | setThreadName workspaceId threadId name => exact ok_mapThread h fun _ => rfl
  | mergeThreadSummary workspaceId threadId patch => exact ok_mapThread h fun _ => rfl
  | setThreadTimestamp workspaceId threadId timestamp => exact ok_setThreadTimestamp h timestamp
  | setThreads workspaceId threads sortKey preserveAnchors => exact ok_setThreads h hdist sortKey preserveAnchors
  | _ => exact h

theorem threadsOf_setThreads (threads : List ThreadSummary) (sortKey : ThreadListSortKey) :
    (threadReducer state (.setThreads workspaceId threads sortKey true)).threadsOf workspaceId =
      state.reconcileThreads workspaceId (threads.filter fun thread => !state.hides workspaceId thread.id) := by
  change (setThreadsOf _ _ _).threadsOf workspaceId = _
  rw [threadsOf_setThreadsOf, if_pos rfl]

end

/-! ## Whole runs -/

/-- What a list of the server leaves: its visible threads in their order, and after them the others that are kept. -/
structure KeepsAnchors (mayAdd : JsString → Prop) (state : ThreadState) (workspaceId : JsString)
    (threads result : List ThreadSummary) : Prop where
  adds : AddsAnchors state workspaceId (threads.filter fun thread => !state.hides workspaceId thread.id) result
  kept : ∀ id, id ∈ ids result ↔ Kept mayAdd state workspaceId
    (ids (threads.filter fun thread => !state.hides workspaceId thread.id)) id

def runActions (actions : List ThreadAction) : ThreadState := actions.foldl threadReducer {}

theorem ok_runActions {actions : List ThreadAction} (h : ∀ action ∈ actions, DistinctThreads action) :
    ThreadListsOk (runActions actions) := by
  have hrun : ∀ state, ThreadListsOk state → ThreadListsOk (actions.foldl threadReducer state) := by
    induction actions with
    | nil => exact fun state hstt => hstt
    | cons action actions ih =>
        intro state hstt
        exact ih (fun a ha => h a (mem_cons_of_mem _ ha)) _ (ok_threadReducer hstt (h action mem_cons_self))
  exact hrun {} ⟨fun _ => nodup_nil, fun _ _ h => (by cases h)⟩

def cyclicParents : List ThreadAction :=
  [.ensureThread [119] [97], .ensureThread [119] [98], .setThreadParent [97] [98], .setThreadParent [98] [97],
    .hideThread [119] [99], .markProcessing [97] true 1]

end CodexStudy.Desktop
