import CodexStudy.Core.Lemmas.Reconstruction

/-!
# Rebuilding equals replaying

The scan from the newest item and the replay of the whole rollout give the same history, unless the only
turn with checkpoints has been rolled back and its history has not been forgotten since.
-/

namespace CodexStudy.Core

open CodexStudy.Lib List ContextManager ReverseScan

variable {rd : ItemReaders}

/-! ## Histories that stay apart -/

def Apart (rd : ItemReaders) (items items' : List ResponseItem) : Prop :=
  ∃ start start' common, items = start ++ common ∧ items' = start' ++ common ∧
    userTurns rd start' = 0 ∧ start ≠ start'

theorem Apart.ne {items items' : List ResponseItem} (h : Apart rd items items') : items ≠ items' := by
  obtain ⟨start, start', common, rfl, rfl, -, hne⟩ := h
  exact fun heq => hne (append_cancel_right heq)

theorem Apart.append {items items' : List ResponseItem} (h : Apart rd items items') (new : List ResponseItem) :
    Apart rd (items ++ new) (items' ++ new) := by
  obtain ⟨start, start', common, rfl, rfl, hfree, hne⟩ := h
  exact ⟨start, start', common ++ new, by simp, by simp, hfree, hne⟩

variable {history history' : ContextManager} {items : List RolloutItem}

theorem Levels.items_eq {n : UInt32} (h : Levels rd history history' n) :
    (history.dropLastNUserTurns rd n).items = (history'.dropLastNUserTurns rd n).items := by
  rw [dropLastNUserTurns_all _ h.1, dropLastNUserTurns_all _ h.2.1, h.2.2]

theorem Apart.rolledBack (h : Apart rd history.items history'.items) (n : UInt32) : Levels rd history history' n ∨
      Apart rd (history.dropLastNUserTurns rd n).items (history'.dropLastNUserTurns rd n).items := by
  obtain ⟨items, ref⟩ := history
  obtain ⟨items', ref'⟩ := history'
  obtain ⟨start, start', common, rfl, rfl, hfree, hne⟩ := h
  by_cases hcommon : n.toNat < userTurns rd common
  · right
    rw [dropLastNUserTurns_append hcommon ref none,
      dropLastNUserTurns_append hcommon ref' none]
    exact ⟨start, start', _, rfl, rfl, hfree, hne⟩
  · have hle' : userTurns rd (start' ++ common) ≤ n.toNat := by
      rw [userTurns_append]
      omega
    have hdrop' := dropLastNUserTurns_all ⟨start' ++ common, ref'⟩ hle'
    by_cases hle : userTurns rd (start ++ common) ≤ n.toNat
    · have hdrop := dropLastNUserTurns_all ⟨start ++ common, ref⟩ hle
      by_cases hlead : leading rd (start ++ common) = leading rd (start' ++ common)
      · exact Or.inl ⟨hle, hle', hlead⟩
      · right
        rw [hdrop, hdrop']
        exact ⟨_, _, [], (append_nil _).symm, (append_nil _).symm, userTurns_leading _, hlead⟩
    · right
      -- only the first history keeps a user turn
      have hpos := userTurns_dropLastNUserTurns_pos ⟨start ++ common, ref⟩
        (Nat.lt_of_not_le hle)
      rw [hdrop']
      refine ⟨_, _, [], (append_nil _).symm, (append_nil _).symm, userTurns_leading _, fun heq => ?_⟩
      rw [heq, userTurns_leading] at hpos
      exact lt_irrefl 0 hpos

theorem Apart.recordItem (h : Apart rd history.items history'.items) (item : ResponseItem) :
    Apart rd (history.recordItem rd item).items (history'.recordItem rd item).items := by
  simp only [ContextManager.recordItem]
  split
  · exact h.append _
  · exact h

theorem Apart.replay (hfree : ∀ item ∈ items, item.checkpoint? = none)
    (hleg : ∀ item ∈ items, isLegacyCompaction item = false) (h : Apart rd history.items history'.items) :
    (∃ before n after, items = before ++ .eventMsg (.threadRolledBack n) :: after ∧
      Levels rd (replayItems rd history before) (replayItems rd history' before) n) ∨
      Apart rd (replayItems rd history items).items (replayItems rd history' items).items := by
  induction items generalizing history history' with
  | nil => exact Or.inr h
  | cons item items ih =>
      simp only [forall_mem_cons] at hfree hleg
      have next {history₁ history₁' : ContextManager} (h₁ : Apart rd history₁.items history₁'.items)
          (hitem : replayItem rd history item = history₁) (hitem' : replayItem rd history' item = history₁') :
          (∃ before n after, item :: items = before ++ .eventMsg (.threadRolledBack n) :: after ∧
            Levels rd (replayItems rd history before) (replayItems rd history' before) n) ∨
          Apart rd (replayItems rd history (item :: items)).items
            (replayItems rd history' (item :: items)).items := by
        subst hitem hitem'
        rcases ih hfree.2 hleg.2 h₁ with ⟨before, n, after, rfl, hlevel⟩ | hap
        · exact Or.inl ⟨item :: before, n, after, rfl, hlevel⟩
        · exact Or.inr hap
      cases item with
      | responseItem item => exact next (h.recordItem item) rfl rfl
      | compacted compacted =>
          have hsome := hleg.1
          rw [isLegacyCompaction, show compacted.replacementHistory = none from hfree.1] at hsome
          exact absurd hsome (by simp)
      | eventMsg e =>
          cases e with
          | threadRolledBack n =>
              rcases h.rolledBack n with hlevel | hap
              · exact Or.inl ⟨[], n, items, rfl, hlevel⟩
              · exact next hap rfl rfl
          | _ => exact next h rfl rfl
      | _ => exact next h rfl rfl

/-- A history is forgotten exactly when the items leave nothing else than without it. -/
theorem forgets_iff (hfree : ∀ item ∈ items, item.checkpoint? = none)
    (hleg : ∀ item ∈ items, isLegacyCompaction item = false) (base : List ResponseItem) : Forgets rd base items ↔
      (replayItems rd {} items).items = (replayItems rd { items := base } items).items := by
  constructor
  · rintro (rfl | ⟨before, n, after, rfl, hlevel⟩)
    · rfl
    · rw [replayItems_append, replayItems_append]
      exact (replayItems_items_congr (Levels.items_eq hlevel) after).symm
  · intro heq
    by_cases hbase : base = []
    · exact Or.inl hbase
    · right
      have hap : Apart rd (ContextManager.items { items := base }) (ContextManager.items {}) :=
        ⟨base, [], [], by simp, by simp, rfl, hbase⟩
      rcases hap.replay hfree hleg with hlevel | hap
      · exact hlevel
      · exact absurd heq.symm hap.ne

/-! ## The rebuilt history -/

theorem not_losesOnlyCheckpointTurn_of_survives {turn : ReplayTurn} (hmem : turn ∈ turnsOf rd items)
    (hhld : turn.holdsCheckpoint) (hkept : turn.rolledBack = false) : ¬ LosesOnlyCheckpointTurn rd items := by
  intro hloses
  have hmem' : turn.rolledBack ∈ ((turnsOf rd items).filter (·.holdsCheckpoint)).map (·.rolledBack) :=
    mem_map_of_mem (mem_filter.mpr ⟨hmem, hhld⟩)
  rw [hloses, hkept] at hmem'
  simp at hmem'

theorem losesOnlyCheckpointTurn_iff (hrol : ∀ turn ∈ turnsOf rd items, turn.holdsCheckpoint → turn.rolledBack) :
    LosesOnlyCheckpointTurn rd items ↔ withCheckpoints (turnsOf rd items) = 1 := by
  rw [withCheckpoints, countP_eq_length_filter, LosesOnlyCheckpointTurn]
  constructor
  · intro h
    simpa using congrArg length h
  · intro h
    obtain ⟨turn, hturn⟩ := length_eq_one_iff.mp h
    have hmem : turn ∈ (turnsOf rd items).filter (·.holdsCheckpoint) := by simp [hturn]
    rw [hturn, map_singleton, hrol turn (mem_filter.mp hmem).1 (mem_filter.mp hmem).2]

theorem reconstruct_history (items : List RolloutItem) : (reconstructHistoryFromRollout rd items).history =
      (replayItems rd { items := (scanRollout rd items).baseReplacementHistory.getD [] }
        (scanRollout rd items).rolloutSuffix).items := by
  simp only [reconstructHistoryFromRollout]
  cases (scanRollout rd items).baseReplacementHistory <;> rfl

/-- The rebuilt history is that of a replay of the whole rollout unless the only turn with checkpoints was rolled back
while something of its history is left. -/
theorem reconstruction_is_forward_replay_iff (rd : ItemReaders) (items : List RolloutItem)
    (hcompacted : HasReplacementHistories items) :
    (reconstructHistoryFromRollout rd items).history = forwardReplay rd items ↔ (LosesOnlyCheckpointTurn rd items →
        ∀ checkpoint ∈ newestCheckpoint? items, Forgets rd checkpoint.1 checkpoint.2) := by
  rw [reconstruct_history, forwardReplay]
  rcases scanRollout_result rd items with
    ⟨base, hbase, ⟨item, tail, hitem, hits, hsuf⟩, turn, hmem, hhld, hkept⟩ | ⟨hbase, hrol, hsuf⟩
  · have hloses := not_losesOnlyCheckpointTurn_of_survives hmem hhld hkept
    refine iff_of_true ?_ (fun h => absurd h hloses)
    rw [hbase, replayItems_checkpoint hitem hits]
    rcases hsuf with rfl | hsuf
    · rfl
    · exact replayItems_checkpoint hitem hsuf _
  · rw [hbase, losesOnlyCheckpointTurn_iff hrol]
    generalize hn : withCheckpoints (turnsOf rd items) = n at hsuf ⊢
    generalize (scanRollout rd items).rolloutSuffix = suffix at hsuf ⊢
    cases hsuf with
    | whole hsuf hfree =>
        refine iff_of_true (by rw [hsuf]; rfl) (fun _ checkpoint hc => ?_)
        rw [newestCheckpoint?_of_free hfree] at hc
        exact absurd hc (by simp)
    | newest hitem hits hfree =>
        have hleg : ∀ item ∈ suffix, isLegacyCompaction item = false := fun item hmem =>
          hcompacted item (hits.subset (mem_cons_of_mem _ hmem))
        rw [replayItems_checkpoint hitem hits, newestCheckpoint?_of_suffix hitem hits hfree]
        simpa using (forgets_iff hfree hleg _).symm
    | beyond hitem hits hsuf =>
        refine iff_of_true ?_ (fun h => absurd h (by omega))
        rw [replayItems_checkpoint hitem hits, replayItems_checkpoint hitem hsuf]

/-! ## A rolled back checkpoint -/

def sampleReaders : ItemReaders where
  parseHookPromptFragment _ := false
  isInterAgentCommunication _ := false
  truncateFunctionOutputPayload output := output
  buildCompactedHistory items _ := items

def sampleMessage (role text : String) : ResponseItem :=
  .message none role.toList [.inputText text.toList] none

/-- The second turn compacts the history; its messages stay in the compacted history. -/
def sampleRollout : List RolloutItem :=
  [.eventMsg (.turnStarted "1"), .eventMsg (.userMessage "one"),
   .responseItem (sampleMessage "user" "one"), .responseItem (sampleMessage "assistant" "first"),
   .eventMsg (.turnComplete "1"),
   .eventMsg (.turnStarted "2"), .eventMsg (.userMessage "two"),
   .responseItem (sampleMessage "user" "two"),
   .compacted ⟨"", some [sampleMessage "user" "one", sampleMessage "user" "two",
     sampleMessage "user" "summary"]⟩,
   .responseItem (sampleMessage "assistant" "second"), .eventMsg (.turnComplete "2")]

theorem sampleRollout_is_replayed : HasReplacementHistories sampleRollout ∧
      (reconstructHistoryFromRollout sampleReaders sampleRollout).history =
        forwardReplay sampleReaders sampleRollout := by
  have hcompacted : HasReplacementHistories sampleRollout := by
    unfold HasReplacementHistories
    decide +kernel
  refine ⟨hcompacted, (reconstruction_is_forward_replay_iff sampleReaders sampleRollout hcompacted).mpr ?_⟩
  intro hloses
  exact absurd hloses (by decide +kernel)

/-- Rolling the second turn back leaves its answer and loses all that came before it. -/
theorem rolled_back_checkpoint_is_lost : ¬ ∀ items, HasReplacementHistories items →
      (reconstructHistoryFromRollout sampleReaders items).history = forwardReplay sampleReaders items := by
  intro h
  have heq := h (sampleRollout ++ [.eventMsg (.threadRolledBack 1)]) (by
    unfold HasReplacementHistories
    decide +kernel)
  exact absurd heq (by decide +kernel)

example : (reconstructHistoryFromRollout sampleReaders
    (sampleRollout ++ [.eventMsg (.threadRolledBack 1)])).history = [sampleMessage "assistant" "second"] := by
  decide +kernel

end CodexStudy.Core
