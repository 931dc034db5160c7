import CodexStudy.Core.Lemmas.History

/-!
# Turns and checkpoints of a rollout

A rollout is cut into turns.
-/

namespace CodexStudy.Core

open CodexStudy.Lib ContextManager

def RolloutItem.checkpoint? : RolloutItem → Option (List ResponseItem)
  | .compacted item => item.replacementHistory
  | _ => none

variable (rd : ItemReaders) (items : List RolloutItem)

/-- Every compacted item of the rollout has its replacement history. -/
def HasReplacementHistories : Prop := ∀ item ∈ items, isLegacyCompaction item = false

/-! ## Turns -/

structure ReplayTurn where
  turnId : Option Text := none
  isUserTurn : Bool := false
  holdsCheckpoint : Bool := false
  rolledBack : Bool := false

def ReplayTurn.grow (turn : Option ReplayTurn) : RolloutItem → Option ReplayTurn
  | .compacted item =>
      let turn := turn.getD {}
      some { turn with holdsCheckpoint := turn.holdsCheckpoint || item.replacementHistory.isSome }
  | .turnContext ctx =>
      let turn := turn.getD {}
      some { turn with turnId := turn.turnId <|> ctx.turnId }
  | .responseItem item =>
      let turn := turn.getD {}
      some { turn with isUserTurn := turn.isUserTurn || isUserTurnBoundary rd item }
  | .eventMsg (.turnComplete turnId) | .eventMsg (.turnAborted (some turnId)) =>
      let turn := turn.getD {}
      some { turn with turnId := turn.turnId <|> some turnId }
  | .eventMsg (.userMessage _) => some { turn.getD {} with isUserTurn := true }
  | _ => turn

def ReplayTurn.close (turn : ReplayTurn) (pending : Nat) : ReplayTurn := { turn with rolledBack := 0 < pending }

def turnsBackwards (rd : ItemReaders) (pending : Nat) (turn : Option ReplayTurn) :
    List RolloutItem → List ReplayTurn
  | [] => turn.toList.map (·.close pending)
  | item :: older =>
      match item, turn with
      | .eventMsg (.threadRolledBack n), turn =>
          turnsBackwards rd (usizeSaturatingAdd pending n.toNat) turn older
      | .eventMsg (.turnStarted turnId), some turn =>
          if turnIdsAreCompatible turn.turnId (some turnId) then
            turn.close pending ::
              turnsBackwards rd (if turn.isUserTurn then pending - 1 else pending) none older
          else turnsBackwards rd pending (some turn) older
      | item, turn => turnsBackwards rd pending (ReplayTurn.grow rd turn item) older

def turnsOf : List ReplayTurn :=
  turnsBackwards rd 0 none items.reverse

/-- Only one turn holds checkpoints, and it has been rolled back. -/
def LosesOnlyCheckpointTurn : Prop :=
  ((turnsOf rd items).filter (·.holdsCheckpoint)).map (·.rolledBack) = [true]

instance (rd : ItemReaders) (items : List RolloutItem) : Decidable (LosesOnlyCheckpointTurn rd items) :=
  inferInstanceAs (Decidable (_ = _))

/-! ## Checkpoints -/

def newestCheckpoint? : List RolloutItem → Option (List ResponseItem × List RolloutItem)
  | [] => none
  | item :: newer => newestCheckpoint? newer <|> item.checkpoint?.map fun base => (base, newer)

/-- The rollback takes all user turns of both histories and leaves the same in front of them. -/
def Levels (history history' : ContextManager) (numTurns : UInt32) : Prop :=
  userTurns rd history.items ≤ numTurns.toNat ∧ userTurns rd history'.items ≤ numTurns.toNat ∧
    leading rd history.items = leading rd history'.items

/-- Nothing of the history `base` is left: it was empty, or a rollback takes away every user turn while in front of the
first one stands what also stands there without `base`. -/
def Forgets (base : List ResponseItem) (items : List RolloutItem) : Prop :=
  base = [] ∨ ∃ before numTurns after, items = before ++ .eventMsg (.threadRolledBack numTurns) :: after ∧
    Levels rd (replayItems rd { items := base } before) (replayItems rd {} before) numTurns

/-! ## Replaying -/

variable {h h' : ContextManager} {item : RolloutItem} {base : List ResponseItem} {newer items : List RolloutItem}

section Replay

variable {rd : ItemReaders}

theorem replayItems_append (history : ContextManager) (xs ys : List RolloutItem) :
    replayItems rd history (xs ++ ys) = replayItems rd (replayItems rd history xs) ys :=
  List.foldl_append

theorem replayItem_items_congr (heq : h.items = h'.items) (item : RolloutItem) :
    (replayItem rd h item).items = (replayItem rd h' item).items := by
  cases item with
  | responseItem item =>
      simp only [replayItem, recordItem, heq]
      split <;> simp [heq]
  | compacted c =>
      simp only [replayItem, heq]
      split <;> rfl
  | eventMsg e =>
      cases e with
      | threadRolledBack n => exact dropLastNUserTurns_items_congr heq n
      | _ => exact heq
  | _ => exact heq

theorem replayItems_items_congr (heq : h.items = h'.items) (items : List RolloutItem) :
    (replayItems rd h items).items = (replayItems rd h' items).items := by
  induction items generalizing h h' with
  | nil => exact heq
  | cons item items ih => exact ih (replayItem_items_congr heq item)

theorem replayItems_checkpoint
    (hbase : item.checkpoint? = some base) (hs : item :: newer <:+ items) (history : ContextManager) :
    (replayItems rd history items).items = (replayItems rd { items := base } newer).items := by
  obtain ⟨older, rfl⟩ := hs
  rw [replayItems_append]
  refine replayItems_items_congr ?_ newer
  cases item with
  | compacted c =>
      simp only [RolloutItem.checkpoint?] at hbase
      simp [replayItem, hbase, replace]
  | _ => simp [RolloutItem.checkpoint?] at hbase

theorem newestCheckpoint?_of_free (h : ∀ item ∈ items, item.checkpoint? = none) :
    newestCheckpoint? items = none := by
  induction items with
  | nil => rfl
  | cons item items ih =>
      simp only [List.forall_mem_cons] at h
      rw [newestCheckpoint?, ih h.2, h.1]
      rfl

theorem newestCheckpoint?_of_suffix (hbase : item.checkpoint? = some base) (hs : item :: newer <:+ items)
    (hfree : ∀ item ∈ newer, item.checkpoint? = none) : newestCheckpoint? items = some (base, newer) := by
  obtain ⟨older, rfl⟩ := hs
  induction older with
  | nil => simp [newestCheckpoint?, newestCheckpoint?_of_free hfree, hbase]
  | cons x older ih => rw [List.cons_append, newestCheckpoint?, ih]; rfl

end Replay

end CodexStudy.Core
