import CodexStudy.Core.Checkpoints
import Mathlib.Data.Option.Basic

/-!
# The reverse scan
-/

namespace CodexStudy.Core

open CodexStudy.Lib List ReverseScan Option ReplayTurn RolloutItem

variable {rd : ItemReaders}

/-- What of the open segment decides about rollbacks and checkpoints. -/
def ActiveReplaySegment.turn (segment : ActiveReplaySegment) : ReplayTurn where
  turnId := segment.turnId
  isUserTurn := segment.countsAsUserTurn
  holdsCheckpoint := segment.baseReplacementHistory.isSome

/-- The checkpoint stands in the items, and the suffix starts after it or contains it. -/
def Reaches (newer suffix : List RolloutItem) (base : List ResponseItem) : Prop :=
  ∃ item tail, item.checkpoint? = some base ∧ item :: tail <:+ newer ∧ (suffix = tail ∨ item :: tail <:+ suffix)

inductive SuffixAt (items newer suffix : List RolloutItem) : Nat → Prop
  | whole (hsuffix : suffix = items) (hfree : ∀ item ∈ newer, item.checkpoint? = none) : SuffixAt items newer suffix 0
  | newest {item : RolloutItem} {base : List ResponseItem} (hbase : item.checkpoint? = some base)
      (hnewer : item :: suffix <:+ newer) (hfree : ∀ item ∈ suffix, item.checkpoint? = none) :
      SuffixAt items newer suffix 1
  | beyond {n : Nat} {item : RolloutItem} {base : List ResponseItem} {tail : List RolloutItem}
      (hbase : item.checkpoint? = some base) (hnewer : item :: tail <:+ newer) (hsuffix : item :: tail <:+ suffix) :
      SuffixAt items newer suffix (n + 2)

def withCheckpoints (turns : List ReplayTurn) : Nat := turns.countP (·.holdsCheckpoint)

def ReverseScan.openBase (st : ReverseScan) : Option (List ResponseItem) :=
  st.activeSegment.bind (·.baseReplacementHistory)

def ReverseScan.openTurn (st : ReverseScan) : Option ReplayTurn := st.activeSegment.map (·.turn)

structure ScanInv (rd : ItemReaders) (items older newer : List RolloutItem) (st : ReverseScan)
    (closed : List ReplayTurn) : Prop where
  turns : turnsOf rd items = closed ++ turnsBackwards rd st.pendingRollbackTurns st.openTurn older
  noBase : st.baseReplacementHistory = none → ∀ turn ∈ closed, turn.holdsCheckpoint → turn.rolledBack
  base : ∀ base ∈ st.baseReplacementHistory,
    (∃ turn ∈ closed, turn.holdsCheckpoint ∧ turn.rolledBack = false) ∧ Reaches newer st.rolloutSuffix base
  opened : ∀ base ∈ st.openBase, ∃ item, item.checkpoint? = some base ∧ item :: st.rolloutSuffix <:+ newer
  suffix : SuffixAt items newer st.rolloutSuffix (withCheckpoints (closed ++ st.openTurn.toList))

/-! ## One item -/

theorem turnsBackwards_rolledBack (pending : Nat) (turn : Option ReplayTurn) (n : UInt32) (older : List RolloutItem) :
    turnsBackwards rd pending turn (.eventMsg (.threadRolledBack n) :: older) =
      turnsBackwards rd (usizeSaturatingAdd pending n.toNat) turn older := by
  cases turn <;> rfl

def Grows (current : Option ReplayTurn) : RolloutItem → Prop
  | .eventMsg (.threadRolledBack _) => False
  | .eventMsg (.turnStarted turnId) =>
      ∀ turn : ReplayTurn, current = some turn → turnIdsAreCompatible turn.turnId (some turnId) = false
  | _ => True

theorem turnsBackwards_grow {turn : Option ReplayTurn} {item : RolloutItem} (h : Grows turn item) (pending : Nat)
    (older : List RolloutItem) : turnsBackwards rd pending turn (item :: older) =
      turnsBackwards rd pending (grow rd turn item) older := by
  cases item with
  | eventMsg e =>
      cases e with
      | threadRolledBack n => exact h.elim
      | turnStarted turnId =>
          cases turn with
          | none => rfl
          | some turn => simp [turnsBackwards, h turn rfl, grow]
      | _ => cases turn <;> rfl
  | _ => cases turn <;> rfl

structure GrowStep (rd : ItemReaders) (newer : List RolloutItem) (st st' : ReverseScan) (item : RolloutItem) :
    Prop where
  openTurn : st'.openTurn = grow rd st.openTurn item
  base : st'.baseReplacementHistory = st.baseReplacementHistory
  pending : st'.pendingRollbackTurns = st.pendingRollbackTurns
  openBase : st'.openBase = (st.openBase <|> item.checkpoint?)
  suffix : st'.rolloutSuffix = if st.openBase.isNone && item.checkpoint?.isSome then newer else st.rolloutSuffix

variable (rd) in
theorem scanItem_grow (newer : List RolloutItem) {st : ReverseScan} {item : RolloutItem}
    (h : Grows st.openTurn item) : GrowStep rd newer st (st.scanItem rd newer item) item := by
  obtain ⟨base, settings, reference, pending, suffix, active⟩ := st
  cases item with
  | eventMsg e =>
      cases e with
      | threadRolledBack n => exact h.elim
      | turnStarted turnId =>
          cases active with
          | none => constructor <;> rfl
          | some segment =>
              have hid : turnIdsAreCompatible segment.turnId (some turnId) = false := h segment.turn rfl
              constructor <;> simp [scanItem, hid, openTurn, openBase,
                grow, checkpoint?]
      | turnComplete turnId =>
          cases active with
          | none => constructor <;> rfl
          | some segment =>
              cases hid : segment.turnId <;> constructor <;> simp [scanItem, hid,
                openTurn, openBase, grow, checkpoint?,
                ActiveReplaySegment.turn]
      | turnAborted turnId =>
          cases turnId with
          | none => cases active <;> constructor <;> simp [scanItem, openTurn,
              openBase, grow, checkpoint?]
          | some turnId =>
              cases active with
              | none => constructor <;> rfl
              | some segment =>
                  cases hid : segment.turnId <;> constructor <;> simp [scanItem, hid,
                    openTurn, openBase, grow, checkpoint?,
                    ActiveReplaySegment.turn]
      | userMessage message =>
          cases active <;> constructor <;> simp [scanItem, openTurn,
            openBase, grow, checkpoint?, ActiveReplaySegment.turn]
      | other => constructor <;> simp [scanItem, grow, checkpoint?]
  | compacted compacted =>
      obtain ⟨message, replacement⟩ := compacted
      obtain _ | ⟨turnId, counts, settings', reference', base'⟩ := active
      · cases replacement <;> constructor <;> rfl
      · cases replacement <;> cases base' <;> cases reference' <;> constructor <;>
          simp [scanItem, openTurn, openBase, grow,
            checkpoint?, ActiveReplaySegment.turn]
  | turnContext ctx =>
      have hseg : (active.getD {}).turn = (active.map (·.turn)).getD {} := by cases active <;> rfl
      have hbase : (active.getD {}).baseReplacementHistory = active.bind (·.baseReplacementHistory) := by
        cases active <;> rfl
      constructor
      · simp only [scanItem, openTurn, map_some, grow, ← hseg]
        cases hid : (active.getD {}).turnId <;> simp only [isNone_none, isNone_some, ↓reduceIte,
          Bool.false_eq_true] <;> split <;> (try split) <;> simp [ActiveReplaySegment.turn, hid]
      · rfl
      · rfl
      · simp only [scanItem, openBase, bind_some, checkpoint?,
          ← hbase]
        cases hid : (active.getD {}).turnId <;> simp only [isNone_none, isNone_some, ↓reduceIte,
          Bool.false_eq_true] <;> split <;> (try split) <;> simp
      · simp [scanItem, checkpoint?]
  | responseItem item =>
      cases active <;> constructor <;> simp [scanItem, openTurn,
        openBase, grow, checkpoint?, ActiveReplaySegment.turn]
  | sessionMeta => constructor <;> simp [scanItem, grow, checkpoint?]

/-! ## The suffix -/

variable {base : List ResponseItem}

theorem Reaches.cons {newer suffix : List RolloutItem} (h : Reaches newer suffix base)
    (item : RolloutItem) : Reaches (item :: newer) suffix base := by
  obtain ⟨checkpoint, tail, hbase, hnewer, hsuf⟩ := h
  exact ⟨checkpoint, tail, hbase, hnewer.trans (suffix_cons _ _), hsuf⟩

theorem Reaches.restart {newer suffix : List RolloutItem} (h : Reaches newer suffix base)
    (item : RolloutItem) : Reaches (item :: newer) newer base := by
  obtain ⟨checkpoint, tail, hbase, hnewer, -⟩ := h
  exact ⟨checkpoint, tail, hbase, hnewer.trans (suffix_cons _ _), Or.inr hnewer⟩

variable {items newer suffix : List RolloutItem} {n : Nat}

theorem SuffixAt.cons (h : SuffixAt items newer suffix n) {item : RolloutItem}
    (hitem : item.checkpoint? = none ∨ 0 < n) : SuffixAt items (item :: newer) suffix n := by
  cases h with
  | whole hsuf hfree =>
      have hnone := hitem.resolve_right (lt_irrefl 0)
      exact .whole hsuf (forall_mem_cons.mpr ⟨hnone, hfree⟩)
  | newest hbase hnewer hfree => exact .newest hbase (hnewer.trans (suffix_cons _ _)) hfree
  | beyond hbase hnewer hsuf => exact .beyond hbase (hnewer.trans (suffix_cons _ _)) hsuf

theorem SuffixAt.restart (h : SuffixAt items newer suffix n) {item : RolloutItem}
    (hitem : item.checkpoint? = some base) : SuffixAt items (item :: newer) newer (n + 1) := by
  cases h with
  | whole hsuf hfree => exact .newest hitem (suffix_refl _) hfree
  | newest hbase hnewer hfree => exact .beyond hbase (hnewer.trans (suffix_cons _ _)) hnewer
  | beyond hbase hnewer hsuf => exact .beyond hbase (hnewer.trans (suffix_cons _ _)) hnewer

/-! ## The invariant -/

theorem withCheckpoints_append (xs ys : List ReplayTurn) :
    withCheckpoints (xs ++ ys) = withCheckpoints xs + withCheckpoints ys :=
  countP_append

theorem withCheckpoints_openTurn (st : ReverseScan) :
    withCheckpoints st.openTurn.toList = if st.openBase.isSome then 1 else 0 := by
  obtain ⟨_, _, _, _, _, active⟩ := st
  cases active with
  | none => rfl
  | some segment => cases h : segment.baseReplacementHistory <;>
      simp [withCheckpoints, openTurn, openBase, ActiveReplaySegment.turn, h]

variable {older : List RolloutItem} {st : ReverseScan} {closed : List ReplayTurn} {item : RolloutItem}

theorem ScanInv.grow (h : ScanInv rd items (item :: older) newer st closed) (hgrow : Grows st.openTurn item) :
    ScanInv rd items older (item :: newer) (st.scanItem rd newer item) closed := by
  obtain ⟨hturn, hbase, hpend, hopenBase, hsuf⟩ := scanItem_grow rd newer hgrow
  constructor
  · rw [h.turns, turnsBackwards_grow hgrow, hturn, hpend]
  · rw [hbase]
    exact h.noBase
  · intro base hb
    rw [hbase] at hb
    refine ⟨(h.base base hb).1, ?_⟩
    rw [hsuf]
    split
    · exact (h.base base hb).2.restart item
    · exact (h.base base hb).2.cons item
  · intro base hb
    rw [hopenBase] at hb
    rw [hsuf]
    cases hst : st.openBase with
    | none =>
        rw [hst] at hb
        have hitem : item.checkpoint? = some base := hb
        exact ⟨item, hitem, by simp [hitem]⟩
    | some base' =>
        rw [hst] at hb
        obtain ⟨checkpoint, hc, hnewer⟩ := h.opened base (by rw [hst]; exact hb)
        exact ⟨checkpoint, hc, by simpa using hnewer.trans (suffix_cons _ _)⟩
  · have hold := h.suffix
    rw [withCheckpoints_append, withCheckpoints_openTurn] at hold ⊢
    rw [hopenBase, hsuf]
    cases hst : st.openBase with
    | none =>
        rw [hst] at hold
        cases hitem : item.checkpoint? with
        | none => exact hold.cons (Or.inl hitem)
        | some base => exact hold.restart hitem
    | some base =>
        rw [hst] at hold
        exact hold.cons (Or.inr (by simp))

variable (h : ScanInv rd items older newer st closed)

include h in
theorem ScanInv.skip (hitem : item.checkpoint? = none) :
    ScanInv rd items older (item :: newer) st closed where
  turns := h.turns
  noBase := h.noBase
  base base hb := ⟨(h.base base hb).1, (h.base base hb).2.cons _⟩
  opened base hb := by
    obtain ⟨checkpoint, hc, hnewer⟩ := h.opened base hb
    exact ⟨checkpoint, hc, hnewer.trans (suffix_cons _ _)⟩
  suffix := h.suffix.cons (Or.inl hitem)

theorem ScanInv.rolledBack {numTurns : UInt32}
    (h : ScanInv rd items (.eventMsg (.threadRolledBack numTurns) :: older) newer st closed) :
    ScanInv rd items older (.eventMsg (.threadRolledBack numTurns) :: newer)
      (st.scanItem rd newer (.eventMsg (.threadRolledBack numTurns))) closed := by
  refine ScanInv.skip ?_ rfl
  exact { h with turns := by rw [h.turns, turnsBackwards_rolledBack]; rfl }

structure CloseStep (st st' : ReverseScan) (segment : ActiveReplaySegment) : Prop where
  base : st'.baseReplacementHistory = if 0 < st.pendingRollbackTurns then st.baseReplacementHistory
    else (st.baseReplacementHistory <|> segment.baseReplacementHistory)
  pending : st'.pendingRollbackTurns =
    if segment.countsAsUserTurn then st.pendingRollbackTurns - 1 else st.pendingRollbackTurns
  suffix : st'.rolloutSuffix = st.rolloutSuffix
  active : st'.activeSegment = st.activeSegment

theorem finalizeActiveSegment_close (st : ReverseScan) (segment : ActiveReplaySegment) :
    CloseStep st (st.finalizeActiveSegment segment) segment := by
  obtain ⟨base, settings, reference, pending, suffix, active⟩ := st
  by_cases hp : 0 < pending
  · by_cases hcounts : segment.countsAsUserTurn <;> constructor <;>
      simp [finalizeActiveSegment, hp, hcounts]
  · have hp0 : pending = 0 := Nat.eq_zero_of_not_pos hp
    subst hp0
    constructor
    · cases base <;> simp only [finalizeActiveSegment, lt_irrefl, ↓reduceIte, isNone_none,
        isNone_some, Bool.false_eq_true] <;> split <;> (try split) <;> rfl
    all_goals
      simp only [finalizeActiveSegment, lt_irrefl, ↓reduceIte, Nat.zero_sub, ite_self]
      split <;> split <;> (try split) <;> rfl

theorem ScanInv.close (older' : List RolloutItem) {segment : ActiveReplaySegment}
    (h : ScanInv rd items older newer st closed) (hseg : st.activeSegment = some segment)
    (htns : turnsBackwards rd st.pendingRollbackTurns (some segment.turn) older =
      segment.turn.close st.pendingRollbackTurns ::
        turnsBackwards rd (if segment.countsAsUserTurn then st.pendingRollbackTurns - 1
          else st.pendingRollbackTurns) none older') :
    ScanInv rd items older' newer ({ st with activeSegment := none }.finalizeActiveSegment segment)
      (closed ++ [segment.turn.close st.pendingRollbackTurns]) := by
  obtain ⟨hbase, hpend, hsuf, hact⟩ := finalizeActiveSegment_close { st with activeSegment := none } segment
  have hopenTurn : st.openTurn = some segment.turn := by simp [openTurn, hseg]
  have hopenBase : st.openBase = segment.baseReplacementHistory := by simp [openBase, hseg]
  simp only at hbase hpend hsuf hact
  constructor
  · rw [h.turns, hopenTurn, htns, hpend, openTurn, hact, append_assoc]
    rfl
  · intro hnone turn hmem hhld
    rw [hbase] at hnone
    rcases mem_append.mp hmem with hmem | hmem
    · refine h.noBase ?_ turn hmem hhld
      split at hnone
      · exact hnone
      · exact ((orElse_eq_none _ _).mp hnone).1
    · rw [mem_singleton.mp hmem] at hhld ⊢
      by_cases hp : 0 < st.pendingRollbackTurns
      · exact decide_eq_true hp
      · rw [if_neg hp] at hnone
        simp [ReplayTurn.close, ActiveReplaySegment.turn, ((orElse_eq_none _ _).mp hnone).2] at hhld
  · intro base hb
    rw [hbase] at hb
    rw [hsuf]
    have hold : base ∈ st.baseReplacementHistory → _ := fun hb =>
      (⟨(h.base base hb).1.imp fun turn ht => ⟨mem_append_left _ ht.1, ht.2⟩, (h.base base hb).2⟩ :
        (∃ turn ∈ closed ++ [segment.turn.close st.pendingRollbackTurns],
          turn.holdsCheckpoint ∧ turn.rolledBack = false) ∧ Reaches newer st.rolloutSuffix base)
    by_cases hp : 0 < st.pendingRollbackTurns
    · rw [if_pos hp] at hb
      exact hold hb
    · rw [if_neg hp] at hb
      cases hst : st.baseReplacementHistory with
      | some base' => exact hold (by rw [hst] at hb ⊢; exact hb)
      | none =>
          rw [hst] at hb
          have hb : segment.baseReplacementHistory = some base := hb
          obtain ⟨checkpoint, hc, hnewer⟩ := h.opened base (by rw [hopenBase]; exact hb)
          refine ⟨⟨_, mem_append_right _ (mem_singleton.mpr rfl), ?_, decide_eq_false hp⟩,
            checkpoint, _, hc, hnewer, Or.inl rfl⟩
          simp [ReplayTurn.close, ActiveReplaySegment.turn, hb]
  · intro base hb
    simp [openBase, hact] at hb
  · have hold := h.suffix
    rw [hsuf, openTurn, hact]
    rw [hopenTurn] at hold
    simp only [withCheckpoints_append, map_none, toList_none, toList_some] at hold ⊢
    exact hold

/-! ## The scan -/

def ScanResult (rd : ItemReaders) (items : List RolloutItem) (st : ReverseScan) : Prop :=
  (∃ base, st.baseReplacementHistory = some base ∧ Reaches items st.rolloutSuffix base ∧
    ∃ turn ∈ turnsOf rd items, turn.holdsCheckpoint ∧ turn.rolledBack = false) ∨
  (st.baseReplacementHistory = none ∧ (∀ turn ∈ turnsOf rd items, turn.holdsCheckpoint → turn.rolledBack) ∧
    SuffixAt items items st.rolloutSuffix (withCheckpoints (turnsOf rd items)))

theorem ScanInv.step (h : ScanInv rd items (item :: older) newer st closed) :
    ∃ closed', ScanInv rd items older (item :: newer) (st.scanItem rd newer item) closed' := by
  by_cases hgrow : Grows st.openTurn item
  · exact ⟨closed, h.grow hgrow⟩
  · cases item with
    | eventMsg e =>
        cases e with
        | threadRolledBack n => exact ⟨closed, h.rolledBack⟩
        | turnStarted turnId =>
            cases hseg : st.activeSegment with
            | none => exact absurd (fun turn ht => by simp [openTurn, hseg] at ht) hgrow
            | some segment =>
                have hid : turnIdsAreCompatible segment.turnId (some turnId) = true := by
                  by_contra hid
                  refine hgrow fun turn ht => ?_
                  simp only [openTurn, hseg, map_some, some.injEq] at ht
                  subst ht
                  exact eq_false_of_ne_true hid
                have hid' : turnIdsAreCompatible segment.turn.turnId (some turnId) = true := hid
                have hclose := h.close older hseg (by
                  simp only [turnsBackwards, hid', ↓reduceIte]; rfl)
                refine ⟨closed ++ [segment.turn.close st.pendingRollbackTurns], ?_⟩
                simp only [scanItem, hseg, hid, ↓reduceIte]
                exact hclose.skip rfl
        | _ => exact absurd trivial hgrow
    | _ => exact absurd trivial hgrow

include h in
theorem ScanInv.scan (hits : items = older.reverse ++ newer) :
    ∃ older' newer' closed', ScanInv rd items older' newer' (scan rd newer st older) closed' ∧
      items = older'.reverse ++ newer' ∧ (older' = [] ∨ (scan rd newer st older).baseReplacementHistory.isSome) := by
  induction older generalizing newer st closed with
  | nil => exact ⟨[], newer, closed, h, hits, Or.inl rfl⟩
  | cons item older ih =>
      obtain ⟨closed', hstep⟩ := h.step
      have hits' : items = older.reverse ++ item :: newer := by simp [hits]
      rw [scan]
      split
      · rename_i hdone
        simp only [isComplete, Bool.and_eq_true] at hdone
        exact ⟨older, item :: newer, closed', hstep, hits', Or.inr hdone.1.1⟩
      · exact ih hstep hits'

include h in
theorem ScanInv.result_of_base
    (hits : items = older.reverse ++ newer) {st' : ReverseScan}
    (hbase : st.baseReplacementHistory = some base) (hbase' : st'.baseReplacementHistory = some base)
    (hsuf : st'.rolloutSuffix = st.rolloutSuffix) : ScanResult rd items st' := by
  obtain ⟨⟨turn, hmem, hturn⟩, checkpoint, tail, hc, hnewer, hreach⟩ := h.base base hbase
  refine Or.inl ⟨base, hbase', ⟨checkpoint, tail, hc, ?_, ?_⟩, turn, ?_, hturn⟩
  · exact hits ▸ hnewer.trans (suffix_append _ _)
  · rwa [hsuf]
  · rw [h.turns]
    exact mem_append_left _ hmem

theorem ScanInv.result (h : ScanInv rd items [] items st closed) (hnone : st.activeSegment = none) :
    ScanResult rd items st := by
  cases hbase : st.baseReplacementHistory with
  | some base => exact h.result_of_base rfl hbase hbase rfl
  | none =>
      have hopen : st.openTurn = none := by simp [openTurn, hnone]
      have htns : turnsOf rd items = closed := by simp [h.turns, hopen, turnsBackwards]
      have hsuf := h.suffix
      rw [hopen, toList_none, append_nil] at hsuf
      exact Or.inr ⟨hbase, htns ▸ h.noBase hbase, htns ▸ hsuf⟩

variable (rd) in
theorem scanRollout_result (items : List RolloutItem) : ScanResult rd items (scanRollout rd items) := by
  have hinit : ScanInv rd items items.reverse [] { rolloutSuffix := items } [] := by
    refine ⟨rfl, fun _ turn ht => ?_, fun base hb => ?_, fun base hb => ?_, ?_⟩
    · simp at ht
    · simp at hb
    · simp [openBase] at hb
    · exact .whole rfl (by simp)
  obtain ⟨older, newer, closed, hinv, hitems, hend⟩ := hinit.scan (by simp)
  rw [scanRollout]
  generalize scan rd [] { rolloutSuffix := items } items.reverse = st at hinv hend
  rcases eq_none_or_eq_some st.baseReplacementHistory with hbase | ⟨base, hbase⟩
  · obtain rfl := hend.resolve_right (by simp [hbase])
    obtain rfl : items = newer := by simpa using hitems
    cases hseg : st.activeSegment with
    | none => exact hinv.result hseg
    | some segment =>
        have hclose := finalizeActiveSegment_close { st with activeSegment := none } segment
        exact (hinv.close _ hseg rfl).result hclose.active
  · cases hseg : st.activeSegment with
    | none => exact hinv.result_of_base hitems hbase hbase rfl
    | some segment =>
        have hclose := finalizeActiveSegment_close { st with activeSegment := none } segment
        refine hinv.result_of_base hitems hbase (hclose.base.trans ?_) hclose.suffix
        simp [hbase]

end CodexStudy.Core
