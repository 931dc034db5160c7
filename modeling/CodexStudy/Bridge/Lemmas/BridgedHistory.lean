import CodexStudy.Bridge.Lemmas.Transcript

/-!
# The whole history
-/

namespace CodexStudy.Bridge

open CodexStudy.Lib List MessagesState PendingAssistantMessage Option
open CodexStudy.Lib.LogEntry

section

variable {serde : SerdeJson} {allowImageParts : Bool} {item : Json} {input : List Json} {batch next final : Batch}
  {st st' : MessagesState}

/-! ## The items one after the other -/

theorem translateItems_cons (item : Json) (input : List Json) :
    st.translateItems serde allowImageParts (item :: input) =
      (st.translateItem serde allowImageParts item).translateItems serde allowImageParts input := rfl

theorem next_of_foldlM (h : (item :: input).foldlM Batch.next batch = some final) :
    ∃ next, batch.next item = some next ∧ input.foldlM Batch.next next = some final := by
  rw [foldlM_cons] at h
  exact bind_eq_some_iff.mp h

theorem callIdOf_of_isCall (h : (itemKind item).isCall = true) : callIdOf item = item.getStr "call_id" := if_pos h

theorem callIdOf_of_not_isCall (h : (itemKind item).isCall ≠ true) : callIdOf item = none := if_neg h

theorem isCall_of_isOutput (h : (itemKind item).isOutput = true) : (itemKind item).isCall ≠ true := by
  cases hkind : itemKind item with
  | functionOutput => decide
  | toolSearchOutput => decide
  | _ =>
      rw [hkind] at h
      cases h

theorem nodup_step (hstep : ItemStep serde allowImageParts item batch st next st')
    (hnd : (batch.awaiting ++ (item :: input).filterMap callIdOf).Nodup) :
    (next.awaiting ++ input.filterMap callIdOf).Nodup := by
  have hsame : callIdOf item = none → (item :: input).filterMap callIdOf = input.filterMap callIdOf := fun hnone =>
    filterMap_cons_none hnone
  have hcalled : ∀ id, (itemKind item).isCall = true → item.getStr "call_id" = some id →
      (batch.awaiting ++ [id] ++ input.filterMap callIdOf).Nodup := by
    intro id hkind hid
    rw [filterMap_cons_some ((callIdOf_of_isCall hkind).trans hid)] at hnd
    rwa [append_assoc]
  cases hstep with
  | call id flatName arguments hkind _ hid _ => exact hcalled id hkind hid
  | customCall id hkind hid _ => exact hcalled id (by rw [hkind]; rfl) hid
  | output id content hkind _ _ =>
      rw [hsame (callIdOf_of_not_isCall (isCall_of_isOutput hkind))] at hnd
      exact hnd.sublist ((erase_sublist ..).append (List.Sublist.refl _))
  | reasoning text hkind _ => rwa [hsame (callIdOf_of_not_isCall (by rw [hkind]; decide))] at hnd
  | assistant text hkind _ _ => rwa [hsame (callIdOf_of_not_isCall (by rw [hkind]; decide))] at hnd
  | speaker spoken hkind _ _ _ _ _ => rwa [hsame (callIdOf_of_not_isCall (by rw [hkind]; decide))] at hnd
  | silent hkind _ _ _ => rwa [hsame (callIdOf_of_not_isCall (by rw [hkind]; decide))] at hnd

/-! ## Writing out the pending message -/

theorem flush_entries : st.flush.messages.map entryOf =
    st.messages.map entryOf ++ if st.pending.isEmpty then [] else [.calls st.pending.ids] := by
  unfold flush takeMessage
  dsimp only
  split
  next => rw [toList_none, append_nil, append_nil]
  next => rw [toList_some, map_append, map_singleton, entryOf_message]

theorem push_entries (message : Json) :
    (st.push message).messages.map entryOf = st.messages.map entryOf ++ [entryOf message] := by
  unfold push
  rw [map_append, map_singleton]

theorem ids_eq_nil_of_isEmpty {pending : PendingAssistantMessage} (h : pending.isEmpty = true) : pending.ids = [] := by
  unfold PendingAssistantMessage.isEmpty at h
  rw [Bool.and_eq_true, List.isEmpty_iff] at h
  unfold ids
  rw [h.2, map_nil]

theorem messages_grow (hstep : ItemStep serde allowImageParts item batch st next st') : st.messages <+: st'.messages := by
  cases hstep with
  | call id flatName arguments _ _ _ _ => exact prefix_rfl
  | customCall id _ _ _ => exact prefix_rfl
  | output id content _ _ _ => exact (prefix_append _ _).trans (prefix_append _ _)
  | reasoning text _ _ => exact prefix_rfl
  | assistant text _ _ _ => exact prefix_rfl
  | speaker spoken _ _ _ _ _ _ => exact (prefix_append _ _).trans (prefix_append _ _)
  | silent _ _ _ _ => exact prefix_rfl

theorem translateItems_grow (hpd : input.foldlM Batch.next batch = some final) :
    st.messages <+: (st.translateItems serde allowImageParts input).messages := by
  induction input generalizing batch st with
  | nil => exact prefix_rfl
  | cons item input ih =>
      obtain ⟨next, hnext, hrest⟩ := next_of_foldlM hpd
      have hstep : ItemStep serde allowImageParts item batch st next _ := itemStep_of_next st hnext
      exact (messages_grow hstep).trans (ih hrest)

theorem flush_grow : st.messages <+: st.flush.messages := prefix_append _ _

/-! ## Answered calls -/

inductive Answering (batch : Batch) (st : MessagesState) : Prop where
  | closed : Answered (st.messages.map entryOf) → st.pending.ids = batch.awaiting.map some →
      (batch.answering = true → batch.awaiting = []) → Answering batch st
  | opened (earlier : List (LogEntry (Option Text))) (ids answers : List (Option Text)) :
      st.messages.map entryOf = earlier ++ .calls ids :: answers.map .answer → Answered earlier →
      (answers ++ batch.awaiting.map some).Perm ids → ids.Nodup → batch.answering = true → batch.awaiting ≠ [] →
      st.pending = {} → Answering batch st

theorem perm_erase {answers ids : List (Option Text)} {awaiting : List Text} {id : Text} (hmem : id ∈ awaiting)
    (h : (answers ++ awaiting.map some).Perm ids) :
    ((answers ++ [some id]) ++ (awaiting.erase id).map some).Perm ids := by
  refine List.Perm.trans ?_ h
  rw [append_assoc]
  refine List.Perm.append_left answers ?_
  exact ((perm_cons_erase hmem).map some).symm

theorem answering_output {earlier : List (LogEntry (Option Text))} {ids answers : List (Option Text)} {id content : Text}
    (hmem : id ∈ batch.awaiting) (hents : st.flush.messages.map entryOf = earlier ++ .calls ids :: answers.map .answer)
    (hearlier : Answered earlier) (hperm : (answers ++ batch.awaiting.map some).Perm ids) (hnd : ids.Nodup) :
    Answering { awaiting := batch.awaiting.erase id, answering := true } (st.flush.push (toolMessage id content)) := by
  have hall : (st.flush.push (toolMessage id content)).messages.map entryOf =
      earlier ++ .calls ids :: (answers ++ [some id]).map .answer := by
    rw [push_entries, hents, entryOf_toolMessage, map_append, append_assoc]
    rfl
  have hperm' := perm_erase hmem hperm
  by_cases hlast : batch.awaiting.erase id = []
  · have hids : map some (batch.awaiting.erase id) = [] := by rw [hlast, map_nil]
    rw [hids, append_nil] at hperm'
    refine .closed ?_ hids.symm fun _ => hlast
    rw [hall]
    exact hearlier.append (answered_batch hnd hperm') rfl
  · exact .opened earlier ids (answers ++ [some id]) hall hearlier hperm' hnd rfl hlast rfl

theorem answering_step (h : Answering batch st) (hstep : ItemStep serde allowImageParts item batch st next st')
    (hcus : itemKind item ≠ .customToolCall)
    (hqt : batch.answering = true → batch.awaiting ≠ [] → bringsText allowImageParts item = false)
    (hnd : batch.awaiting.Nodup) : Answering next st' := by
  cases hstep with
  | customCall id hkind _ _ => exact absurd hkind hcus
  | silent _ _ _ _ => exact h
  | call id flatName arguments _ _ _ hrdy =>
      cases h with
      | opened _ _ _ _ _ _ _ hansg hne _ => exact absurd (hrdy hansg) hne
      | closed hansd hids _ =>
          refine .closed hansd ?_ fun hansg => by cases hansg
          have hpush : (st.pending.pushToolCall (toolCallJson serde id flatName arguments)).ids =
              st.pending.ids ++ [some id] := map_append
          exact hpush.trans (by rw [hids, map_append]; rfl)
  | output id content _ _ hmem =>
      cases h with
      | opened earlier ids answers hents hearlier hperm hids _ _ hpend =>
          refine answering_output hmem ?_ hearlier hperm hids
          rw [flush_entries, hpend, hents]
          exact append_nil _
      | closed hansd hids _ =>
          have hpend : st.pending.isEmpty ≠ true := by
            intro hemp
            rw [ids_eq_nil_of_isEmpty hemp] at hids
            rw [map_eq_nil_iff.mp hids.symm] at hmem
            cases hmem
          have hents : st.flush.messages.map entryOf =
              st.messages.map entryOf ++ .calls (batch.awaiting.map some) :: ([] : List (Option Text)).map .answer := by
            rw [flush_entries, if_neg hpend, hids]
            rfl
          refine answering_output hmem hents hansd (List.Perm.refl _) ?_
          exact hnd.map fun _ _ hsome => some.inj hsome
  | reasoning text _ hbr =>
      cases h with
      | opened _ _ _ _ _ _ _ hansg hne _ =>
          rw [hqt hansg hne] at hbr
          cases hbr
      | closed hansd hids hrdy => exact .closed hansd hids hrdy
  | assistant text _ hbr _ =>
      cases h with
      | opened _ _ _ _ _ _ _ hansg hne _ =>
          rw [hqt hansg hne] at hbr
          cases hbr
      | closed hansd hids hrdy => exact .closed hansd hids hrdy
  | speaker spoken _ _ _ hrole _ hawt =>
      cases h with
      | opened _ _ _ _ _ _ _ _ hne _ => exact absurd hawt hne
      | closed hansd hids hrdy =>
          refine .closed ?_ (by rw [hawt]; rfl) hrdy
          rw [push_entries, flush_entries, entryOf_spoken hrole]
          refine Answered.append_silent ?_ (.inl rfl)
          rw [hids, hawt]
          split
          next => rwa [append_nil]
          next => exact hansd.append_silent (.inr rfl)

theorem answering_translateItems (h : Answering batch st) (hnd : (batch.awaiting ++ input.filterMap callIdOf).Nodup)
    (hcus : ∀ item ∈ input, itemKind item ≠ .customToolCall) (hqt : Undisturbed allowImageParts batch input)
    (hpd : input.foldlM Batch.next batch = some final) :
    Answering final (st.translateItems serde allowImageParts input) := by
  induction input generalizing batch st with
  | nil =>
      cases hpd
      exact h
  | cons item input ih =>
      obtain ⟨next, hnext, hrest⟩ := next_of_foldlM hpd
      have hstep : ItemStep serde allowImageParts item batch st next _ := itemStep_of_next st hnext
      have hnextAnswering := answering_step h hstep (hcus item (mem_cons_self ..)) hqt.1
        (nodup_append.mp hnd).1
      exact ih hnextAnswering (nodup_step hstep hnd) (fun item hitem => hcus item (mem_cons_of_mem _ hitem))
        (hqt.2 next hnext) hrest

theorem answered_flush (h : Answering batch st) (hawt : batch.awaiting = []) :
    Answered (st.flush.messages.map entryOf) := by
  cases h with
  | opened _ _ _ _ _ _ _ _ hne _ => exact absurd hawt hne
  | closed hansd hids _ =>
      rw [flush_entries, hids, hawt]
      split
      next => rwa [append_nil]
      next => exact hansd.append_silent (.inr rfl)

/-! ## What is said -/

def Ordered (said : List Spoken) (st : MessagesState) : Prop :=
  ∃ before, said = before ++ st.pending.contentParts.map assistantSays ∧ Merged before (st.messages.filterMap saidIn)

variable {said : List Spoken}

theorem said_concat (messages : List Json) (message : Json) :
    (messages ++ [message]).filterMap saidIn = messages.filterMap saidIn ++ (saidIn message).toList := by
  rw [filterMap_append, filterMap_cons, filterMap_nil]
  cases saidIn message <;> rfl

theorem merged_flush (h : Ordered said st) : Merged said (st.flush.messages.filterMap saidIn) := by
  obtain ⟨before, rfl, hmrg⟩ := h
  unfold MessagesState.flush takeMessage
  dsimp only
  split
  next hemp =>
    unfold PendingAssistantMessage.isEmpty at hemp
    rw [Bool.and_eq_true, Bool.and_eq_true, List.isEmpty_iff] at hemp
    rw [hemp.1.1, toList_none, append_nil, map_nil, append_nil]
    exact hmrg
  next =>
    rw [toList_some, said_concat, saidIn_message]
    split
    next hnone =>
      rw [hnone, map_nil, append_nil, toList_none, append_nil]
      exact hmrg
    next hsome => exact .joined st.pending.contentParts hsome hmrg

theorem ordered_flush (h : Ordered said st) : Ordered said st.flush :=
  ⟨said, (append_nil said).symm, merged_flush h⟩

theorem ordered_push_silent (h : Ordered said st) {message : Json} (hmsg : saidIn message = none) :
    Ordered said (st.push message) := by
  obtain ⟨before, hsaid, hmrg⟩ := h
  refine ⟨before, hsaid, ?_⟩
  unfold push
  rwa [said_concat, hmsg, toList_none, append_nil]

theorem ordered_step (h : Ordered said st) (hstep : ItemStep serde allowImageParts item batch st next st') :
    Ordered (said ++ (saidBy allowImageParts item).toList) st' := by
  have hqt : itemKind item ≠ .message → said ++ (saidBy allowImageParts item).toList = said := fun hkind => by
    rw [saidBy_of_kind hkind, toList_none, append_nil]
  cases hstep with
  | call id flatName arguments hkind _ _ _ => rwa [hqt fun hmsg => by rw [hmsg] at hkind; cases hkind]
  | customCall id hkind _ _ => rwa [hqt (by rw [hkind]; decide)]
  | output id content hkind _ _ =>
      rw [hqt fun hmsg => by rw [hmsg] at hkind; cases hkind]
      exact ordered_push_silent (ordered_flush h) (saidIn_toolMessage id content)
  | reasoning text hkind _ => rwa [hqt (by rw [hkind]; decide)]
  | assistant text _ _ hsaid =>
      obtain ⟨before, rfl, hmrg⟩ := h
      have hcont : (st.pending.contentParts ++ [text]).map assistantSays =
          st.pending.contentParts.map assistantSays ++ [assistantSays text] := map_append
      refine ⟨before, ?_, hmrg⟩
      rw [hsaid, append_assoc]
      exact congrArg (before ++ ·) hcont.symm
  | speaker spoken _ _ hsaid hrole hcont _ =>
      refine ⟨said ++ [spoken], by rw [hsaid]; exact (append_nil _).symm, ?_⟩
      unfold push
      rw [said_concat, saidIn_spoken hrole hcont]
      exact .alone spoken (merged_flush h)
  | silent _ _ _ hsaid => rwa [hsaid, toList_none, append_nil]

theorem ordered_translateItems (h : Ordered said st) (hpd : input.foldlM Batch.next batch = some final) :
    Ordered (said ++ input.filterMap (saidBy allowImageParts)) (st.translateItems serde allowImageParts input) := by
  induction input generalizing batch st said with
  | nil =>
      rw [filterMap_nil, append_nil]
      exact h
  | cons item input ih =>
      obtain ⟨next, hnext, hrest⟩ := next_of_foldlM hpd
      have hstep : ItemStep serde allowImageParts item batch st next _ := itemStep_of_next st hnext
      have hrun := ih (ordered_step h hstep) hrest
      rw [append_assoc] at hrun
      rw [filterMap_cons]
      cases hsaid : saidBy allowImageParts item with
      | none =>
          rw [hsaid] at hrun
          exact hrun
      | some spoken =>
          rw [hsaid] at hrun
          exact hrun

end

end CodexStudy.Bridge
