import CodexStudy.Bridge.Lemmas.BridgedHistory

/-!
# Bridged histories as transcripts

The messages of a history whose calls and outputs are paired are a valid transcript exactly when no call is a custom
tool call and no text comes between the outputs of a batch.
-/

namespace CodexStudy.Bridge

open CodexStudy.Lib CodexStudy.Lib.LogEntry List MessagesState PendingAssistantMessage LogEntry

section

variable {serde : SerdeJson} {allowImageParts : Bool} {item : Json} {input : List Json} {batch next final : Batch}
  {st st' : MessagesState}

/-! ## Every output is written out -/

theorem answer_of_output {id content : Text} {grown : MessagesState}
    (hgrow : (st.flush.push (toolMessage id content)).messages <+: grown.messages) :
    answer (some id) ∈ grown.messages.map entryOf := by
  refine mem_map.mpr ⟨toolMessage id content, hgrow.subset ?_, entryOf_toolMessage id content⟩
  exact mem_append_right _ (mem_singleton_self _)

theorem awaiting_step (hstep : ItemStep serde allowImageParts item batch st next st') {id : Text}
    (hid : id ∈ batch.awaiting) : id ∈ next.awaiting ∨ ∃ content, st' = st.flush.push (toolMessage id content) := by
  cases hstep with
  | call _ _ _ _ _ _ _ => exact .inl (mem_append_left _ hid)
  | customCall _ _ _ _ => exact .inl (mem_append_left _ hid)
  | output id' content _ _ _ =>
      by_cases hsame : id = id'
      · exact .inr ⟨content, by rw [hsame]⟩
      · exact .inl ((mem_erase_of_ne hsame).mpr hid)
  | reasoning _ _ _ => exact .inl hid
  | assistant _ _ _ _ => exact .inl hid
  | speaker _ _ _ _ _ _ _ => exact .inl hid
  | silent _ _ _ _ => exact .inl hid

theorem answer_of_awaiting {id : Text} (hid : id ∈ batch.awaiting)
    (hpd : input.foldlM Batch.next batch = some final) (hfinal : final.awaiting = []) :
    answer (some id) ∈ (st.translateItems serde allowImageParts input).messages.map entryOf := by
  induction input generalizing batch st with
  | nil =>
      cases hpd
      rw [hfinal] at hid
      cases hid
  | cons item input ih =>
      obtain ⟨next, hnext, hrest⟩ := next_of_foldlM hpd
      have hstep : ItemStep serde allowImageParts item batch st next _ := itemStep_of_next st hnext
      rcases awaiting_step hstep hid with hawt | ⟨content, hpush⟩
      · exact ih hawt hrest
      · have hgrow : (st.translateItem serde allowImageParts item).messages <+:
            ((st.translateItem serde allowImageParts item).translateItems serde allowImageParts input).messages :=
          translateItems_grow hrest
        rw [hpush] at hgrow
        rw [translateItems_cons, hpush]
        exact answer_of_output hgrow

theorem callIdOf_of_paired (hitem : item ∈ input) (hkind : (itemKind item).isCall = true)
    (hpd : input.foldlM Batch.next batch = some final) : ∃ id, callIdOf item = some id := by
  induction input generalizing batch with
  | nil => cases hitem
  | cons first input ih =>
      obtain ⟨next, hnext, hrest⟩ := next_of_foldlM hpd
      rcases mem_cons.mp hitem with rfl | hitem
      · obtain ⟨id, hid, -⟩ := callId_of_next hkind hnext
        exact ⟨id, (callIdOf_of_isCall hkind).trans hid⟩
      · exact ih hitem hrest

theorem answer_of_call {id : Text} (hitem : item ∈ input) (hid : callIdOf item = some id)
    (hpd : input.foldlM Batch.next batch = some final) (hfinal : final.awaiting = []) :
    answer (some id) ∈ (st.translateItems serde allowImageParts input).messages.map entryOf := by
  induction input generalizing batch st with
  | nil => cases hitem
  | cons first input ih =>
      obtain ⟨next, hnext, hrest⟩ := next_of_foldlM hpd
      rcases mem_cons.mp hitem with rfl | hitem
      · have hkind : (itemKind item).isCall = true := by
          by_contra hkind
          rw [callIdOf_of_not_isCall hkind] at hid
          cases hid
        obtain ⟨id', hid', -, rfl⟩ := callId_of_next hkind hnext
        rw [callIdOf_of_isCall hkind, hid'] at hid
        cases hid
        rw [translateItems_cons]
        exact answer_of_awaiting (mem_append_right _ (mem_singleton_self _)) hrest hfinal
      · rw [translateItems_cons]
        exact ih hitem hrest

/-! ## The calls that are made -/

def Makes (st : MessagesState) (id : Option Text) : Prop :=
  (∃ ids, .calls ids ∈ st.messages.map entryOf ∧ id ∈ ids) ∨ id ∈ st.pending.ids

variable {id : Option Text}

theorem makes_of_flush (h : Makes st.flush id) : Makes st id := by
  rcases h with ⟨ids, hids, hid⟩ | hid
  · rw [flush_entries] at hids
    rcases mem_append.mp hids with hids | hids
    · exact .inl ⟨ids, hids, hid⟩
    · split at hids
      next => cases hids
      next =>
        cases mem_singleton.mp hids
        exact .inr hid
  · cases hid

theorem makes_of_push {message : Json} (hmsg : ∀ ids, entryOf message ≠ .calls ids) (h : Makes (st.push message) id) :
    Makes st id := by
  rcases h with ⟨ids, hids, hid⟩ | hid
  · rw [push_entries] at hids
    rcases mem_append.mp hids with hids | hids
    · exact .inl ⟨ids, hids, hid⟩
    · exact absurd (mem_singleton.mp hids).symm (hmsg ids)
  · exact .inr hid

theorem makes_of_step (hstep : ItemStep serde allowImageParts item batch st next st') (h : Makes st' id) :
    Makes st id ∨ itemKind item ≠ .customToolCall ∧ (callIdOf item).map some = some id := by
  cases hstep with
  | call callId flatName arguments hkind hcus hid _ =>
      rcases h with hmsg | hpend
      · exact .inl (.inl hmsg)
      · have hids : (st.pending.pushToolCall (toolCallJson serde callId flatName arguments)).ids =
            st.pending.ids ++ [some callId] := map_append
        rcases mem_append.mp (hids ▸ hpend) with hpend | hlast
        · exact .inl (.inr hpend)
        · cases mem_singleton.mp hlast
          exact .inr ⟨hcus, by rw [callIdOf_of_isCall hkind, hid]; rfl⟩
  | customCall _ _ _ _ => exact .inl h
  | output callId content _ _ _ =>
      refine .inl (makes_of_flush (makes_of_push (fun ids hids => ?_) h))
      rw [entryOf_toolMessage] at hids
      cases hids
  | reasoning _ _ _ => exact .inl h
  | assistant _ _ _ _ => exact .inl h
  | speaker spoken _ _ _ hrole _ _ =>
      refine .inl (makes_of_flush (makes_of_push (fun ids hids => ?_) h))
      rw [entryOf_spoken hrole] at hids
      cases hids
  | silent _ _ _ _ => exact .inl h

theorem makes_of_translateItems (hpd : input.foldlM Batch.next batch = some final)
    (h : Makes (st.translateItems serde allowImageParts input) id) :
    Makes st id ∨ ∃ item ∈ input, itemKind item ≠ .customToolCall ∧ (callIdOf item).map some = some id := by
  induction input generalizing batch st with
  | nil => exact .inl h
  | cons item input ih =>
      obtain ⟨next, hnext, hrest⟩ := next_of_foldlM hpd
      have hstep : ItemStep serde allowImageParts item batch st next _ := itemStep_of_next st hnext
      rcases ih hrest h with hmade | ⟨later, hlater, hcs⟩
      · rcases makes_of_step hstep hmade with hmade | hcs
        · exact .inl hmade
        · exact .inr ⟨item, mem_cons_self .., hcs⟩
      · exact .inr ⟨later, mem_cons_of_mem _ hlater, hcs⟩

theorem callIdOf_ne (hunique : (input.filterMap callIdOf).Nodup) {item' : Json} (hitem : item ∈ input)
    (hitem' : item' ∈ input) (hne : item ≠ item') {callId : Text} (hid : callIdOf item = some callId) :
    callIdOf item' ≠ some callId := by
  have hpairwise := pairwise_filterMap.mp hunique
  have hsymm : Std.Symm fun item item' : Json =>
      ∀ id, callIdOf item = some id → ∀ id', callIdOf item' = some id' → id ≠ id' :=
    ⟨fun _ _ h id' hid' id hid => (h id hid id' hid').symm⟩
  intro hid'
  exact hpairwise.forall hitem hitem' hne callId hid callId hid' rfl

theorem not_answered_of_customCall (hitem : item ∈ input) (hcus : itemKind item = .customToolCall)
    (hunique : (input.filterMap callIdOf).Nodup) (hpd : input.foldlM Batch.next batch = some final)
    (hfinal : final.awaiting = []) (hnone : ∀ id, ¬Makes st id) :
    ¬Answered ((st.translateItems serde allowImageParts input).flush.messages.map entryOf) := by
  obtain ⟨callId, hid⟩ := callIdOf_of_paired hitem (by rw [hcus]; rfl) hpd
  have hans : answer (some callId) ∈
      (st.translateItems serde allowImageParts input).flush.messages.map entryOf :=
    (flush_grow.map entryOf).subset (answer_of_call hitem hid hpd hfinal)
  refine not_answered_of_unasked hans fun ids hids hmem => ?_
  rcases makes_of_translateItems hpd (makes_of_flush (.inl ⟨ids, hids, hmem⟩)) with hmade | ⟨item', hitem', hkind, hid'⟩
  · exact hnone _ hmade
  · obtain ⟨_, hid', hsame⟩ := Option.map_eq_some_iff.mp hid'
    cases hsame
    refine callIdOf_ne hunique hitem hitem' (fun hits => hkind ?_) hid hid'
    rw [← hits, hcus]

/-! ## A text between the outputs -/

theorem isEmpty_of_contentParts {pending : PendingAssistantMessage} (h : pending.contentParts ≠ []) :
    pending.isEmpty ≠ true := by
  intro hemp
  unfold PendingAssistantMessage.isEmpty at hemp
  rw [Bool.and_eq_true, Bool.and_eq_true, List.isEmpty_iff] at hemp
  exact h hemp.1.1

theorem isEmpty_of_reasoningParts {pending : PendingAssistantMessage} (h : pending.reasoningParts ≠ []) :
    pending.isEmpty ≠ true := by
  intro hemp
  unfold PendingAssistantMessage.isEmpty at hemp
  rw [Bool.and_eq_true, Bool.and_eq_true, List.isEmpty_iff, List.isEmpty_iff] at hemp
  exact h hemp.1.2

/-- A text without calls is pending while a batch has some but not all of its outputs. -/
structure Interrupted (batch : Batch) (st : MessagesState) : Prop where
  answering : batch.answering = true
  awaiting : batch.awaiting ≠ []
  pending : st.pending.isEmpty ≠ true
  calls : st.pending.toolCalls = []

theorem interrupted_step (h : Interrupted batch st) (hstep : ItemStep serde allowImageParts item batch st next st') :
    Interrupted next st' ∨
      ∃ id, st'.messages.map entryOf = st.messages.map entryOf ++ [.calls [], .answer (some id)] := by
  cases hstep with
  | call _ _ _ _ _ _ hrdy => exact absurd (hrdy h.answering) h.awaiting
  | customCall _ _ _ hrdy => exact absurd (hrdy h.answering) h.awaiting
  | output id content _ _ _ =>
      have hids : st.pending.ids = [] := by
        unfold ids
        rw [h.calls, map_nil]
      refine .inr ⟨id, ?_⟩
      rw [push_entries, flush_entries, if_neg h.pending, hids, entryOf_toolMessage, append_assoc]
      rfl
  | reasoning text _ _ =>
      exact .inl ⟨h.answering, h.awaiting, isEmpty_of_reasoningParts (concat_ne_nil text _), h.calls⟩
  | assistant text _ _ _ =>
      exact .inl ⟨h.answering, h.awaiting, isEmpty_of_contentParts (concat_ne_nil text _), h.calls⟩
  | speaker _ _ _ _ _ _ hawt => exact absurd hawt h.awaiting
  | silent _ _ _ _ => exact .inl h

theorem not_answered_of_interrupted (h : Interrupted batch st) (hpd : input.foldlM Batch.next batch = some final)
    (hfinal : final.awaiting = []) :
    ¬Answered ((st.translateItems serde allowImageParts input).flush.messages.map entryOf) := by
  induction input generalizing batch st with
  | nil =>
      cases hpd
      exact absurd hfinal h.awaiting
  | cons item input ih =>
      obtain ⟨next, hnext, hrest⟩ := next_of_foldlM hpd
      have hstep : ItemStep serde allowImageParts item batch st next _ := itemStep_of_next st hnext
      rcases interrupted_step h hstep with h' | ⟨id, hents⟩
      · exact ih h' hrest
      · have hgrow : (st.translateItem serde allowImageParts item).messages <+:
            ((st.translateItem serde allowImageParts item).translateItems serde allowImageParts input).flush.messages :=
          (translateItems_grow hrest).trans flush_grow
        obtain ⟨after, haft⟩ := hgrow.map entryOf
        rw [translateItems_cons, ← haft, hents, append_assoc]
        exact not_answered_of_silent (.inr rfl)

def NoCallsPending (batch : Batch) (st : MessagesState) : Prop := batch.answering = true → st.pending.toolCalls = []

theorem noCallsPending_step (h : NoCallsPending batch st)
    (hstep : ItemStep serde allowImageParts item batch st next st') : NoCallsPending next st' := by
  cases hstep with
  | call _ _ _ _ _ _ _ => exact fun hansg => by cases hansg
  | customCall _ _ _ _ => exact fun hansg => by cases hansg
  | output _ _ _ _ _ => exact fun _ => rfl
  | reasoning _ _ _ => exact h
  | assistant _ _ _ _ => exact h
  | speaker _ _ _ _ _ _ _ => exact fun _ => rfl
  | silent _ _ _ _ => exact h

theorem interrupted_of_bringsText (h : NoCallsPending batch st) (hansg : batch.answering = true)
    (hawt : batch.awaiting ≠ []) (hbr : bringsText allowImageParts item = true)
    (hstep : ItemStep serde allowImageParts item batch st next st') : Interrupted next st' := by
  have hqt : itemKind item ≠ .message → itemKind item ≠ .reasoning → False := by
    intro hmsg hrsn
    rw [bringsText_of_kind hmsg hrsn] at hbr
    cases hbr
  cases hstep with
  | call _ _ _ _ _ _ hrdy => exact absurd (hrdy hansg) hawt
  | customCall _ _ _ hrdy => exact absurd (hrdy hansg) hawt
  | output _ _ hkind _ _ =>
      refine (hqt (fun h => ?_) fun h => ?_).elim
      · rw [h] at hkind
        cases hkind
      · rw [h] at hkind
        cases hkind
  | reasoning text _ _ =>
      exact ⟨hansg, hawt, isEmpty_of_reasoningParts (concat_ne_nil text _), h hansg⟩
  | assistant text _ _ _ =>
      exact ⟨hansg, hawt, isEmpty_of_contentParts (concat_ne_nil text _), h hansg⟩
  | speaker _ _ _ _ _ _ hnone => exact absurd hnone hawt
  | silent _ _ hsil _ =>
      rw [hsil] at hbr
      cases hbr

theorem undisturbed_of_answered (h : NoCallsPending batch st) (hpd : input.foldlM Batch.next batch = some final)
    (hfinal : final.awaiting = [])
    (hansd : Answered ((st.translateItems serde allowImageParts input).flush.messages.map entryOf)) :
    Undisturbed allowImageParts batch input := by
  induction input generalizing batch st with
  | nil => trivial
  | cons item input ih =>
      obtain ⟨next, hnext, hrest⟩ := next_of_foldlM hpd
      have hstep : ItemStep serde allowImageParts item batch st next _ := itemStep_of_next st hnext
      refine ⟨fun hansg hawt => ?_, fun next' hnext' => ?_⟩
      · by_contra hbr
        have hinterrupted := interrupted_of_bringsText h hansg hawt (eq_true_of_ne_false hbr) hstep
        exact not_answered_of_interrupted hinterrupted hrest hfinal hansd
      · obtain rfl := Option.some.inj (hnext.symm.trans hnext')
        exact ih (noCallsPending_step h hstep) hrest hansd

end

section

variable (serde : SerdeJson) (allowImageParts : Bool) (body : Json)

/-! ## The instructions in front -/

def saidFirst : List Spoken := (instructionsOf body).toList.map fun text => ⟨"system", .string text⟩

def MessagesState.start : MessagesState := { messages := (saidFirst body).map Spoken.message }

theorem translateMessages_eq : translateMessages serde body allowImageParts =
    ((start body).translateItems serde allowImageParts (inputOf body)).flush.messages := by
  have hst : (instructionsOf body).toList.map (fun text => Spoken.message ⟨"system", .string text⟩) =
      (start body).messages := by
    unfold start saidFirst
    rw [map_map]
    rfl
  unfold translateMessages inputOf
  dsimp only
  rw [hst]
  cases body.getArray "input" with
  | none => exact (append_nil _).symm
  | some input => rfl

theorem entries_start : ∀ entry ∈ (start body).messages.map entryOf, entry = .other := by
  intro entry hent
  obtain ⟨_, hmsg, rfl⟩ := mem_map.mp hent
  obtain ⟨spoken, hspoken, rfl⟩ := mem_map.mp hmsg
  obtain ⟨text, -, rfl⟩ := mem_map.mp hspoken
  rfl

theorem answering_start : Answering {} (start body) := by
  refine .closed ?_ rfl fun _ => rfl
  have hents := entries_start body
  unfold start saidFirst at *
  cases instructionsOf body with
  | none => exact answered_nil
  | some text => exact answered_silent (.inl rfl)

theorem makes_start (id : Option Text) : ¬Makes (start body) id := by
  rintro (⟨ids, hids, -⟩ | hid)
  · cases entries_start body _ hids
  · cases hid

theorem noCallsPending_start : NoCallsPending {} (start body) := fun hansg => by cases hansg

theorem ordered_start : Ordered (saidFirst body) (start body) := by
  refine ⟨saidFirst body, (append_nil _).symm, ?_⟩
  unfold start saidFirst
  cases instructionsOf body with
  | none => exact .nil
  | some text =>
      have hsystem : Merged ([] ++ [_]) ([] ++ [_]) := .alone ⟨"system", .string text⟩ .nil
      exact hsystem

end

section

variable {serde : SerdeJson} {allowImageParts : Bool} {body : Json}

theorem inOrder_of_wellPaired (hpd : WellPaired (inputOf body)) : Merged (saidInRequest allowImageParts body)
    ((translateMessages serde body allowImageParts).filterMap saidIn) := by
  obtain ⟨batch, hbatch, -⟩ := hpd.paired
  rw [translateMessages_eq]
  exact merged_flush (ordered_translateItems (ordered_start body) hbatch)

theorem answered_of_undisturbed (hpd : WellPaired (inputOf body))
    (hcus : ∀ item ∈ inputOf body, itemKind item ≠ .customToolCall)
    (hqt : Undisturbed allowImageParts {} (inputOf body)) :
    Answered ((translateMessages serde body allowImageParts).map entryOf) := by
  obtain ⟨batch, hbatch, hawt⟩ := hpd.paired
  rw [translateMessages_eq]
  exact answered_flush (answering_translateItems (answering_start body) hpd.unique hcus hqt hbatch) hawt

theorem not_answered_of_customCall_mem (hpd : WellPaired (inputOf body)) {item : Json}
    (hitem : item ∈ inputOf body) (hcus : itemKind item = .customToolCall) :
    ¬Answered ((translateMessages serde body allowImageParts).map entryOf) := by
  obtain ⟨batch, hbatch, hawt⟩ := hpd.paired
  rw [translateMessages_eq]
  exact not_answered_of_customCall hitem hcus hpd.unique hbatch hawt (makes_start body)

end

/-! ## The theorem -/

def inputItem (type callId : String) : Json := .obj [("type", .str type), ("call_id", .str callId)]

def inputText (role text : String) : Json :=
  .obj [("type", .str "message"), ("role", .str role),
    ("content", .array [.obj [("type", .str "input_text"), ("text", .str text)]])]

def groupedCalls : Json :=
  .obj [("input", .array [inputText "user" "Look.", inputText "assistant" "I look.",
    inputItem "function_call" "call_1", inputItem "function_call" "call_2",
    inputItem "function_call_output" "call_1", inputItem "function_call_output" "call_2",
    inputText "assistant" "Done.", inputItem "function_call" "call_3", inputItem "function_call_output" "call_3"])]

def emptySerde : SerdeJson where
  toText _ := emptyObject
  fromStr text := if text = emptyObject then some (.obj []) else none

theorem groupedCalls_wellPaired : WellPaired (inputOf groupedCalls) :=
  ⟨⟨{ answering := true }, by decide, rfl⟩, by decide⟩

def customCalls : Json :=
  .obj [("input", .array [inputItem "custom_tool_call" "call_1", inputItem "custom_tool_call_output" "call_1"])]

theorem customCalls_wellPaired : WellPaired (inputOf customCalls) :=
  ⟨⟨{ answering := true }, by decide, rfl⟩, by decide⟩

end CodexStudy.Bridge
