import CodexStudy.Bridge.Messages
import Mathlib.Tactic.SplitIfs

/-!
# One item of the history
-/

namespace CodexStudy.Bridge

open CodexStudy.Lib PendingAssistantMessage Option MessagesState
open CodexStudy.Lib.LogEntry

/-! ## The messages that are written -/

variable (pending : PendingAssistantMessage)

def PendingAssistantMessage.ids : List (Option Text) :=
  pending.toolCalls.map (·.getStr "id")

theorem entryOf_message : entryOf pending.message = .calls pending.ids := by
  obtain ⟨contentParts, reasoningParts, toolCalls⟩ := pending
  cases toolCalls with
  | cons toolCall toolCalls => rfl
  | nil =>
      unfold message
      cases reasoningContent ⟨contentParts, reasoningParts, []⟩ <;> rfl

theorem saidIn_message :
    saidIn pending.message =
      if pending.contentParts = [] then none
      else some (assistantSays (Text.join newline pending.contentParts)) := by
  obtain ⟨contentParts, reasoningParts, toolCalls⟩ := pending
  cases contentParts <;> rfl

theorem entryOf_toolMessage (callId content : Text) : entryOf (toolMessage callId content) = .answer (some callId) := rfl

theorem saidIn_toolMessage (callId content : Text) : saidIn (toolMessage callId content) = none := rfl

/-- Someone else than the assistant and the tools. -/
def IsSpeaker (role : Text) : Prop := role = "user" ∨ role = "system"

variable {spoken : Spoken} {text role : Text} {pending : PendingAssistantMessage}

theorem entryOf_spoken (h : IsSpeaker spoken.role) : entryOf spoken.message = .other := by
  obtain ⟨role, content⟩ := spoken
  rcases h with h | h
  · cases h
    rfl
  · cases h
    rfl

theorem saidIn_spoken (h : IsSpeaker spoken.role) (hcont : spoken.content ≠ .null) :
    saidIn spoken.message = some spoken := by
  obtain ⟨role, content⟩ := spoken
  have hrole : role ≠ "tool" := by
    rcases h with h | h
    · cases h
      decide
    · cases h
      decide
  have hget : Json.get (Spoken.message ⟨role, content⟩) "content" = some content := rfl
  have hgetStr : Json.getStr (Spoken.message ⟨role, content⟩) "role" = some role := rfl
  unfold saidIn
  rw [hget, hgetStr]
  cases content with
  | null => exact absurd rfl hcont
  | _ => exact if_neg hrole

/-! ## The step -/

section

variable {serde : SerdeJson} {allowImageParts : Bool} {item : Json}

theorem translateItem_eq (st : MessagesState) :
    st.translateItem serde allowImageParts item =
      match itemKind item with
      | .reasoning =>
          match reasoningItemText item with
          | some text => st.setPending (st.pending.pushReasoning text)
          | none => st
      | .message =>
          match translateMessageItem item allowImageParts with
          | some spoken => st.speak spoken
          | none => st
      | .functionCall =>
          st.callTool serde item
            (flattenToolName (item.getStr "namespace") ((item.getStr "name").getD SHELL_COMMAND_FLAT_NAME))
            ((item.getStr "arguments").getD emptyObject)
      | .toolSearchCall =>
          st.callTool serde item TOOL_SEARCH_FLAT_NAME
            (serde.toText ((item.get "arguments").getD (.object [])))
      | .localShellCall =>
          st.callTool serde item SHELL_COMMAND_FLAT_NAME (serde.toText ((item.get "action").getD .null))
      | .functionOutput => st.answerTool item (outputPayloadText serde ((item.get "output").getD .null))
      | .toolSearchOutput => st.answerTool item (toolSearchContent serde item)
      | .customToolCall | .other => st := by
  unfold translateItem itemKind
  cases item.getStr "type" with
  | none => rfl
  | some type =>
      dsimp only
      split_ifs
      all_goals rfl

theorem nonBlank_eq_some {text' : Text} (h : nonBlank text = some text') :
    text' = text ∧ nonBlank text' = some text' := by
  have hsame : text' = text := by
    unfold nonBlank at h
    split at h
    next => cases h
    next =>
      cases h
      rfl
  exact ⟨hsame, hsame ▸ h⟩

theorem nonBlank_eq_none_iff : nonBlank text = none ↔ text.trim.isEmpty = true := by
  unfold nonBlank
  split
  next hbl => exact iff_of_true rfl hbl
  next hbl => exact iff_of_false (fun h => (by cases h)) hbl

theorem nonBlank_reasoningItemText (h : reasoningItemText item = some text) :
    nonBlank text = some text := by
  unfold reasoningItemText at h
  rcases or_eq_some_iff.mp (orElse_eq_or.symm.trans h) with h | ⟨-, h⟩
  · obtain ⟨_, -, h⟩ := bind_eq_some_iff.mp h
    exact (nonBlank_eq_some h).2
  · obtain ⟨_, -, h⟩ := bind_eq_some_iff.mp h
    exact (nonBlank_eq_some h).2

def upstreamRole (role : Text) : Text := if role = "developer" then "system" else role

theorem translateMessageItem_eq (hrole : item.getStr "role" = some role) :
    translateMessageItem item allowImageParts = (item.getArray "content").bind fun content =>
      if upstreamRole role = "user" then
        (userContent allowImageParts content).map fun content => ⟨upstreamRole role, content⟩
      else
        (nonBlank (Text.join newline (content.filterMap (·.getStr "text")))).map fun text =>
          ⟨upstreamRole role, .string text⟩ := by
  unfold translateMessageItem
  rw [hrole]
  cases item.getArray "content" with
  | none => rfl
  | some content =>
      dsimp only [bind_some]
      unfold upstreamRole nonBlank
      split_ifs
      all_goals rfl

theorem translateMessageItem_assistant (hrole : item.getStr "role" = some "assistant".toList)
    (h : translateMessageItem item allowImageParts = some spoken) :
    ∃ text, spoken = assistantSays text ∧ nonBlank text = some text := by
  rw [translateMessageItem_eq hrole] at h
  obtain ⟨content, -, h⟩ := bind_eq_some_iff.mp h
  rw [if_neg (by decide)] at h
  obtain ⟨text, htext, rfl⟩ := map_eq_some_iff.mp h
  exact ⟨text, rfl, (nonBlank_eq_some htext).2⟩

theorem userContent_ne_null {content : List Json} {content' : Json}
    (h : userContent allowImageParts content = some content') : content' ≠ .null := by
  rintro rfl
  unfold userContent at h
  split at h
  next => cases h
  next =>
    split at h
    next =>
      split at h
      all_goals cases h
    next => cases h
  next => cases h

theorem translateMessageItem_speaker (hrole : item.getStr "role" = some role)
    (hspeaker : role = "user" ∨ role = "system" ∨ role = "developer")
    (h : translateMessageItem item allowImageParts = some spoken) : IsSpeaker spoken.role ∧ spoken.content ≠ .null := by
  have hupstream : IsSpeaker (upstreamRole role) := by
    rcases hspeaker with rfl | rfl | rfl
    · exact .inl rfl
    · exact .inr rfl
    · exact .inr rfl
  rw [translateMessageItem_eq hrole] at h
  obtain ⟨content, -, h⟩ := bind_eq_some_iff.mp h
  split at h
  next =>
    obtain ⟨content', hcont, rfl⟩ := map_eq_some_iff.mp h
    exact ⟨hupstream, userContent_ne_null hcont⟩
  next =>
    obtain ⟨text, -, rfl⟩ := map_eq_some_iff.mp h
    exact ⟨hupstream, fun hnull => by cases hnull⟩

variable (serde allowImageParts item) in
inductive ItemStep (batch : Batch) (st : MessagesState) : Batch → MessagesState → Prop where
  | call (id flatName arguments : Text) : (itemKind item).isCall = true → itemKind item ≠ .customToolCall →
      item.getStr "call_id" = some id → (batch.answering = true → batch.awaiting = []) →
      ItemStep batch st { awaiting := batch.awaiting ++ [id], answering := false }
        (st.setPending (st.pending.pushToolCall (toolCallJson serde id flatName arguments)))
  | customCall (id : Text) : itemKind item = .customToolCall →
      item.getStr "call_id" = some id → (batch.answering = true → batch.awaiting = []) →
      ItemStep batch st { awaiting := batch.awaiting ++ [id], answering := false } st
  | output (id content : Text) : (itemKind item).isOutput = true → item.getStr "call_id" = some id →
      id ∈ batch.awaiting →
      ItemStep batch st { awaiting := batch.awaiting.erase id, answering := true }
        (st.flush.push (toolMessage id content))
  | reasoning (text : Text) : itemKind item = .reasoning → bringsText allowImageParts item = true →
      ItemStep batch st batch
        (st.setPending { st.pending with reasoningParts := st.pending.reasoningParts ++ [text] })
  | assistant (text : Text) : itemKind item = .message → bringsText allowImageParts item = true →
      saidBy allowImageParts item = some (assistantSays text) →
      ItemStep batch st batch (st.setPending { st.pending with contentParts := st.pending.contentParts ++ [text] })
  | speaker (spoken : Spoken) : itemKind item = .message → bringsText allowImageParts item = false →
      saidBy allowImageParts item = some spoken → IsSpeaker spoken.role → spoken.content ≠ .null →
      batch.awaiting = [] → ItemStep batch st batch (st.flush.push spoken.message)
  | silent : (itemKind item).isCall = false → (itemKind item).isOutput = false →
      bringsText allowImageParts item = false → saidBy allowImageParts item = none → ItemStep batch st batch st

theorem saidBy_of_kind (h : itemKind item ≠ .message) : saidBy allowImageParts item = none := if_neg h

theorem bringsText_of_kind (h : itemKind item ≠ .message) (h' : itemKind item ≠ .reasoning) :
    bringsText allowImageParts item = false := by
  unfold bringsText
  split
  next hkind => exact absurd hkind h'
  next hkind => exact absurd hkind h
  next => rfl

theorem pushReasoning_eq (h : nonBlank text = some text) :
    pending.pushReasoning text = { pending with reasoningParts := pending.reasoningParts ++ [text] } := by
  unfold pushReasoning
  rw [h]

theorem pushContent_eq (h : nonBlank text = some text) :
    pending.pushContent (some text) = { pending with contentParts := pending.contentParts ++ [text] } := by
  unfold pushContent
  rw [bind_some, h]

variable {batch next : Batch} (st : MessagesState)

theorem speak_assistant (h : nonBlank text = some text) : st.speak (assistantSays text) =
      st.setPending { st.pending with contentParts := st.pending.contentParts ++ [text] } := by
  have hpend : st.speak (assistantSays text) = st.setPending (st.pending.pushContent (nonBlank text)) := if_pos rfl
  rw [hpend, h, pushContent_eq h]

theorem callId_of_next (hkind : (itemKind item).isCall = true) (h : batch.next item = some next) :
    ∃ id, item.getStr "call_id" = some id ∧ (batch.answering = true → batch.awaiting = []) ∧
      next = { awaiting := batch.awaiting ++ [id], answering := false } := by
  unfold Batch.next at h
  rw [if_pos hkind] at h
  split at h
  next => cases h
  next hrdy =>
    obtain ⟨id, hid, rfl⟩ := map_eq_some_iff.mp h
    exact ⟨id, hid, fun hansg => by_contra fun hne => hrdy ⟨hansg, hne⟩, rfl⟩

theorem call_of_next (hkind : (itemKind item).isCall = true) (hcus : itemKind item ≠ .customToolCall)
    (h : batch.next item = some next) (flatName arguments : Text) :
    ItemStep serde allowImageParts item batch st next (st.callTool serde item flatName arguments) := by
  obtain ⟨id, hid, hrdy, rfl⟩ := callId_of_next hkind h
  unfold callTool
  rw [hid]
  exact .call id flatName arguments hkind hcus hid hrdy

theorem output_of_next (hkind : (itemKind item).isOutput = true) (h : batch.next item = some next) (content : Text) :
    ItemStep serde allowImageParts item batch st next (st.answerTool item content) := by
  have hcall : (itemKind item).isCall ≠ true := by
    cases hitem : itemKind item with
    | functionOutput => decide
    | toolSearchOutput => decide
    | _ =>
        rw [hitem] at hkind
        cases hkind
  unfold Batch.next at h
  rw [if_neg hcall, if_pos hkind] at h
  obtain ⟨id, hid, h⟩ := bind_eq_some_iff.mp h
  split at h
  next hmem =>
    cases h
    unfold answerTool
    rw [hid]
    exact .output id content hkind hid hmem
  next => cases h

theorem reasoning_of_next (hkind : itemKind item = .reasoning) :
    ItemStep serde allowImageParts item batch st batch
      (match reasoningItemText item with
        | some text => st.setPending (st.pending.pushReasoning text)
        | none => st) := by
  have hbr : bringsText allowImageParts item = (reasoningItemText item).isSome := by
    unfold bringsText
    rw [hkind]
  cases htext : reasoningItemText item with
  | none =>
      rw [htext] at hbr
      exact .silent (by rw [hkind]; rfl) (by rw [hkind]; rfl) hbr (saidBy_of_kind (by rw [hkind]; decide))
  | some text =>
      rw [htext] at hbr
      dsimp only
      rw [pushReasoning_eq (nonBlank_reasoningItemText htext)]
      exact .reasoning text hkind hbr

theorem message_of_next (hkind : itemKind item = .message) (h : batch.next item = some next) :
    ItemStep serde allowImageParts item batch st next
      (match translateMessageItem item allowImageParts with
        | some spoken => st.speak spoken
        | none => st) := by
  have hsaid : saidBy allowImageParts item = translateMessageItem item allowImageParts := if_pos hkind
  have hbr : bringsText allowImageParts item =
      (translateMessageItem item allowImageParts).any fun spoken => spoken.role == "assistant".toList := by
    unfold bringsText
    rw [hkind]
  unfold Batch.next at h
  rw [hkind] at h
  simp only [ItemKind.isCall, ItemKind.isOutput, Bool.false_eq_true, ↓reduceIte] at h
  cases htr : translateMessageItem item allowImageParts with
  | none =>
      rw [htr] at hsaid hbr
      have hnext : next = batch := by
        split at h
        next => exact (some.inj h).symm
        next =>
          split at h
          next => exact (some.inj h).symm
          next =>
            split at h
            next => exact (some.inj h).symm
            next => cases h
      rw [hnext]
      exact .silent (by rw [hkind]; rfl) (by rw [hkind]; rfl) hbr hsaid
  | some spoken =>
      rw [htr] at hsaid hbr
      dsimp only
      split at h
      next hrole =>
        unfold translateMessageItem at htr
        rw [hrole] at htr
        cases htr
      next role hrole =>
        split at h
        next hassistant =>
          cases h
          rw [hassistant] at hrole
          obtain ⟨text, rfl, htext⟩ := translateMessageItem_assistant hrole htr
          rw [speak_assistant st htext]
          exact .assistant text hkind hbr hsaid
        next =>
          split at h
          next hspeaker =>
            cases h
            rw [Bool.and_eq_true, List.isEmpty_iff, List.contains_iff_mem] at hspeaker
            simp only [List.mem_cons, List.not_mem_nil, or_false] at hspeaker
            obtain ⟨hroleOf, hcont⟩ := translateMessageItem_speaker hrole hspeaker.1 htr
            have hnot : spoken.role ≠ "assistant".toList := by
              rcases hroleOf with hroleOf | hroleOf
              · rw [hroleOf]
                decide
              · rw [hroleOf]
                decide
            have hspeak : st.speak spoken = st.flush.push spoken.message := if_neg hnot
            rw [hspeak]
            refine .speaker spoken hkind ?_ hsaid hroleOf hcont hspeaker.2
            rw [hbr]
            exact beq_eq_false_iff_ne.mpr hnot
          next => cases h

theorem itemStep_of_next (h : batch.next item = some next) :
    ItemStep serde allowImageParts item batch st next (st.translateItem serde allowImageParts item) := by
  rw [translateItem_eq]
  cases hkind : itemKind item with
  | reasoning =>
      have hsame : next = batch := by
        unfold Batch.next at h
        rw [hkind] at h
        exact (some.inj h).symm
      rw [hsame]
      exact reasoning_of_next st hkind
  | message => exact message_of_next st hkind h
  | functionCall => exact call_of_next st (by rw [hkind]; rfl) (by rw [hkind]; decide) h _ _
  | toolSearchCall => exact call_of_next st (by rw [hkind]; rfl) (by rw [hkind]; decide) h _ _
  | localShellCall => exact call_of_next st (by rw [hkind]; rfl) (by rw [hkind]; decide) h _ _
  | customToolCall =>
      obtain ⟨id, hid, hrdy, rfl⟩ := callId_of_next (by rw [hkind]; rfl) h
      exact .customCall id hkind hid hrdy
  | functionOutput => exact output_of_next st (by rw [hkind]; rfl) h _
  | toolSearchOutput => exact output_of_next st (by rw [hkind]; rfl) h _
  | other =>
      have hsame : next = batch := by
        unfold Batch.next at h
        rw [hkind] at h
        exact (some.inj h).symm
      rw [hsame]
      exact .silent (by rw [hkind]; rfl) (by rw [hkind]; rfl)
        (bringsText_of_kind (by rw [hkind]; decide) (by rw [hkind]; decide)) (saidBy_of_kind (by rw [hkind]; decide))

end

end CodexStudy.Bridge
