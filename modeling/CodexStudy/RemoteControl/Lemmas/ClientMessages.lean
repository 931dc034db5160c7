import CodexStudy.RemoteControl.ClientMessages
import CodexStudy.RemoteControl.Lemmas.Assemblies

/-!
# What is known of the messages of the clients in every run
-/

namespace CodexStudy.RemoteControl

open CodexStudy.Lib ClientMessageState List HashMap

variable {codec : Codec}

/-! ## One envelope -/

variable {assembly : ClientSegmentAssembly} {state : ClientMessageState} {steps : List ClientMessageStep}

section

variable {s : ClientMessageState} {place : ClientId → Nat} {now : Nat} {envelope : ClientEnvelope} {wireSizeBytes : Nat}

def chunkOf (envelope : ClientEnvelope) (streamId : StreamId) (seqId segmentId segmentCount messageSizeBytes : Nat)
    (messageChunkBase64 : Text) : Chunk where
  clientId := envelope.clientId
  streamId := streamId
  metadata := { seqId, segmentCount, messageSizeBytes }
  segmentId := segmentId
  messageChunkBase64 := messageChunkBase64

variable {seqId : Nat} {key : ClientMessageKey}

theorem clientMessageKey_ids (h : clientMessageKey envelope = some (key, seqId)) :
    envelope.clientId = key.1 ∧ envelope.streamId = key.2 ∧ envelope.seqId = some seqId := by
  unfold clientMessageKey at h
  split at h
  next hq =>
    simp only [Option.some.injEq, Prod.mk.injEq] at h
    obtain ⟨rfl, rfl⟩ := h
    exact ⟨rfl, rfl, hq⟩
  next => cases h

theorem observe_cases (codec : Codec) (place : ClientId → Nat) (now : Nat) (envelope : ClientEnvelope)
    (r : ClientSegmentReassembler) : (r.observe codec place now envelope).2 = r ∨
      ∃ streamId seqId segmentId segmentCount size text,
        envelope.streamId = some streamId ∧ envelope.seqId = some seqId ∧
          envelope.event = .clientMessageChunk segmentId segmentCount size text ∧ r.observe codec place now envelope =
            r.observeChunk codec place now envelope
              (chunkOf envelope streamId seqId segmentId segmentCount size text) := by
  unfold ClientSegmentReassembler.observe
  cases he : envelope.event with
  | clientMessageChunk segmentId segmentCount size text =>
      cases hq : envelope.seqId with
      | none => exact .inl rfl
      | some seqId =>
          cases ht : envelope.streamId with
          | none => exact .inl rfl
          | some streamId => exact .inr ⟨streamId, seqId, segmentId, segmentCount, size, text, rfl, rfl, rfl, rfl⟩
  | clientMessage message => exact .inl rfl
  | ack segmentId => exact .inl rfl
  | ping => exact .inl rfl
  | clientClosed => exact .inl rfl

theorem observeSegment_reassembler : (s.observeSegment codec place now envelope).2.clientSegmentReassembler =
      (s.clientSegmentReassembler.observe codec place now envelope).2 := by
  unfold observeSegment
  dsimp only
  split <;> rfl

theorem completed_of_observeSegment
    (h : (s.observeSegment codec place now envelope).2.lastCompletedClientChunkSeqIdByStream.lookup key = some seqId) :
    s.lastCompletedClientChunkSeqIdByStream.lookup key = some seqId ∨
      clientMessageKey envelope = some (key, seqId) := by
  unfold observeSegment at h
  dsimp only at h
  split at h
  next key' seqId' _ hkey =>
    dsimp only at h
    rw [lookup_insert_eq] at h
    split at h
    next hk => cases h; rw [hk]; exact .inr hkey
    next => exact .inl h
  next => exact .inl h

theorem observeClientMessage_cases (codec : Codec) (place : ClientId → Nat) (now : Nat) (envelope : ClientEnvelope)
    (wireSizeBytes : Nat) (s : ClientMessageState) :
    ((s.observeClientMessage codec place now envelope wireSizeBytes).2 = s ∧
        (s.observeClientMessage codec place now envelope wireSizeBytes).1 = .dropped) ∨
      ((s.observeClientMessage codec place now envelope wireSizeBytes).2 = s.invalidateAssembly envelope ∧
        (s.observeClientMessage codec place now envelope wireSizeBytes).1 = .dropped) ∨
      (s.observeClientMessage codec place now envelope wireSizeBytes = s.observeSegment codec place now envelope ∧
        ∀ key seqId, clientMessageKey envelope = some (key, seqId) → s.isCompleted key seqId = false) := by
  unfold observeClientMessage
  cases hk : clientMessageKey envelope with
  | none =>
      refine .inr (.inr ⟨rfl, ?_⟩)
      intro key seqId h
      cases h
  | some keyed =>
      dsimp only
      split
      next => exact .inl ⟨rfl, rfl⟩
      next hc =>
        split
        next => exact .inl ⟨rfl, rfl⟩
        next =>
          split
          next => exact .inr (.inl ⟨rfl, rfl⟩)
          next =>
            refine .inr (.inr ⟨rfl, ?_⟩)
            rintro key seqId ⟨⟩
            simpa using hc

theorem lookup_of_invalidateAssembly {clientId : ClientId}
    (h : (s.invalidateAssembly envelope).clientSegmentReassembler.assemblies.lookup clientId = some assembly) :
    s.clientSegmentReassembler.assemblies.lookup clientId = some assembly := by
  unfold invalidateAssembly at h
  split at h
  next => exact lookup_of_removeAssembly h
  next => exact h

theorem completed_invalidateAssembly : (s.invalidateAssembly envelope).lastCompletedClientChunkSeqIdByStream =
      s.lastCompletedClientChunkSeqIdByStream := by
  unfold invalidateAssembly
  split <;> rfl

theorem lookup_of_observeClientMessage {clientId : ClientId}
    (h : (s.observeClientMessage codec place now envelope wireSizeBytes).2.clientSegmentReassembler.assemblies.lookup
      clientId = some assembly) : s.clientSegmentReassembler.assemblies.lookup clientId = some assembly ∨
      clientId = envelope.clientId ∧ envelope.streamId = some assembly.streamId ∧
        envelope.seqId = some assembly.metadata.seqId ∧ assembly.lastChunkSeenAt = now := by
  rcases observeClientMessage_cases codec place now envelope wireSizeBytes s with ⟨hs, -⟩ | ⟨hs, -⟩ | ⟨hs, -⟩
  · rw [hs] at h; exact .inl h
  · rw [hs] at h; exact .inl (lookup_of_invalidateAssembly h)
  · rw [hs, observeSegment_reassembler] at h
    rcases observe_cases codec place now envelope s.clientSegmentReassembler with hsame |
        ⟨streamId, seqId, segmentId, count, size, text, ht, hq, he, hck⟩
    · rw [hsame] at h; exact .inl h
    · rw [hck] at h
      rcases lookup_of_observeChunk h with hold | ⟨hc, hstr, hmeta, hnow⟩
      · exact .inl hold
      · refine .inr ⟨hc, ?_, ?_, hnow⟩
        · rw [ht, hstr]; rfl
        · rw [hq, hmeta]; rfl

theorem completed_of_observeClientMessage
    (h : (s.observeClientMessage codec place now envelope wireSizeBytes).2.lastCompletedClientChunkSeqIdByStream.lookup
      key = some seqId) : s.lastCompletedClientChunkSeqIdByStream.lookup key = some seqId ∨
      clientMessageKey envelope = some (key, seqId) := by
  rcases observeClientMessage_cases codec place now envelope wireSizeBytes s with ⟨hs, -⟩ | ⟨hs, -⟩ | ⟨hs, -⟩
  · rw [hs] at h; exact .inl h
  · rw [hs, completed_invalidateAssembly] at h; exact .inl h
  · rw [hs] at h; exact completed_of_observeSegment h

end

/-! ## One step of a run -/

section

variable {s s' : ObservedState}

variable {wireSizeBytes now seqId : Nat} {place : ClientId → Nat} {envelope : ClientEnvelope} {a : ClientMessageStep}
    {key : ClientMessageKey} {streamId : StreamId} {clientId : ClientId}

theorem move_observe : ClientMessageMove codec s (.observe now place envelope wireSizeBytes) s' ↔ s.clock ≤ now ∧ s' = {
          state := (s.state.observeClientMessage codec place now envelope wireSizeBytes).2
          clock := now
          log := s.log ++ [(envelope, (s.state.observeClientMessage codec place now envelope wireSizeBytes).1)] } := by
  unfold ClientMessageMove ObservedState.advance
  constructor
  · intro h
    dsimp only at h
    split at h
    next hclock => cases h; exact ⟨hclock, rfl⟩
    next => cases h
  · rintro ⟨hclock, rfl⟩
    exact if_pos hclock

/-- The envelope was observed, with these ids. -/
def Seen (s : ObservedState) (clientId : ClientId) (streamId : StreamId) (seqId : Nat) : Prop :=
  ∃ entry ∈ s.log, entry.1.clientId = clientId ∧ entry.1.streamId = some streamId ∧ entry.1.seqId = some seqId

/-- What is under assembly or completed was observed, and no later than the clock shows. -/
structure Sound (s : ObservedState) : Prop where
  assembly : ∀ clientId assembly, s.state.clientSegmentReassembler.assemblies.lookup clientId = some assembly →
    Seen s clientId assembly.streamId assembly.metadata.seqId ∧ assembly.lastChunkSeenAt ≤ s.clock
  completed : ∀ clientId streamId seqId,
    s.state.lastCompletedClientChunkSeqIdByStream.lookup (clientId, some streamId) = some seqId →
      Seen s clientId streamId seqId

theorem sound_move (h : ClientMessageMove codec s a s') (hs : Sound s) : Sound s' := by
  cases a with
  | observe now place envelope wireSizeBytes =>
      rw [move_observe] at h
      obtain ⟨hclock, rfl⟩ := h
      have hseen : ∀ {clientId streamId seqId} {state : ClientMessageState}
          {observation : ClientSegmentObservation}, Seen s clientId streamId seqId →
          Seen ⟨state, now, s.log ++ [(envelope, observation)]⟩ clientId streamId seqId := by
        rintro clientId streamId seqId state observation ⟨entry, hent, hids⟩
        exact ⟨entry, mem_append_left _ hent, hids⟩
      constructor
      · intro clientId assembly ha
        rcases lookup_of_observeClientMessage ha with hold | ⟨hc, ht, hq, hnow⟩
        · obtain ⟨hs₁, hs₂⟩ := hs.assembly clientId assembly hold
          exact ⟨hseen hs₁, hs₂.trans hclock⟩
        · refine ⟨⟨_, mem_append_right _ (mem_singleton_self _), hc.symm, ht, hq⟩, ?_⟩
          rw [hnow]
      · intro clientId streamId seqId hlast
        rcases completed_of_observeClientMessage hlast with hold | hkey
        · exact hseen (hs.completed clientId streamId seqId hold)
        · exact ⟨_, mem_append_right _ (mem_singleton_self _), clientMessageKey_ids hkey⟩
  | invalidateStream clientId streamId =>
      cases h
      constructor
      · intro client assembly ha
        exact hs.assembly client assembly (lookup_of_removeAssembly ha)
      · intro client stream seqId hlast
        exact hs.completed client stream seqId (lookup_of_lookup_erase hlast)
  | invalidateClient clientId =>
      cases h
      constructor
      · intro client assembly ha
        exact hs.assembly client assembly (lookup_of_lookup_erase ha)
      · intro client stream seqId hlast
        have hlast' := hlast
        unfold ObservedState.state ClientMessageState.invalidateClient at hlast'
        rw [lookup_retain] at hlast'
        split at hlast'
        next => exact hs.completed client stream seqId hlast'
        next => cases hlast'

/-! ## Forwarded once -/

def ClientSegmentObservation.isForward : ClientSegmentObservation → Bool
  | .forward _ => true
  | _ => false

def Completes (key : ClientMessageKey) (seqId : Nat) (entry : ClientEnvelope × ClientSegmentObservation) : Bool :=
  clientMessageKey entry.1 = some (key, seqId) && entry.2.isForward

def ClosesStream (clientId : ClientId) (streamId : StreamId) : ClientMessageStep → Prop
  | .observe _ _ _ _ => False
  | .invalidateStream client stream => client = clientId ∧ stream = streamId
  | .invalidateClient client => client = clientId

def CompletedUpTo (s : ObservedState) (key : ClientMessageKey) (seqId : Nat) : Prop :=
  ∃ last, s.state.lastCompletedClientChunkSeqIdByStream.lookup key = some last ∧ seqId ≤ last

theorem completed_of_forward (hkey : clientMessageKey envelope = some (key, seqId))
    (h : (state.observeClientMessage codec place now envelope wireSizeBytes).1.isForward = true) :
    state.isCompleted key seqId = false ∧
      (state.observeClientMessage codec place now envelope wireSizeBytes).2.lastCompletedClientChunkSeqIdByStream.lookup
        key = some seqId := by
  rcases observeClientMessage_cases codec place now envelope wireSizeBytes state with ⟨-, hd⟩ | ⟨-, hd⟩ | ⟨hs, hnot⟩
  · rw [hd] at h; cases h
  · rw [hd] at h; cases h
  · refine ⟨hnot key seqId hkey, ?_⟩
    rw [hs] at h ⊢
    unfold observeSegment at h ⊢
    dsimp only at h ⊢
    rw [hkey] at h ⊢
    cases ho : (state.clientSegmentReassembler.observe codec place now envelope).1 with
    | forward message => exact AList.lookup_insert _
    | pending => rw [ho] at h; cases h
    | dropped => rw [ho] at h; cases h

theorem completed_unless_forward (h : ∀ seqId, clientMessageKey envelope = some (key, seqId) →
      (state.observeClientMessage codec place now envelope wireSizeBytes).1.isForward ≠ true) :
    (state.observeClientMessage codec place now envelope wireSizeBytes).2.lastCompletedClientChunkSeqIdByStream.lookup
      key = state.lastCompletedClientChunkSeqIdByStream.lookup key := by
  rcases observeClientMessage_cases codec place now envelope wireSizeBytes state with ⟨hs, -⟩ | ⟨hs, -⟩ | ⟨hs, -⟩
  · rw [hs]
  · rw [hs, completed_invalidateAssembly]
  · rw [hs] at h ⊢
    unfold observeSegment at h ⊢
    dsimp only at h ⊢
    cases hk : clientMessageKey envelope with
    | none =>
        cases (state.clientSegmentReassembler.observe codec place now envelope).1 with
        | forward message => rfl
        | pending => rfl
        | dropped => rfl
    | some keyed =>
        obtain ⟨key', seqId⟩ := keyed
        rw [hk] at h
        cases ho : (state.clientSegmentReassembler.observe codec place now envelope).1 with
        | pending => rfl
        | dropped => rfl
        | forward message =>
            rw [ho] at h
            apply AList.lookup_insert_ne
            rintro rfl
            exact h seqId rfl rfl

theorem isCompleted_of_completedUpTo (h : CompletedUpTo s key seqId) : s.state.isCompleted key seqId = true := by
  obtain ⟨last, hlast, hle⟩ := h
  unfold isCompleted
  rw [hlast]
  simpa using hle

theorem completedUpTo_move (h : ClientMessageMove codec s a s') (ha : ¬ ClosesStream clientId streamId a)
    (hc : CompletedUpTo s (clientId, some streamId) seqId) : CompletedUpTo s' (clientId, some streamId) seqId ∧
      ∃ new, s'.log = s.log ++ new ∧ new.countP (Completes (clientId, some streamId) seqId) = 0 := by
  have hdone := isCompleted_of_completedUpTo hc
  cases a with
  | observe now place envelope wireSizeBytes =>
      rw [move_observe] at h
      obtain ⟨-, rfl⟩ := h
      constructor
      · obtain ⟨last, hlast, hle⟩ := hc
        by_cases hkey : ∃ seqId', clientMessageKey envelope = some ((clientId, some streamId), seqId') ∧
            (s.state.observeClientMessage codec place now envelope wireSizeBytes).1.isForward = true
        · obtain ⟨seqId', hkey, hf⟩ := hkey
          obtain ⟨hnot, haft⟩ := completed_of_forward hkey hf
          refine ⟨seqId', haft, ?_⟩
          unfold isCompleted at hnot
          rw [hlast] at hnot
          simp only [Option.any_some, decide_eq_false_iff_not, Nat.not_le] at hnot
          omega
        · refine ⟨last, ?_, hle⟩
          rw [completed_unless_forward fun seqId' hk hf => hkey ⟨seqId', hk, hf⟩]
          exact hlast
      · refine ⟨_, rfl, ?_⟩
        rw [countP_eq_zero]
        intro entry hent
        rw [mem_singleton] at hent
        subst hent
        simp only [Completes, Bool.and_eq_true, decide_eq_true_eq, not_and]
        intro hkey hf
        rw [(completed_of_forward hkey hf).1] at hdone
        cases hdone
  | invalidateStream client stream =>
      cases h
      refine ⟨?_, [], (append_nil _).symm, rfl⟩
      obtain ⟨last, hlast, hle⟩ := hc
      refine ⟨last, ?_, hle⟩
      have hne : (clientId, some streamId) ≠ (client, some stream) := by
        intro heq
        simp only [Prod.mk.injEq, Option.some.injEq] at heq
        exact ha ⟨heq.1.symm, heq.2.symm⟩
      exact (AList.lookup_erase_ne hne).trans hlast
  | invalidateClient client =>
      cases h
      refine ⟨?_, [], (append_nil _).symm, rfl⟩
      obtain ⟨last, hlast, hle⟩ := hc
      refine ⟨last, ?_, hle⟩
      have hne : clientId ≠ client := fun heq => ha heq.symm
      refine (lookup_retain _ _ _).trans ?_
      rw [if_pos (by simpa using hne)]
      exact hlast

theorem completedUpTo_run (h : Run (ClientMessageMove codec) s steps s')
    (hopen : ∀ step ∈ steps, ¬ ClosesStream clientId streamId step)
    (hc : CompletedUpTo s (clientId, some streamId) seqId) :
    ∃ new, s'.log = s.log ++ new ∧ new.countP (Completes (clientId, some streamId) seqId) = 0 := by
  induction h with
  | nil s => exact ⟨[], (append_nil _).symm, rfl⟩
  | cons hmove _ ih =>
      obtain ⟨hc', new, hlog, hnew⟩ := completedUpTo_move hmove (hopen _ mem_cons_self) hc
      obtain ⟨new', hlog', hnew'⟩ := ih (fun step hstep => hopen step (mem_cons_of_mem _ hstep)) hc'
      refine ⟨new ++ new', ?_, ?_⟩
      · rw [hlog', hlog, append_assoc]
      · rw [countP_append, hnew, hnew']

theorem completes_once_move (h : ClientMessageMove codec s a s') : ∃ new, s'.log = s.log ++ new ∧
      (new.countP (Completes (clientId, some streamId) seqId) = 0 ∨
        new.countP (Completes (clientId, some streamId) seqId) = 1 ∧
          CompletedUpTo s' (clientId, some streamId) seqId) := by
  cases a with
  | observe now place envelope wireSizeBytes =>
      rw [move_observe] at h
      obtain ⟨-, rfl⟩ := h
      refine ⟨_, rfl, ?_⟩
      rw [countP_singleton]
      split
      next hcompletes =>
        simp only [Completes, Bool.and_eq_true, decide_eq_true_eq] at hcompletes
        exact .inr ⟨rfl, seqId, (completed_of_forward hcompletes.1 hcompletes.2).2, le_refl _⟩
      next => exact .inl rfl
  | invalidateStream | invalidateClient =>
      cases h
      exact ⟨[], (append_nil _).symm, .inl rfl⟩

theorem completes_once_run (h : Run (ClientMessageMove codec) s steps s')
    (hopen : ∀ step ∈ steps, ¬ ClosesStream clientId streamId step) :
    ∃ new, s'.log = s.log ++ new ∧ new.countP (Completes (clientId, some streamId) seqId) ≤ 1 := by
  induction h with
  | nil s => exact ⟨[], (append_nil _).symm, Nat.zero_le _⟩
  | cons hmove hrun ih =>
      have hopen' := fun step hstep => hopen step (mem_cons_of_mem _ hstep)
      obtain ⟨new, hlog, hnone | ⟨hone, hdone⟩⟩ := completes_once_move hmove
      · obtain ⟨new', hlog', hnew'⟩ := ih hopen'
        refine ⟨new ++ new', ?_, ?_⟩
        · rw [hlog', hlog, append_assoc]
        · rw [countP_append, hnone, Nat.zero_add]
          exact hnew'
      · obtain ⟨new', hlog', hnew'⟩ := completedUpTo_run hrun hopen' hdone
        refine ⟨new ++ new', ?_, ?_⟩
        · rw [hlog', hlog, append_assoc]
        · rw [countP_append, hone, hnew']

end

end CodexStudy.RemoteControl
