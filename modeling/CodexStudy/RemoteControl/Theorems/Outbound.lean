import CodexStudy.RemoteControl.Lemmas.Outbound

/-!
# No envelope is lost before it is acknowledged

What is written on a connection starts with what the writer finds in the buffer.
-/

namespace CodexStudy.RemoteControl

open CodexStudy.Lib List OutboundSystem

variable {μ : Type} {codec : ServerCodec μ} {s s' : OutboundSystem μ}

/-! ## What leaves the buffer -/

def Acknowledges (a : OutboundStep μ) (envelope : ServerEnvelope μ) : Bool :=
  match a with
  | .ack clientId streamId ackedSeqId ackedSegmentId =>
      envelope.streamKey = (clientId, streamId) && envelope.cursor.le (ackedCursor ackedSeqId ackedSegmentId)
  | _ => false

/-- Every queue keeps, in order, what the step does not acknowledge. -/
def KeepsUnacknowledged (codec : ServerCodec μ) (s : OutboundSystem μ) : Prop :=
  ∀ a s', OutboundMove codec s a s' → ∀ key, ∃ new,
    s'.state.outboundBuffer.queue key =
      ((s.state.outboundBuffer.queue key).filter fun e => !Acknowledges a e) ++ new

variable {a : OutboundStep μ} {tooLarge : Bool} {envelopes : List (ServerEnvelope Bool)}

theorem keeps_of_append {queue new : List (ServerEnvelope μ)}
    (ha : ∀ e, Acknowledges a e = false) : queue ++ new = (queue.filter fun e => !Acknowledges a e) ++ new := by
  congr 1
  refine (filter_eq_self.mpr fun e _ => ?_).symm
  rw [ha]
  rfl

theorem sendNext_state (phase : List (ServerEnvelope μ) → WriterPhase μ) (envelopes : List (ServerEnvelope μ)) :
    (s.sendNext codec phase envelopes).state = s.state := by
  unfold sendNext
  cases envelopes with
  | nil => rfl
  | cons envelope rest =>
      dsimp only
      split <;> rfl

theorem state_of_move (h : OutboundMove codec s a s') (henqueue : a ≠ .enqueue)
    (hack : ∀ clientId streamId ackedSeqId ackedSegmentId, a ≠ .ack clientId streamId ackedSeqId ackedSegmentId) :
    s'.state = s.state := by
  unfold OutboundMove advance at h
  cases a with
  | connect | disconnect | readBuffer | receive =>
      dsimp only at h
      repeat' split at h
      all_goals cases h
      all_goals rfl
  | send =>
      dsimp only at h
      repeat' split at h
      all_goals cases h
      all_goals exact sendNext_state _ _
  | enqueue => exact absurd rfl henqueue
  | ack clientId streamId ackedSeqId ackedSegmentId => exact absurd rfl (hack _ _ _ _)

theorem keepsUnacknowledged (h : OutboundSound codec s) : KeepsUnacknowledged codec s := by
  intro a s' hmove key
  have hsame : s'.state = s.state → (∀ e, Acknowledges a e = false) → ∃ new,
      s'.state.outboundBuffer.queue key =
        ((s.state.outboundBuffer.queue key).filter fun e => !Acknowledges a e) ++ new := by
    intro hstt ha
    refine ⟨[], ?_⟩
    rw [hstt, ← keeps_of_append ha, append_nil]
  cases a with
  | connect | disconnect | readBuffer | receive | send =>
      exact hsame (state_of_move hmove (by intro h; cases h) fun _ _ _ _ h => by cases h) fun _ => rfl
  | enqueue =>
      unfold OutboundMove advance at hmove
      dsimp only at hmove
      split at hmove
      next queued _ =>
        have hq := (enqueues codec queued s.state).queue key
        cases hmove
        rw [keeps_of_append (fun _ => rfl : ∀ e, Acknowledges (μ := μ) .enqueue e = false)] at hq
        exact ⟨_, hq⟩
      next => cases hmove
  | ack clientId streamId ackedSeqId ackedSegmentId =>
      obtain ⟨b, hack, -, hq⟩ := ack_eq h.counted clientId streamId ackedSeqId ackedSegmentId
      unfold OutboundMove advance at hmove
      dsimp only at hmove
      rw [hack, Option.map_some] at hmove
      cases hmove
      refine ⟨[], ?_⟩
      rw [append_nil]
      refine (hq key).trans ?_
      have hown : ∀ e ∈ s.state.outboundBuffer.queue key,
          Acknowledges (.ack clientId streamId ackedSeqId ackedSegmentId) e =
            (decide (key = (clientId, streamId)) && e.cursor.le (ackedCursor ackedSeqId ackedSegmentId)) := by
        intro e he
        unfold Acknowledges
        dsimp only
        rw [h.own key e he]
      split
      next hk =>
        refine filter_congr fun e he => ?_
        rw [hown e he, decide_eq_true hk, Bool.true_and]
      next hk =>
        refine (filter_eq_self.mpr fun e he => ?_).symm
        rw [hown e he, decide_eq_false hk, Bool.false_and]
        rfl

/-! ## What is written -/

/-- What is written of the stream on the connection starts with the buffer, or is still a part of it. -/
def StartsWith (b : BoundedOutboundBuffer μ) (s : OutboundSystem μ) (key : StreamKey) : Prop :=
  ofStream key s.written <+: b.queue key ∨ b.queue key <+: ofStream key s.written

structure KeptUntilAcknowledged (codec : ServerCodec μ) (s : OutboundSystem μ) : Prop where
  keeps : KeepsUnacknowledged codec s
  replays : ∀ key, StartsWith s.replayed s key
  increasing : ∀ key, s.state.seqIdFor key < U64_MAX → Increasing (ofStream key s.written)
  counted : s.state.outboundBuffer.used = s.state.outboundBuffer.count
  neverBelowZero : ∀ clientId streamId ackedSeqId ackedSegmentId,
    (s.state.outboundBuffer.ack clientId streamId ackedSeqId ackedSegmentId).isSome = true

/-- In every state of every run an envelope leaves its queue only through an acknowledgement of its client and stream
that is not before it. On every connection what is written of a stream starts with what the writer found of it in the
buffer, with increasing cursors as long as the seq ids of the stream are not used up. The counter is the number of the
envelopes in the buffer. -/
theorem keptUntilAcknowledged (codec : ServerCodec μ) (steps : List (OutboundStep μ)) :
    StatesMeet (OutboundMove codec) (KeptUntilAcknowledged codec) .new steps := by
  intro past s _ hrun
  have h : OutboundSound codec s := hrun.invariant outboundSound_new fun _ _ _ hs hmove => sound_outboundMove hs hmove
  constructor
  · exact keepsUnacknowledged h
  · exact fun key => (h.replays key).agrees
  · exact fun key hlt => ((h.lineOrdered key hlt).sublist (written_sublist key)).increasing
  · exact h.counted
  · intro clientId streamId ackedSeqId ackedSegmentId
    obtain ⟨b, hack, -⟩ := ack_eq h.counted clientId streamId ackedSeqId ackedSegmentId
    rw [hack]
    rfl

/-! ## Two runs -/

/-- A message of `true` takes more bytes than can be sent at all. -/
def sizeCodec (big : List UInt8) : ServerCodec Bool where
  serialize envelope :=
    match envelope.event with
    | .serverMessage true => some big
    | _ => some []
  toVec tooLarge := some (if tooLarge then big else [])
  encode _ := []

def exampleKey : StreamKey := ("client-1", "stream-1")

def queuedMessage (tooLarge : Bool) : QueuedServerEnvelope Bool where
  event := .serverMessage tooLarge
  clientId := exampleKey.1
  streamId := exampleKey.2

def sentMessage (tooLarge : Bool) (seqId : Nat) : ServerEnvelope Bool where
  event := .serverMessage tooLarge
  clientId := exampleKey.1
  streamId := exampleKey.2
  seqId := seqId

/-- A message is written, the connection breaks, and on the next one its acknowledgement comes before the buffer is
looked at. -/
def ackBeforeReplay : List (OutboundStep Bool) :=
  [.connect, .readBuffer [], .send, .receive (queuedMessage false), .enqueue, .send, .disconnect,
    .connect, .ack exampleKey.1 exampleKey.2 1 none, .readBuffer [], .send,
    .receive (queuedMessage false), .enqueue, .send]

structure WaitsAt (seqId used : Nat) (written : List (ServerEnvelope Bool)) (s : OutboundSystem Bool) : Prop where
  phase : s.phase = .waiting
  seqId : s.state.seqIdFor exampleKey = seqId
  used : s.state.outboundBuffer.used = used
  written : s.written = written

section

variable {big : List UInt8} {seqId used : Nat} {written : List (ServerEnvelope Bool)} {s : OutboundSystem Bool}

theorem split_tooLarge (seqId : Nat) (hbig : REMOTE_CONTROL_REASSEMBLED_MAX_BYTES < big.length) :
    splitServerEnvelopeForTransport (sizeCodec big) (sentMessage true seqId) = some [] := by
  have hlen : serializedLen (sizeCodec big) (sentMessage true seqId) = some big.length := rfl
  have hraw : (sizeCodec big).toVec true = some big := rfl
  have hlt : ¬big.length ≤ REMOTE_CONTROL_SEGMENT_MAX_BYTES := by
    unfold REMOTE_CONTROL_REASSEMBLED_MAX_BYTES at hbig
    unfold REMOTE_CONTROL_SEGMENT_MAX_BYTES
    omega
  have hevent : (sentMessage true seqId).event = .serverMessage true := rfl
  unfold splitServerEnvelopeForTransport
  rw [hevent]
  dsimp only
  rw [hlen, hraw]
  dsimp only [Option.bind_eq_bind, Option.bind_some]
  rw [if_neg hlt, if_pos hbig]

theorem enqueue_eq (state : OutboundState Bool)
    (hspl : splitServerEnvelopeForTransport (sizeCodec big) (sentMessage tooLarge (state.seqIdFor exampleKey)) =
      some envelopes) (hall : envelopes.filter (fun e => ((sizeCodec big).serialize e).isSome) = envelopes) :
    state.enqueue (sizeCodec big) (queuedMessage tooLarge) = (⟨envelopes.foldl (·.insert ·) state.outboundBuffer,
        (state.nextSeqIdByStream.insert exampleKey (state.seqIdFor exampleKey)).insert exampleKey
          (nextSeqId (state.seqIdFor exampleKey))⟩, envelopes) := by
  unfold OutboundState.enqueue
  dsimp only
  have hspl' : splitServerEnvelopeForTransport (sizeCodec big)
      { event := (queuedMessage tooLarge).event, clientId := (queuedMessage tooLarge).clientId,
        streamId := (queuedMessage tooLarge).streamId,
        seqId := state.seqIdFor ((queuedMessage tooLarge).clientId, (queuedMessage tooLarge).streamId) } =
      some envelopes := hspl
  rw [hspl']
  dsimp only
  rw [hall]
  rfl

theorem WaitsAt.run (h : WaitsAt seqId used written s) (hused : used < CHANNEL_CAPACITY)
    (hspl : splitServerEnvelopeForTransport (sizeCodec big) (sentMessage tooLarge seqId) = some envelopes)
    (hall : envelopes.filter (fun e => ((sizeCodec big).serialize e).isSome) = envelopes) :
    ∃ s', Run (OutboundMove (sizeCodec big)) s [.receive (queuedMessage tooLarge), .enqueue] s' ∧
      s'.phase = .sending envelopes ∧ s'.state.seqIdFor exampleKey = nextSeqId seqId ∧
      s'.state.outboundBuffer = envelopes.foldl (·.insert ·) s.state.outboundBuffer ∧ s'.written = written := by
  obtain ⟨hph, rfl, rfl, rfl⟩ := h
  have hreceive : OutboundMove (sizeCodec big) s (.receive (queuedMessage tooLarge))
      { s with phase := .received (queuedMessage tooLarge) } := by
    unfold OutboundMove advance
    dsimp only
    rw [hph]
    exact if_pos hused
  have henqueue : OutboundMove (sizeCodec big) { s with phase := .received (queuedMessage tooLarge) } .enqueue
      { s with
        state := (s.state.enqueue (sizeCodec big) (queuedMessage tooLarge)).1
        phase := .sending (s.state.enqueue (sizeCodec big) (queuedMessage tooLarge)).2 } := rfl
  refine ⟨_, .cons hreceive (.single henqueue), ?_⟩
  rw [enqueue_eq s.state hspl hall]
  exact ⟨rfl, (OutboundState.seqIdFor_insert ..).trans (if_pos rfl), rfl, rfl⟩

theorem WaitsAt.dropped (h : WaitsAt seqId used written s) (hused : used < CHANNEL_CAPACITY)
    (hbig : REMOTE_CONTROL_REASSEMBLED_MAX_BYTES < big.length) :
    ∃ steps s', Run (OutboundMove (sizeCodec big)) s steps s' ∧ WaitsAt (nextSeqId seqId) used written s' := by
  obtain ⟨s', hrun, hph, hseq, hbuffer, hwr⟩ := h.run hused (split_tooLarge seqId hbig) rfl
  have hsend : OutboundMove (sizeCodec big) s' .send { s' with phase := .waiting } := by
    unfold OutboundMove advance
    dsimp only
    rw [hph]
    rfl
  refine ⟨_, _, hrun.append (.single hsend), ⟨rfl, hseq, ?_, hwr⟩⟩
  rw [hbuffer]
  exact h.used

theorem WaitsAt.sent (big : List UInt8) (h : WaitsAt seqId used written s) (hused : used < CHANNEL_CAPACITY) :
    ∃ steps s', Run (OutboundMove (sizeCodec big)) s steps s' ∧
      WaitsAt (nextSeqId seqId) (used + 1) (written ++ [sentMessage false seqId]) s' := by
  have hspl : splitServerEnvelopeForTransport (sizeCodec big) (sentMessage false seqId) =
      some [sentMessage false seqId] := rfl
  obtain ⟨s', hrun, hph, hseq, hbuffer, hwr⟩ := h.run hused hspl rfl
  have hsend : OutboundMove (sizeCodec big) s' .send
      { s' with phase := .sending [], written := s'.written ++ [sentMessage false seqId] } := by
    unfold OutboundMove advance
    dsimp only
    rw [hph]
    rfl
  have hwait : OutboundMove (sizeCodec big)
      { s' with phase := .sending [], written := s'.written ++ [sentMessage false seqId] } .send
      { s' with phase := .waiting, written := s'.written ++ [sentMessage false seqId] } := rfl
  refine ⟨_, _, hrun.append (.cons hsend (.single hwait)), ⟨rfl, hseq, ?_, ?_⟩⟩
  · rw [hbuffer, ← h.used]
    rfl
  · rw [hwr]

theorem exists_waitsAt (hbig : REMOTE_CONTROL_REASSEMBLED_MAX_BYTES < big.length) (n : Nat) (hn : n < U64_MAX) :
    ∃ steps s', Run (OutboundMove (sizeCodec big)) .new steps s' ∧ WaitsAt (n + 1) 0 [] s' := by
  induction n with
  | zero => exact ⟨[.connect, .readBuffer [], .send], _, .of_foldlM rfl, ⟨rfl, rfl, rfl, rfl⟩⟩
  | succ n ih =>
      obtain ⟨steps, s₁, hrun, h⟩ := ih (by omega)
      obtain ⟨more, s', hmore, h'⟩ := h.dropped (by decide) hbig
      have hnext : nextSeqId (n + 1) = n + 1 + 1 := Nat.min_eq_left (by omega)
      exact ⟨steps ++ more, s', hrun.append hmore, hnext ▸ h'⟩

end

/-- The message that is left out of the second connection was in the buffer when it began; and at the end of the seq ids
two messages have the same cursor. -/
theorem acked_before_replay : (¬∀ (codec : ServerCodec Bool) steps, StatesMeet (OutboundMove codec)
      (fun s => ∀ key, StartsWith s.begun s key) .new steps) ∧
    ¬∀ (codec : ServerCodec Bool) steps, StatesMeet (OutboundMove codec)
      (fun s => ∀ key, Increasing (ofStream key s.written)) .new steps := by
  constructor
  · intro h
    have hrun : ∃ s, ackBeforeReplay.foldlM (·.advance (sizeCodec [])) new = some s ∧
        s.begun.queue exampleKey = [sentMessage false 1] ∧
        ofStream exampleKey s.written = [sentMessage false 2] := ⟨_, rfl, rfl, rfl⟩
    obtain ⟨s, hrun, hbegun, hwr⟩ := hrun
    have hsts : StartsWith s.begun s exampleKey :=
      h (sizeCodec []) ackBeforeReplay ackBeforeReplay s prefix_rfl (.of_foldlM hrun) exampleKey
    unfold StartsWith at hsts
    rw [hbegun, hwr] at hsts
    rcases hsts with hsts | hsts
    · exact absurd (congrArg ServerEnvelope.seqId (cons_prefix_cons.mp hsts).1) (by decide)
    · exact absurd (congrArg ServerEnvelope.seqId (cons_prefix_cons.mp hsts).1) (by decide)
  · intro h
    obtain ⟨big, hbig⟩ : ∃ big : List UInt8, REMOTE_CONTROL_REASSEMBLED_MAX_BYTES < big.length :=
      ⟨replicate (REMOTE_CONTROL_REASSEMBLED_MAX_BYTES + 1) 0, by
        rw [length_replicate]
        exact Nat.lt_succ_self _⟩
    obtain ⟨steps, s, hrun, hs⟩ := exists_waitsAt hbig (U64_MAX - 1) (by decide)
    obtain ⟨first, s₁, hfst, hs₁⟩ := hs.sent big (by decide)
    obtain ⟨second, s₂, hsecond, hs₂⟩ := hs₁.sent big (by decide)
    have hincreasing := h (sizeCodec big) (steps ++ first ++ second) _ s₂ prefix_rfl
      ((hrun.append hfst).append hsecond) exampleKey
    rw [hs₂.written] at hincreasing
    have hlt := rel_of_pairwise_cons hincreasing (mem_singleton_self _)
    exact absurd hlt (by decide)

end CodexStudy.RemoteControl
