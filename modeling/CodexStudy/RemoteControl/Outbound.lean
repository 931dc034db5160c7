import CodexStudy.RemoteControl.Segment
import CodexStudy.Lib.Transition

/-!
# The envelopes for the clients (`remote_control/websocket.rs`)

An envelope is kept until it is acknowledged.
-/

namespace CodexStudy.RemoteControl

open CodexStudy.Lib

/-! ## Server messages in segments (`remote_control/segment.rs`) -/

section

def REMOTE_CONTROL_SEGMENT_TARGET_BYTES : Nat := 100 * 1024

/-- How envelopes and messages become JSON, where they do, and how bytes become base64. -/
structure ServerCodec (μ : Type) where
  serialize : ServerEnvelope μ → Option (List UInt8)
  toVec : μ → Option (List UInt8)
  encode : List UInt8 → Text

variable {μ : Type} (codec : ServerCodec μ) (envelope : ServerEnvelope μ)

def serializedLen : Option Nat := (codec.serialize envelope).map (·.length)

def buildChunkEnvelope (segmentId segmentCount messageSizeBytes : Nat) (chunk : List UInt8) :
    Option (ServerEnvelope μ) :=
  if REMOTE_CONTROL_SEGMENT_COUNT_MAX < segmentCount then none
  else
    some { envelope with
      event := .serverMessageChunk segmentId segmentCount messageSizeBytes (codec.encode chunk) }

def serializedChunkLen (segmentId segmentCount messageSizeBytes : Nat) (chunk : List UInt8) : Option Nat :=
  (buildChunkEnvelope codec envelope segmentId segmentCount messageSizeBytes chunk).bind (serializedLen codec)

def divCeil (a b : Nat) : Nat := (a + b - 1) / b

def chunkSizeFor (messageSizeBytes segmentCount : Nat) : Nat := max 1 (divCeil messageSizeBytes segmentCount)

def nextSegmentCount (messageSizeBytes chunkSize segmentCount : Nat) : Nat :=
  if chunkSizeFor messageSizeBytes (segmentCount + 1) = chunkSize then messageSizeBytes else segmentCount + 1

theorem chunkSizeFor_self (size : Nat) : chunkSizeFor size size = 1 := by
  unfold chunkSizeFor divCeil
  have hle : (size + size - 1) / size ≤ 1 := by
    rcases Nat.eq_zero_or_pos size with rfl | hpos
    · simp
    · rw [← Nat.lt_succ_iff, Nat.div_lt_iff_lt_mul hpos]
      omega
  omega

theorem chunkSizeFor_next_lt {size count : Nat} (h : chunkSizeFor size count ≠ 1) :
    chunkSizeFor size (nextSegmentCount size (chunkSizeFor size count)
      (divCeil size (chunkSizeFor size count))) < chunkSizeFor size count := by
  have hpos : 1 ≤ chunkSizeFor size count := Nat.le_max_left _ _
  unfold nextSegmentCount
  split
  next => rw [chunkSizeFor_self]; omega
  next hne =>
    refine Nat.lt_of_le_of_ne ?_ hne
    generalize chunkSizeFor size count = chunkSize at hpos
    -- The segments of the round before hold the message, and so does one segment more.
    have hhold : size ≤ chunkSize * divCeil size chunkSize := by
      unfold divCeil
      have hmod := Nat.div_add_mod (size + chunkSize - 1) chunkSize
      have hlt := Nat.mod_lt (size + chunkSize - 1) hpos
      omega
    unfold chunkSizeFor
    refine Nat.max_le.mpr ⟨hpos, ?_⟩
    unfold divCeil at hhold ⊢
    generalize (size + chunkSize - 1) / chunkSize = count' at hhold
    rw [← Nat.lt_succ_iff, Nat.div_lt_iff_lt_mul (Nat.succ_pos _)]
    have hexpand : chunkSize.succ * count'.succ = chunkSize * count' + chunkSize + count' + 1 := by
      rw [Nat.succ_mul, Nat.mul_succ]
      omega
    omega

def splitLoop (raw : List UInt8) (segmentCount : Nat) : Option (List (ServerEnvelope μ)) :=
  let chunkSize := chunkSizeFor raw.length segmentCount
  let segmentCount' := divCeil raw.length chunkSize
  let chunks := (raw.toChunks chunkSize).zipIdx
  if chunks.all fun entry =>
      (serializedChunkLen codec envelope entry.2 segmentCount' raw.length entry.1).any
        (· ≤ REMOTE_CONTROL_SEGMENT_MAX_BYTES) then
    chunks.mapM fun entry => buildChunkEnvelope codec envelope entry.2 segmentCount' raw.length entry.1
  else if chunkSize = 1 then some []
  else splitLoop raw (nextSegmentCount raw.length chunkSize segmentCount')
termination_by chunkSizeFor raw.length segmentCount
decreasing_by exact chunkSizeFor_next_lt ‹_›

/-- What is too large altogether is dropped. -/
def splitServerEnvelopeForTransport : Option (List (ServerEnvelope μ)) :=
  match envelope.event with
  | .serverMessage message => do
      let envelopeSizeBytes ← serializedLen codec envelope
      if envelopeSizeBytes ≤ REMOTE_CONTROL_SEGMENT_MAX_BYTES then some [envelope]
      else
        let raw ← codec.toVec message
        if REMOTE_CONTROL_REASSEMBLED_MAX_BYTES < raw.length then some []
        else
          let minimalSegmentCount := min (max raw.length 1) REMOTE_CONTROL_SEGMENT_COUNT_MAX
          let minimalLen ← serializedChunkLen codec envelope 0 minimalSegmentCount raw.length (raw.take 1)
          if REMOTE_CONTROL_SEGMENT_MAX_BYTES < minimalLen then some []
          else splitLoop codec envelope raw (max 2 (divCeil raw.length REMOTE_CONTROL_SEGMENT_TARGET_BYTES))
  | _ => some [envelope]

end

def CHANNEL_CAPACITY : Nat := 128

/-- The largest `u64`, which is also the largest `usize`. -/
def U64_MAX : Nat := 2 ^ 64 - 1

/-- `saturating_add(1)` for 64 bits. -/
def nextSeqId (seqId : Nat) : Nat := min (seqId + 1) U64_MAX

abbrev StreamKey := ClientId × StreamId

variable {μ : Type}

/-! ## Cursors -/

/-- A place in a stream: the seq id, and the segment in it. -/
abbrev Cursor := Nat × Nat

def Cursor.le (a b : Cursor) : Bool := a.1 < b.1 || (a.1 == b.1 && a.2 ≤ b.2)

def Cursor.lt (a b : Cursor) : Bool := a.1 < b.1 || (a.1 == b.1 && a.2 < b.2)

namespace ServerEnvelope

def cursor (envelope : ServerEnvelope μ) : Cursor := (envelope.seqId, envelope.event.segmentId.getD 0)

def streamKey (envelope : ServerEnvelope μ) : StreamKey := (envelope.clientId, envelope.streamId)

end ServerEnvelope

def ackedCursor (ackedSeqId : Nat) (ackedSegmentId : Option Nat) : Cursor :=
  (ackedSeqId, ackedSegmentId.getD U64_MAX)

/-! ## The buffer -/

structure BoundedOutboundBuffer (μ : Type) where
  bufferByStream : HashMap StreamKey (List (ServerEnvelope μ)) := ∅
  used : Nat := 0

/-- What is kept of a queue, with the counter after each removal. No result where it would fall below zero. -/
def retainUnacked (acked : Cursor) : List (ServerEnvelope μ) → Nat → Option (List (ServerEnvelope μ) × Nat)
  | [], used => some ([], used)
  | envelope :: queue, used =>
      if envelope.cursor.le acked then
        match used with
        | 0 => none
        | used + 1 => retainUnacked acked queue used
      else (retainUnacked acked queue used).map fun retained => (envelope :: retained.1, retained.2)

namespace BoundedOutboundBuffer

variable (b : BoundedOutboundBuffer μ)

def queue (key : StreamKey) : List (ServerEnvelope μ) := (b.bufferByStream.lookup key).getD []

def insert (envelope : ServerEnvelope μ) : BoundedOutboundBuffer μ where
  bufferByStream := b.bufferByStream.insert envelope.streamKey (b.queue envelope.streamKey ++ [envelope])
  used := b.used + 1

def ack (clientId : ClientId) (streamId : StreamId) (ackedSeqId : Nat) (ackedSegmentId : Option Nat) :
    Option (BoundedOutboundBuffer μ) :=
  match b.bufferByStream.lookup (clientId, streamId) with
  | none => some b
  | some queue =>
      (retainUnacked (ackedCursor ackedSeqId ackedSegmentId) queue b.used).map fun (retained, used) =>
        if retained.isEmpty then ⟨b.bufferByStream.erase (clientId, streamId), used⟩
        else ⟨b.bufferByStream.insert (clientId, streamId) retained, used⟩

def serverEnvelopes (order : List StreamKey) : List (ServerEnvelope μ) := order.flatMap b.queue

end BoundedOutboundBuffer

/-! ## The writer -/

structure QueuedServerEnvelope (μ : Type) where
  event : ServerEvent μ
  clientId : ClientId
  streamId : StreamId

/-- The part of the state of the websocket that concerns envelopes to clients. -/
structure OutboundState (μ : Type) where
  outboundBuffer : BoundedOutboundBuffer μ := {}
  nextSeqIdByStream : HashMap StreamKey Nat := ∅

def OutboundState.seqIdFor (s : OutboundState μ) (key : StreamKey) : Nat := (s.nextSeqIdByStream.lookup key).getD 1

def OutboundState.insertAll (s : OutboundState μ) (payloads : List (ServerEnvelope μ)) : OutboundState μ :=
  { s with outboundBuffer := payloads.foldl (·.insert ·) s.outboundBuffer }

variable (codec : ServerCodec μ)

/-- A queued message becomes envelopes, which are put into the buffer before they are written. -/
def OutboundState.enqueue (queued : QueuedServerEnvelope μ) (s : OutboundState μ) :
    OutboundState μ × List (ServerEnvelope μ) :=
  let key := (queued.clientId, queued.streamId)
  let seqId := s.seqIdFor key
  let s := { s with nextSeqIdByStream := s.nextSeqIdByStream.insert key seqId }
  match splitServerEnvelopeForTransport codec
      { event := queued.event, clientId := queued.clientId, streamId := queued.streamId, seqId } with
  | none => (s, [])
  | some serverEnvelopes =>
      let payloads := serverEnvelopes.filter fun envelope => (codec.serialize envelope).isSome
      ({ s.insertAll payloads with nextSeqIdByStream := s.nextSeqIdByStream.insert key (nextSeqId seqId) }, payloads)

inductive WriterPhase (μ : Type) where
  | disconnected
  | connected
  | replaying (serverEnvelopes : List (ServerEnvelope μ))
  | waiting
  | received (queued : QueuedServerEnvelope μ)
  | sending (payloads : List (ServerEnvelope μ))

/-- The state with the writer of the last connection: `begun` was in the buffer when it began, `replayed` the writer
found in it, and `written` it has sent. -/
structure OutboundSystem (μ : Type) where
  state : OutboundState μ := {}
  phase : WriterPhase μ := .disconnected
  begun : BoundedOutboundBuffer μ := {}
  replayed : BoundedOutboundBuffer μ := {}
  written : List (ServerEnvelope μ) := []

/-- Nothing is in the buffer, and there has been no connection. -/
def OutboundSystem.new : OutboundSystem μ := {}

inductive OutboundStep (μ : Type) where
  | connect
  | readBuffer (order : List StreamKey)
  | send
  | receive (queued : QueuedServerEnvelope μ)
  | enqueue
  | ack (clientId : ClientId) (streamId : StreamId) (ackedSeqId : Nat) (ackedSegmentId : Option Nat)
  | disconnect

/-- The next envelope is sent, or the writer waits for a new one. One that cannot be written is left out. -/
def OutboundSystem.sendNext (s : OutboundSystem μ)
    (phase : List (ServerEnvelope μ) → WriterPhase μ) : List (ServerEnvelope μ) → OutboundSystem μ
  | [] => { s with phase := .waiting }
  | envelope :: envelopes =>
      if (codec.serialize envelope).isSome then
        { s with phase := phase envelopes, written := s.written ++ [envelope] }
      else { s with phase := phase envelopes }

def OutboundSystem.advance (s : OutboundSystem μ) :
    OutboundStep μ → Option (OutboundSystem μ)
  | .connect =>
      match s.phase with
      | .disconnected =>
          some { s with phase := .connected, begun := s.state.outboundBuffer, replayed := {}, written := [] }
      | _ => none
  | .readBuffer order =>
      match s.phase with
      | .connected =>
          if order.Perm s.state.outboundBuffer.bufferByStream.keys then
            some { s with
              phase := .replaying (s.state.outboundBuffer.serverEnvelopes order)
              replayed := s.state.outboundBuffer }
          else none
      | _ => none
  | .send =>
      match s.phase with
      | .replaying serverEnvelopes => some (s.sendNext codec .replaying serverEnvelopes)
      | .sending payloads => some (s.sendNext codec .sending payloads)
      | _ => none
  | .receive queued =>
      match s.phase with
      | .waiting =>
          if s.state.outboundBuffer.used < CHANNEL_CAPACITY then some { s with phase := .received queued } else none
      | _ => none
  | .enqueue =>
      match s.phase with
      | .received queued =>
          let (state, payloads) := s.state.enqueue codec queued
          some { s with state, phase := .sending payloads }
      | _ => none
  | .ack clientId streamId ackedSeqId ackedSegmentId =>
      (s.state.outboundBuffer.ack clientId streamId ackedSeqId ackedSegmentId).map fun outboundBuffer =>
        { s with state := { s.state with outboundBuffer } }
  | .disconnect => some { s with phase := .disconnected }

def OutboundMove (s : OutboundSystem μ) (a : OutboundStep μ) (s' : OutboundSystem μ) : Prop :=
  s.advance codec a = some s'

end CodexStudy.RemoteControl
