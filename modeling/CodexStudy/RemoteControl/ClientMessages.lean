import CodexStudy.Lib.Transition
import CodexStudy.RemoteControl.Segment

/-!
# What is forwarded of the messages of the clients (`remote_control/websocket.rs`)

Besides the messages under assembly, it is kept of each stream which message was the last one completed.
-/

namespace CodexStudy.RemoteControl

open CodexStudy.Lib

abbrev ClientMessageKey := ClientId × Option StreamId

structure ClientMessageState where
  lastCompletedClientChunkSeqIdByStream : HashMap ClientMessageKey Nat := ∅
  clientSegmentReassembler : ClientSegmentReassembler := {}

namespace ClientMessageState

variable (s : ClientMessageState) (envelope : ClientEnvelope)

def clientMessageKey : Option (ClientMessageKey × Nat) :=
  match envelope.event, envelope.seqId with
  | .clientMessageChunk _ _ _ _, some seqId => some ((envelope.clientId, envelope.streamId), seqId)
  | _, _ => none

def isCompleted (key : ClientMessageKey) (seqId : Nat) : Bool :=
  (s.lastCompletedClientChunkSeqIdByStream.lookup key).any (seqId ≤ ·)

def shouldIgnore (seqId : Nat) : Bool :=
  match envelope.streamId, envelope.event with
  | some streamId, .clientMessageChunk segmentId _ _ _ =>
      s.clientSegmentReassembler.shouldIgnoreChunk envelope.clientId streamId seqId segmentId
  | _, _ => false

def invalidateAssembly : ClientMessageState :=
  match envelope.streamId with
  | some streamId =>
      { s with
        clientSegmentReassembler := s.clientSegmentReassembler.invalidateStream envelope.clientId streamId }
  | none => s

def observeSegment (codec : Codec) (place : ClientId → Nat) (now : Nat) (envelope : ClientEnvelope)
    (s : ClientMessageState) : ClientSegmentObservation × ClientMessageState :=
  let (observation, clientSegmentReassembler) := s.clientSegmentReassembler.observe codec place now envelope
  let s := { s with clientSegmentReassembler }
  match observation, clientMessageKey envelope with
  | .forward _, some (key, seqId) =>
      (observation,
        { s with
          lastCompletedClientChunkSeqIdByStream := s.lastCompletedClientChunkSeqIdByStream.insert key seqId })
  | _, _ => (observation, s)

def observeClientMessage (codec : Codec) (place : ClientId → Nat) (now : Nat) (envelope : ClientEnvelope)
    (wireSizeBytes : Nat) (s : ClientMessageState) : ClientSegmentObservation × ClientMessageState :=
  match clientMessageKey envelope with
  | some (key, seqId) =>
      if s.isCompleted key seqId then (.dropped, s)
      else if s.shouldIgnore envelope seqId then (.dropped, s)
      else if REMOTE_CONTROL_SEGMENT_MAX_BYTES < wireSizeBytes then (.dropped, s.invalidateAssembly envelope)
      else s.observeSegment codec place now envelope
  | none => s.observeSegment codec place now envelope

def invalidateStream (clientId : ClientId) (streamId : StreamId) (s : ClientMessageState) : ClientMessageState where
  clientSegmentReassembler := s.clientSegmentReassembler.invalidateStream clientId streamId
  lastCompletedClientChunkSeqIdByStream := s.lastCompletedClientChunkSeqIdByStream.erase (clientId, some streamId)

def invalidateClient (clientId : ClientId) (s : ClientMessageState) : ClientMessageState where
  clientSegmentReassembler := s.clientSegmentReassembler.invalidateClient clientId
  lastCompletedClientChunkSeqIdByStream :=
    s.lastCompletedClientChunkSeqIdByStream.retain fun key => key.1 ≠ clientId

end ClientMessageState

/-! ## Runs -/

/-- One envelope from the websocket, or a stream or client closed by the tracker, at the time of the clock; `place` is
the order of the assemblies in their map. -/
inductive ClientMessageStep where
  | observe (now : Nat) (place : ClientId → Nat) (envelope : ClientEnvelope) (wireSizeBytes : Nat)
  | invalidateStream (clientId : ClientId) (streamId : StreamId)
  | invalidateClient (clientId : ClientId)

/-- The state with the last reading of the clock and what was made of each envelope, the oldest first. -/
structure ObservedState where
  state : ClientMessageState := {}
  clock : Nat := 0
  log : List (ClientEnvelope × ClientSegmentObservation) := []

def ObservedState.new : ObservedState := {}

def ObservedState.advance (codec : Codec) (s : ObservedState) : ClientMessageStep → Option ObservedState
  | .observe now place envelope wireSizeBytes =>
      if s.clock ≤ now then
        let (observation, state) := s.state.observeClientMessage codec place now envelope wireSizeBytes
        some { state, clock := now, log := s.log ++ [(envelope, observation)] }
      else none
  | .invalidateStream clientId streamId => some { s with state := s.state.invalidateStream clientId streamId }
  | .invalidateClient clientId => some { s with state := s.state.invalidateClient clientId }

def ClientMessageMove (codec : Codec) (s : ObservedState) (a : ClientMessageStep) (s' : ObservedState) : Prop :=
  s.advance codec a = some s'

/-! ## A message and the ways its chunks can arrive -/

structure MessageChunk (codec : Codec) where
  messageChunkBase64 : Text
  bytes : List UInt8
  cursor : Option Text
  wireSizeBytes : Nat
  nonempty : messageChunkBase64 ≠ []
  decoded : codec.decode messageChunkBase64 = some bytes
  fits : wireSizeBytes ≤ REMOTE_CONTROL_SEGMENT_MAX_BYTES

def bytesOf {codec : Codec} (chunks : List (MessageChunk codec)) : List UInt8 := chunks.flatMap (·.bytes)

/-- A message with its chunks, within the limits. -/
structure SegmentedMessage (codec : Codec) where
  clientId : ClientId
  streamId : StreamId
  seqId : Nat
  message : JSONRPCMessage
  chunks : List (MessageChunk codec)
  chunks_ne : chunks ≠ []
  count_le : chunks.length ≤ REMOTE_CONTROL_SEGMENT_COUNT_MAX
  size_pos : 0 < (bytesOf chunks).length
  size_le : (bytesOf chunks).length ≤ REMOTE_CONTROL_REASSEMBLED_MAX_BYTES
  parsed : codec.fromSlice (bytesOf chunks) = some message

namespace SegmentedMessage

variable {codec : Codec} (m : SegmentedMessage codec)

def metadata : ClientSegmentMetadata where
  seqId := m.seqId
  segmentCount := m.chunks.length
  messageSizeBytes := (bytesOf m.chunks).length

variable (i : Nat) (chunk : MessageChunk codec)

def envelope : ClientEnvelope where
  event := .clientMessageChunk i m.chunks.length (bytesOf m.chunks).length chunk.messageChunkBase64
  clientId := m.clientId
  streamId := some m.streamId
  seqId := some m.seqId
  cursor := chunk.cursor

def delivered : ClientEnvelope :=
  { m.envelope i chunk with event := .clientMessage m.message }

def arrives (now : Nat) (place : ClientId → Nat) : ClientMessageStep :=
  .observe now place (m.envelope i chunk) chunk.wireSizeBytes

end SegmentedMessage

def ClientEnvelope.isChunk (envelope : ClientEnvelope) : Bool :=
  match envelope.event with
  | .clientMessageChunk _ _ _ _ => true
  | _ => false

/-- The chunks from number `i` on arrive in order, up to the first arrival of the last one. In between, earlier chunks
arrive again, `others` send what they like, all send what is no chunk, and other streams and clients are closed. -/
inductive Interleaved {codec : Codec} (m : SegmentedMessage codec) (others : List ClientId) :
    Nat → List ClientMessageStep → Prop where
  | last {i chunk now place} : m.chunks[i]? = some chunk → i + 1 = m.chunks.length →
      Interleaved m others i [m.arrives i chunk now place]
  | next {i chunk now place steps} : m.chunks[i]? = some chunk → i + 1 < m.chunks.length →
      Interleaved m others (i + 1) steps → Interleaved m others i (m.arrives i chunk now place :: steps)
  | again {i j chunk now place steps} : m.chunks[j]? = some chunk → j < i →
      Interleaved m others i steps → Interleaved m others i (m.arrives j chunk now place :: steps)
  | other {i now place envelope wireSizeBytes steps} :
      envelope.clientId ∈ others ∨ envelope.isChunk = false →
      Interleaved m others i steps →
      Interleaved m others i (.observe now place envelope wireSizeBytes :: steps)
  | streamCloses {i clientId streamId steps} : (clientId, streamId) ≠ (m.clientId, m.streamId) →
      Interleaved m others i steps → Interleaved m others i (.invalidateStream clientId streamId :: steps)
  | clientCloses {i clientId steps} : clientId ≠ m.clientId →
      Interleaved m others i steps → Interleaved m others i (.invalidateClient clientId :: steps)

/-- The last envelope between the two states is the last chunk, and the message is forwarded with it. -/
def Delivers {codec : Codec} (m : SegmentedMessage codec) (s s' : ObservedState) : Prop :=
  ∃ before chunk, m.chunks.getLast? = some chunk ∧
    s'.log = s.log ++ before ++
      [(m.envelope (m.chunks.length - 1) chunk, .forward (m.delivered (m.chunks.length - 1) chunk))]

/-- However the chunks arrive, the message is forwarded with the last one. -/
def Survives {codec : Codec} (s : ObservedState) (m : SegmentedMessage codec) : Prop :=
  ∀ others steps s', others.length ≤ 100 → m.clientId ∉ others → Interleaved m others 0 steps →
    Run (ClientMessageMove codec) s steps s' → Delivers m s s'

end CodexStudy.RemoteControl
