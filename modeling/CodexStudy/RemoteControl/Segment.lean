import CodexStudy.Lib.Json
import CodexStudy.Lib.HashMap

/-!
# Messages in segments (`remote_control/segment.rs`)

A client has one message under assembly at a time.
-/

namespace CodexStudy.RemoteControl

open CodexStudy.Lib

/-! ## JSON-RPC messages (`jsonrpc_lite.rs`, `remote_control/protocol.rs`) -/

inductive RequestId where
  | string (value : Text)
  | integer (value : Int)

structure W3cTraceContext where
  traceparent : Option Text
  tracestate : Option Text

structure JSONRPCRequest where
  id : RequestId
  method : Text
  params : Option Json
  trace : Option W3cTraceContext

structure JSONRPCNotification where
  method : Text
  params : Option Json

structure JSONRPCResponse where
  id : RequestId
  result : Json

structure JSONRPCErrorError where
  code : Int
  data : Option Json
  message : Text

structure JSONRPCError where
  error : JSONRPCErrorError
  id : RequestId

inductive JSONRPCMessage where
  | request (request : JSONRPCRequest)
  | notification (notification : JSONRPCNotification)
  | response (response : JSONRPCResponse)
  | error (error : JSONRPCError)

/-! ## From the client -/

abbrev ClientId := Text

abbrev StreamId := Text

inductive ClientEvent where
  | clientMessage (message : JSONRPCMessage)
  | clientMessageChunk (segmentId segmentCount messageSizeBytes : Nat) (messageChunkBase64 : Text)
  | ack (segmentId : Option Nat)
  | ping
  | clientClosed

/-- A missing stream id is that of a client from before there were stream ids. -/
structure ClientEnvelope where
  event : ClientEvent
  clientId : ClientId
  streamId : Option StreamId
  seqId : Option Nat
  cursor : Option Text

/-! ## To the client -/

inductive PongStatus where
  | active
  | unknown
  deriving DecidableEq

inductive ServerEvent (μ : Type) where
  | serverMessage (message : μ)
  | serverMessageChunk (segmentId segmentCount messageSizeBytes : Nat) (messageChunkBase64 : Text)
  | ack
  | pong (status : PongStatus)

def ServerEvent.segmentId {μ : Type} : ServerEvent μ → Option Nat
  | serverMessageChunk segmentId _ _ _ => some segmentId
  | serverMessage _ | ack | pong _ => none

structure ServerEnvelope (μ : Type) where
  event : ServerEvent μ
  clientId : ClientId
  streamId : StreamId
  seqId : Nat

def REMOTE_CONTROL_SEGMENT_MAX_BYTES : Nat := 150 * 1024

def REMOTE_CONTROL_REASSEMBLED_MAX_BYTES : Nat := 100 * 1024 * 1024

def REMOTE_CONTROL_SEGMENT_COUNT_MAX : Nat := 1024

def REMOTE_CONTROL_SEGMENT_ASSEMBLY_MAX_COUNT : Nat := 128

/-! ## Decoding -/

/-- How many bytes a base64 text of the length may stand for, four characters for three bytes. -/
def decodedLenEstimate (length : Nat) : Nat := (length + 3) / 4 * 3

structure Codec where
  decode : Text → Option (List UInt8)
  fromSlice : List UInt8 → Option JSONRPCMessage
  decode_length : ∀ text bytes, decode text = some bytes → bytes.length ≤ decodedLenEstimate text.length

/-! ## State -/

structure ClientSegmentMetadata where
  seqId : Nat
  segmentCount : Nat
  messageSizeBytes : Nat
  deriving DecidableEq

structure ClientSegmentAssembly where
  streamId : StreamId
  metadata : ClientSegmentMetadata
  raw : List UInt8
  nextSegmentId : Nat
  lastChunkSeenAt : Nat

structure ClientSegmentReassembler where
  assemblies : HashMap ClientId ClientSegmentAssembly := ∅

inductive ClientSegmentObservation where
  | forward (envelope : ClientEnvelope)
  | pending
  | dropped

/-- A chunk with the ids it cannot be without. -/
structure Chunk where
  clientId : ClientId
  streamId : StreamId
  metadata : ClientSegmentMetadata
  segmentId : Nat
  messageChunkBase64 : Text

/-! ## Assemblies -/

namespace ClientSegmentReassembler

variable (r : ClientSegmentReassembler)

variable (clientId : ClientId) (streamId : StreamId)

def shouldIgnoreChunk (seqId segmentId : Nat) : Bool :=
  (r.assemblies.lookup clientId).any fun assembly =>
    assembly.streamId == streamId &&
      (seqId < assembly.metadata.seqId ||
        (seqId == assembly.metadata.seqId && segmentId < assembly.nextSegmentId))

def removeAssembly : ClientSegmentReassembler :=
  if (r.assemblies.lookup clientId).any (·.streamId == streamId) then ⟨r.assemblies.erase clientId⟩ else r

def invalidateStream : ClientSegmentReassembler :=
  r.removeAssembly clientId streamId

def invalidateClient : ClientSegmentReassembler := ⟨r.assemblies.erase clientId⟩

abbrev AssemblyEntry := Sigma fun _ : ClientId => ClientSegmentAssembly

def isOlder (place : ClientId → Nat) (entry other : AssemblyEntry) : Bool :=
  entry.2.lastChunkSeenAt < other.2.lastChunkSeenAt ||
    (entry.2.lastChunkSeenAt == other.2.lastChunkSeenAt && place entry.1 ≤ place other.1)

def oldest (place : ClientId → Nat) : List AssemblyEntry → Option AssemblyEntry
  | [] => none
  | entry :: entries =>
      match oldest place entries with
      | none => some entry
      | some other => if isOlder place entry other then some entry else some other

def evictRounds (place : ClientId → Nat) : Nat → HashMap ClientId ClientSegmentAssembly →
    HashMap ClientId ClientSegmentAssembly
  | 0, assemblies => assemblies
  | rounds + 1, assemblies =>
      if REMOTE_CONTROL_SEGMENT_ASSEMBLY_MAX_COUNT ≤ assemblies.entries.length then
        match oldest place assemblies.entries with
        | none => assemblies
        | some entry => evictRounds place rounds (assemblies.erase entry.1)
      else assemblies

def evictAssembliesIfFull (place : ClientId → Nat) : ClientSegmentReassembler :=
  ⟨evictRounds place r.assemblies.entries.length r.assemblies⟩

end ClientSegmentReassembler

/-! ## Observing a chunk -/

namespace Chunk

/-- The assembly of a message of which nothing has been taken. -/
def emptyAssembly (chunk : Chunk) (now : Nat) : ClientSegmentAssembly where
  streamId := chunk.streamId
  metadata := chunk.metadata
  raw := []
  nextSegmentId := 0
  lastChunkSeenAt := now

def isInvalid (chunk : Chunk) : Bool :=
  chunk.metadata.segmentCount == 0 || REMOTE_CONTROL_SEGMENT_COUNT_MAX < chunk.metadata.segmentCount ||
    chunk.metadata.segmentCount ≤ chunk.segmentId || chunk.metadata.messageSizeBytes == 0 ||
    REMOTE_CONTROL_REASSEMBLED_MAX_BYTES < chunk.metadata.messageSizeBytes || chunk.messageChunkBase64.isEmpty

def prepare (chunk : Chunk) (place : ClientId → Nat) (now : Nat) (r : ClientSegmentReassembler) :
    ClientSegmentReassembler :=
  match r.assemblies.lookup chunk.clientId with
  | some assembly =>
      if assembly.streamId ≠ chunk.streamId then ⟨r.assemblies.insert chunk.clientId (chunk.emptyAssembly now)⟩
      else r
  | none =>
      ⟨(r.evictAssembliesIfFull place).assemblies.insert chunk.clientId (chunk.emptyAssembly now)⟩

end Chunk

inductive AssemblyUpdate where
  | pending (assembly : ClientSegmentAssembly)
  | ignore
  | drop
  | complete (message : JSONRPCMessage)

def ClientSegmentAssembly.update (codec : Codec) (now : Nat) (chunk : Chunk) (assembly : ClientSegmentAssembly) :
    AssemblyUpdate :=
  if chunk.metadata.seqId < assembly.metadata.seqId then .ignore
  else if assembly.metadata ≠ chunk.metadata then .drop
  else if chunk.segmentId < assembly.nextSegmentId then .pending assembly
  else if chunk.segmentId ≠ assembly.nextSegmentId then .drop
  else
    let chunkStart := assembly.raw.length
    let chunkEnd :=
      min chunk.metadata.messageSizeBytes (chunkStart + decodedLenEstimate chunk.messageChunkBase64.length)
    match codec.decode chunk.messageChunkBase64 with
    | none => .drop
    | some bytes =>
        if chunkEnd - chunkStart < bytes.length then .drop
        else
          let raw := assembly.raw ++ bytes
          let nextSegmentId := assembly.nextSegmentId + 1
          if nextSegmentId < chunk.metadata.segmentCount then
            .pending { assembly with raw, nextSegmentId, lastChunkSeenAt := now }
          else if raw.length ≠ chunk.metadata.messageSizeBytes then .drop
          else
            match codec.fromSlice raw with
            | some message => .complete message
            | none => .drop

namespace ClientSegmentReassembler

def observeChunk (codec : Codec) (place : ClientId → Nat) (now : Nat) (envelope : ClientEnvelope) (chunk : Chunk)
    (r : ClientSegmentReassembler) : ClientSegmentObservation × ClientSegmentReassembler :=
  if r.shouldIgnoreChunk chunk.clientId chunk.streamId chunk.metadata.seqId chunk.segmentId then (.dropped, r)
  else if chunk.isInvalid then (.dropped, r.removeAssembly chunk.clientId chunk.streamId)
  else
    let r := chunk.prepare place now r
    match r.assemblies.lookup chunk.clientId with
    | none => (.dropped, r)
    | some assembly =>
        match assembly.update codec now chunk with
        | .pending assembly => (.pending, ⟨r.assemblies.insert chunk.clientId assembly⟩)
        | .ignore => (.dropped, r)
        | .drop => (.dropped, r.removeAssembly chunk.clientId chunk.streamId)
        | .complete message =>
            (.forward { envelope with event := .clientMessage message },
              r.removeAssembly chunk.clientId chunk.streamId)

/-- What is not a chunk is forwarded as it is. -/
def observe (codec : Codec) (place : ClientId → Nat) (now : Nat) (envelope : ClientEnvelope)
    (r : ClientSegmentReassembler) : ClientSegmentObservation × ClientSegmentReassembler :=
  match envelope.event with
  | .clientMessageChunk segmentId segmentCount messageSizeBytes messageChunkBase64 =>
      match envelope.seqId, envelope.streamId with
      | some seqId, some streamId =>
          r.observeChunk codec place now envelope
            { clientId := envelope.clientId
              streamId
              metadata := { seqId, segmentCount, messageSizeBytes }
              segmentId
              messageChunkBase64 }
      | _, _ => (.dropped, r)
  | _ => (.forward envelope, r)

end ClientSegmentReassembler

end CodexStudy.RemoteControl
