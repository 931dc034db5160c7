import CodexStudy.Lib.Effect
import CodexStudy.Lib.Transition
import CodexStudy.RemoteControl.Segment

/-!
# The connections of the clients (`remote_control/client_tracker.rs`)

Each connection has an outbound task, and the task ends after its connection does.
-/

namespace CodexStudy.RemoteControl

open CodexStudy.Lib

/-- Ten minutes, in seconds. -/
def REMOTE_CONTROL_CLIENT_IDLE_TIMEOUT : Nat := 10 * 60

abbrev ConnectionId := Nat

abbrev ClientKey := ClientId × StreamId

/-! ## State -/

inductive TransportEvent where
  | connectionOpened (connectionId : ConnectionId)
  | incomingMessage (connectionId : ConnectionId) (message : JSONRPCMessage)
  | connectionClosed (connectionId : ConnectionId)

structure ClientState where
  connectionId : ConnectionId
  lastActivityAt : Nat
  lastInboundSeqId : Option Nat
  status : PongStatus
  deriving DecidableEq

inductive TaskState where
  | running
  | returned
  | panicked
  deriving DecidableEq

structure OutboundTask where
  clientKey : ClientKey
  connectionId : ConnectionId
  state : TaskState := .running
  deriving DecidableEq

/-- The tracker with what it shares: the tokens, the two channels and the counter of connections. `transportTakes` is
how many events the transport still receives, if not all. -/
structure Tracker where
  clients : HashMap ClientKey ClientState := ∅
  legacyStreamIds : HashMap ClientId StreamId := ∅
  joinSet : List OutboundTask := []
  cancelledTokens : List ConnectionId := []
  shutdownCancelled : Bool := false
  droppedWriters : List ConnectionId := []
  serverEventsDropped : Bool := false
  unknownPongs : List ClientKey := []
  transportTakes : Option Nat := none
  nextConnectionId : ConnectionId := 0

abbrev ClientTracker := Logged Tracker TransportEvent

inductive Stopped where
  | stopped

abbrev Tracking (α : Type) := Eff Stopped ClientTracker α

variable (clientKey : ClientKey) (now : Nat) (t : Tracker)

def Tracker.tokenCancelled (connectionId : ConnectionId) : Bool :=
  t.shutdownCancelled || connectionId ∈ t.cancelledTokens

namespace ClientTracker

/-- Change what is not the log. -/
def modify (f : Tracker → Tracker) : Tracking Unit := Eff.modify fun s => { s with world := f s.world }

def sendTransportEvent (event : TransportEvent) : Tracking Unit := fun s =>
  match s.world.transportTakes with
  | some 0 => (.error .stopped, s)
  | takes => (.ok (), { world := { s.world with transportTakes := takes.map (· - 1) }, log := s.log ++ [event] })

def remoteControlMessageStartsConnection : JSONRPCMessage → Bool
  | .request request => request.method == "initialize"
  | _ => false

def remoteControlClientIsAlive (client : ClientState) (now : Nat) : Bool :=
  now - client.lastActivityAt < REMOTE_CONTROL_CLIENT_IDLE_TIMEOUT

/-! ## Closing -/

def without (client : ClientState) (t : Tracker) : Tracker :=
  { t with
    clients := t.clients.erase clientKey
    legacyStreamIds :=
      if t.legacyStreamIds.lookup clientKey.1 = some clientKey.2 then t.legacyStreamIds.erase clientKey.1
      else t.legacyStreamIds
    cancelledTokens := client.connectionId :: t.cancelledTokens }

def closeClient : Tracking Unit := do
  let s ← Eff.read
  match s.world.clients.lookup clientKey with
  | none => pure ()
  | some client => do
      modify (without clientKey client)
      sendTransportEvent (.connectionClosed client.connectionId)

def expiredClientIds (now : Nat) : List ClientKey :=
  (t.clients.entries.filter fun client => !remoteControlClientIsAlive client.2 now).map (·.1)

def closeExpiredClients (expired : List ClientKey) : Tracking Unit := do
  let _ ← Eff.each closeClient expired
  pure ()

/-! ## Messages -/

variable (envelope : ClientEnvelope)

def isInitialize : Bool :=
  match envelope.event with
  | .clientMessage message => remoteControlMessageStartsConnection message
  | _ => false

def resolveStreamId (legacyStreamIds : HashMap ClientId StreamId) (fresh : StreamId) (envelope : ClientEnvelope) :
    StreamId :=
  match envelope.streamId with
  | some streamId => streamId
  | none =>
      (legacyStreamIds.lookup envelope.clientId).getD <|
        match envelope.event with
        | .ping => fresh
        | _ => if isInitialize envelope then fresh else []

def takeLegacyStreamId (t : Tracker) : Tracker :=
  if envelope.streamId.isNone && isInitialize envelope then
    { t with legacyStreamIds := t.legacyStreamIds.erase envelope.clientId }
  else t

/-- The message has been seen before on the connection. -/
def isStale (client : ClientState) (seqId : Option Nat) : Bool :=
  match seqId, client.lastInboundSeqId with
  | some seqId, some lastSeqId => seqId ≤ lastSeqId
  | _, _ => false

def touched (client : ClientState) (now : Nat) (seqId : Option Nat) : ClientState :=
  { client with lastActivityAt := now, lastInboundSeqId := seqId.or client.lastInboundSeqId }

def opened (connectionId : ConnectionId) (now : Nat) (isLegacyStreamId : Bool)
    (seqId : Option Nat) (t : Tracker) : Tracker :=
  { t with
    joinSet := t.joinSet ++ [{ clientKey, connectionId }]
    clients := t.clients.insert clientKey
      { connectionId
        lastActivityAt := now
        lastInboundSeqId := if isLegacyStreamId then none else seqId
        status := .active }
    legacyStreamIds :=
      if isLegacyStreamId then t.legacyStreamIds.insert clientKey.1 clientKey.2 else t.legacyStreamIds }

def nextConnectionId : Tracking ConnectionId := do
  let s ← Eff.read
  modify fun t => { t with nextConnectionId := t.nextConnectionId + 1 }
  pure s.world.nextConnectionId

def openClient (isLegacyStreamId : Bool) (seqId : Option Nat) (message : JSONRPCMessage) : Tracking Unit := do
  let connectionId ← nextConnectionId
  sendTransportEvent (.connectionOpened connectionId)
  modify (opened clientKey connectionId now isLegacyStreamId seqId)
  sendTransportEvent (.incomingMessage connectionId message)

def deliver (message : JSONRPCMessage) :
    Tracking Unit := do
  let s ← Eff.read
  match s.world.clients.lookup clientKey with
  | some client => do
      modify fun t => { t with clients := t.clients.insert clientKey (touched client now envelope.seqId) }
      sendTransportEvent (.incomingMessage client.connectionId message)
  | none =>
      if isInitialize envelope then openClient clientKey now envelope.streamId.isNone envelope.seqId message
      else pure ()

def handleClientMessage (message : JSONRPCMessage) :
    Tracking Unit := do
  let s ← Eff.read
  if (s.world.clients.lookup clientKey).any (isStale · envelope.seqId) && !isInitialize envelope then pure ()
  else if isInitialize envelope then do
    closeClient clientKey
    deliver clientKey now envelope message
  else deliver clientKey now envelope message

def handlePing : Tracker :=
  match t.clients.lookup clientKey with
  | some client =>
      { t with clients := t.clients.insert clientKey { client with lastActivityAt := now, status := .active } }
  | none => { t with unknownPongs := t.unknownPongs ++ [clientKey] }

def handleMessage (fresh : StreamId) (envelope : ClientEnvelope) : Tracking Unit := do
  let s ← Eff.read
  let streamId := resolveStreamId s.world.legacyStreamIds fresh envelope
  let clientKey := (envelope.clientId, streamId)
  modify (takeLegacyStreamId envelope)
  if streamId.isEmpty then pure ()
  else
    match envelope.event with
    | .clientMessage message => handleClientMessage clientKey now envelope message
    | .clientMessageChunk _ _ _ _ | .ack _ => pure ()
    | .ping => modify (handlePing clientKey now)
    | .clientClosed => closeClient clientKey

/-! ## Outbound tasks -/

def mayReturn (task : OutboundTask) : Bool :=
  t.tokenCancelled task.connectionId || task.connectionId ∈ t.droppedWriters || t.serverEventsDropped ||
    !(t.clients.lookup task.clientKey).any (·.connectionId == task.connectionId)

def setTaskState (task : OutboundTask) (state : TaskState) (t : Tracker) : Tracker :=
  { t with joinSet := t.joinSet.replace task { task with state } }

/-- One round of `bookkeep_join_set`: an ended task is taken off; the reader handles the key of one that returned. -/
def joinNext (task : OutboundTask) : Tracking Unit := do
  modify fun t => { t with joinSet := t.joinSet.erase task }
  if task.state = .returned then closeClient task.clientKey else pure ()

/-- What the computation returns is not looked at. -/
def ignoringStop (x : Tracking Unit) : Tracking Unit := fun s => (.ok (), (x s).2)

def shutdown (order : List ClientKey) : Tracking Unit := do
  modify fun t => { t with shutdownCancelled := true }
  let _ ← Eff.each (fun clientKey => ignoringStop (closeClient clientKey)) order
  modify fun t => { t with joinSet := [] }

end ClientTracker

/-! ## The reader and what happens around it -/

inductive ReaderStep where
  | envelope (now : Nat) (fresh : StreamId) (envelope : ClientEnvelope)
  | idleSweep (now : Nat) (expired : List ClientKey)
  | joinNext (task : OutboundTask)
  | taskReturns (task : OutboundTask)
  | taskPanics (task : OutboundTask)
  | cancelToken (connectionId : ConnectionId)
  | cancelShutdownToken
  | dropWriter (connectionId : ConnectionId)
  | dropServerEvents
  | takeConnectionId

open ClientTracker

def ClientTracker.advance (s : ClientTracker) : ReaderStep → Option ClientTracker
  | .envelope now fresh envelope => some (handleMessage now fresh envelope s).2
  | .idleSweep now expired =>
      if expired.Perm (expiredClientIds s.world now) then some (closeExpiredClients expired s).2 else none
  | .joinNext task =>
      if task ∈ s.world.joinSet ∧ task.state ≠ .running then some (ClientTracker.joinNext task s).2 else none
  | .taskReturns task =>
      if task ∈ s.world.joinSet ∧ task.state = .running ∧ mayReturn s.world task then
        some { s with world := setTaskState task .returned s.world }
      else none
  | .taskPanics task =>
      if task ∈ s.world.joinSet ∧ task.state = .running then
        some { s with world := setTaskState task .panicked s.world }
      else none
  | .cancelToken connectionId =>
      some { s with world.cancelledTokens := connectionId :: s.world.cancelledTokens }
  | .cancelShutdownToken => some { s with world.shutdownCancelled := true }
  | .dropWriter connectionId => some { s with world.droppedWriters := connectionId :: s.world.droppedWriters }
  | .dropServerEvents => some { s with world.serverEventsDropped := true }
  | .takeConnectionId => some { s with world.nextConnectionId := s.world.nextConnectionId + 1 }

def ReaderMove (s : ClientTracker) (a : ReaderStep) (s' : ClientTracker) : Prop := s.advance a = some s'

def ClientTracker.new (transportTakes : Option Nat) : ClientTracker := { world := { transportTakes } }

end CodexStudy.RemoteControl
