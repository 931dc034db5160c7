import CodexStudy.RemoteControl.ClientTracker

/-!
# Old connections and the connections that replace them

A connection is closed for a reason of its own, as long as the end of an outbound task is reported only while no other
connection stands under the key of the task.
-/

namespace CodexStudy.RemoteControl

open CodexStudy.Lib CodexStudy.Lib.Logged ClientTracker Option List

/-! ## What a step closes -/

/-- Of the closing events only those of `allowed` connections are sent. -/
def ClosesOnly (allowed : ConnectionId → Prop) (_ : List TransportEvent) (event : TransportEvent) : Prop :=
  ∀ connectionId, event = .connectionClosed connectionId → allowed connectionId

section

variable {allowed : ConnectionId → Prop} {s : ClientTracker}

theorem ensures_modify {f : Tracker → Tracker} :
    Ensures (ClosesOnly allowed) s (modify f) fun _ s' => s'.world = f s.world := by
  apply ensures_silent
  · rfl
  · intro _ _; rfl

theorem ensures_send {event : TransportEvent} (h : ClosesOnly allowed s.log event) :
    Ensures (ClosesOnly allowed) s (sendTransportEvent event) fun _ s' => s'.world.clients = s.world.clients := by
  cases ht : s.world.transportTakes with
  | none =>
      apply ensures_event (e := event)
      · simp [sendTransportEvent, ht]
      · exact h
      · intro _ _; simp [sendTransportEvent, ht]
  | some n =>
      cases n with
      | zero =>
          apply ensures_silent
          · simp [sendTransportEvent, ht]
          · intro _ _; simp [sendTransportEvent, ht]
      | succ n =>
          apply ensures_event (e := event)
          · simp [sendTransportEvent, ht]
          · exact h
          · intro _ _; simp [sendTransportEvent, ht]

theorem sendTransportEvent_clients (event : TransportEvent) (s : ClientTracker) :
    (sendTransportEvent event s).2.world.clients = s.world.clients := by
  unfold sendTransportEvent
  split <;> rfl

theorem ensures_read {α : Type} {f : ClientTracker → Tracking α} {Q : α → ClientTracker → Prop}
    (h : Ensures (ClosesOnly allowed) s (f s) Q) : Ensures (ClosesOnly allowed) s (Eff.read >>= f) Q := by
  have heq : (Eff.read >>= f) s = f s s := rfl
  unfold Ensures Eff.Post at h ⊢
  rw [heq]
  exact h

variable {clientKey : ClientKey} {message : JSONRPCMessage} {now : Nat} {envelope : ClientEnvelope}

theorem ensures_closeClient
    (h : ∀ client, s.world.clients.lookup clientKey = some client → allowed client.connectionId) :
    Ensures (ClosesOnly allowed) s (closeClient clientKey)
      fun _ s' => s'.world.clients = s.world.clients.erase clientKey := by
  unfold closeClient
  apply ensures_read
  cases hc : s.world.clients.lookup clientKey with
  | none =>
      apply ensures_pure
      rw [HashMap.erase_of_lookup_eq_none hc]
  | some client =>
      refine ensures_modify.bind fun _ s₁ _ hs₁ => ?_
      have hsend : ClosesOnly allowed s₁.log (.connectionClosed client.connectionId) := by
        rintro _ ⟨⟩
        exact h client hc
      refine (ensures_send hsend).mono fun _ s' _ hs' => ?_
      rw [hs', hs₁]
      rfl

theorem lookup_closeClient (clientKey : ClientKey) (s : ClientTracker) :
    (closeClient clientKey s).2.world.clients.lookup clientKey = none := by
  unfold closeClient
  rw [Eff.read_bind_apply]
  cases hc : s.world.clients.lookup clientKey with
  | none => exact hc
  | some client =>
      change (sendTransportEvent _ _).2.world.clients.lookup clientKey = none
      rw [sendTransportEvent_clients]
      exact AList.lookup_erase _ _

theorem ensures_closeEach {expired : List ClientKey}
    (h : ∀ key ∈ expired, ∀ client, s.world.clients.lookup key = some client → allowed client.connectionId) :
    Ensures (ClosesOnly allowed) s (Eff.each closeClient expired) fun _ _ => True := by
  induction expired generalizing s with
  | nil => exact ensures_pure trivial
  | cons key expired ih =>
      have hkey := ensures_closeClient fun client hc => h key mem_cons_self client hc
      refine hkey.bind fun _ s₁ _ hs₁ => ?_
      have hrest : ∀ key' ∈ expired, ∀ client, s₁.world.clients.lookup key' = some client →
          allowed client.connectionId := by
        intro key' hkey' client hc
        rw [hs₁] at hc
        exact h key' (mem_cons_of_mem _ hkey') client (HashMap.lookup_of_lookup_erase hc)
      exact (ih hrest).bind fun _ _ _ _ => ensures_pure trivial

theorem ensures_closeExpiredClients {expired : List ClientKey}
    (h : ∀ key ∈ expired, ∀ client, s.world.clients.lookup key = some client → allowed client.connectionId) :
    Ensures (ClosesOnly allowed) s (closeExpiredClients expired) fun _ _ => True :=
  (ensures_closeEach h).bind fun _ _ _ _ => ensures_pure trivial

/-! ## Messages close nothing but a connection that is opened anew -/

theorem closesOnly_opened {old : List TransportEvent} {connectionId : ConnectionId} :
    ClosesOnly allowed old (.connectionOpened connectionId) := by
  intro _ h; cases h

theorem closesOnly_incoming {old : List TransportEvent} {connectionId : ConnectionId} :
    ClosesOnly allowed old (.incomingMessage connectionId message) := by
  intro _ h; cases h

theorem ensures_openClient {isLegacyStreamId : Bool} {seqId : Option Nat} :
    Ensures (ClosesOnly allowed) s (openClient clientKey now isLegacyStreamId seqId message) fun _ _ => True := by
  have hid : Ensures (ClosesOnly allowed) s nextConnectionId fun _ _ => True := by
    apply ensures_read
    exact ensures_modify.bind fun _ _ _ _ => ensures_pure trivial
  refine hid.bind fun connectionId s₁ _ _ => ?_
  refine (ensures_send closesOnly_opened).bind fun _ s₂ _ _ => ?_
  refine ensures_modify.bind fun _ s₃ _ _ => ?_
  exact (ensures_send closesOnly_incoming).mono fun _ _ _ _ => trivial

theorem ensures_deliver : Ensures (ClosesOnly allowed) s (deliver clientKey now envelope message) fun _ _ => True := by
  unfold deliver
  apply ensures_read
  cases s.world.clients.lookup clientKey with
  | none =>
      dsimp only
      split
      · exact ensures_openClient
      · exact ensures_pure trivial
  | some client =>
      refine ensures_modify.bind fun _ s₁ _ _ => ?_
      exact (ensures_send closesOnly_incoming).mono fun _ _ _ _ => trivial

theorem ensures_handleClientMessage (h : isInitialize envelope = true →
      ∀ client, s.world.clients.lookup clientKey = some client → allowed client.connectionId) :
    Ensures (ClosesOnly allowed) s (handleClientMessage clientKey now envelope message) fun _ _ => True := by
  unfold handleClientMessage
  apply ensures_read
  split
  · exact ensures_pure trivial
  · split
    next hinit => exact (ensures_closeClient (h hinit)).bind fun _ _ _ _ => ensures_deliver
    next => exact ensures_deliver

def envelopeKey (t : Tracker) (fresh : StreamId) (envelope : ClientEnvelope) : ClientKey :=
  (envelope.clientId, resolveStreamId t.legacyStreamIds fresh envelope)

theorem takeLegacyStreamId_clients (envelope : ClientEnvelope) (t : Tracker) :
    (takeLegacyStreamId envelope t).clients = t.clients := by
  unfold takeLegacyStreamId
  split <;> rfl

theorem ensures_handleMessage {fresh : StreamId} (h : isInitialize envelope = true ∨ envelope.event = .clientClosed →
      ∀ client, s.world.clients.lookup (envelopeKey s.world fresh envelope) = some client →
        allowed client.connectionId) :
    Ensures (ClosesOnly allowed) s (handleMessage now fresh envelope) fun _ _ => True := by
  unfold handleMessage
  apply ensures_read
  refine ensures_modify.bind fun _ s₁ _ hs₁ => ?_
  have hclients : s₁.world.clients = s.world.clients := by rw [hs₁, takeLegacyStreamId_clients]
  split
  · exact ensures_pure trivial
  · cases he : envelope.event with
    | clientMessage message =>
        apply ensures_handleClientMessage
        rw [hclients]
        exact fun hinit => h (.inl hinit)
    | clientMessageChunk _ _ _ _ => exact ensures_pure trivial
    | ack _ => exact ensures_pure trivial
    | ping => exact ensures_modify.mono fun _ _ _ _ => trivial
    | clientClosed =>
        refine (ensures_closeClient ?_).mono fun _ _ _ _ => trivial
        rw [hclients]
        exact h (.inr he)

end

/-! ## What is asked of a step -/

/-- Why a connection may be closed in a step. -/
inductive MayClose (t : Tracker) : ReaderStep → ConnectionId → Prop where
  | clientClosed {now fresh envelope client} : envelope.event = .clientClosed →
      t.clients.lookup (envelopeKey t fresh envelope) = some client →
      MayClose t (.envelope now fresh envelope) client.connectionId
  | initialized {now fresh envelope client} : isInitialize envelope = true →
      t.clients.lookup (envelopeKey t fresh envelope) = some client →
      MayClose t (.envelope now fresh envelope) client.connectionId
  | expired {now expired clientKey client} : t.clients.lookup clientKey = some client →
      remoteControlClientIsAlive client now = false → MayClose t (.idleSweep now expired) client.connectionId
  | tokenCancelled {a connectionId} : t.tokenCancelled connectionId = true → MayClose t a connectionId
  | taskEnded {a task} : task ∈ t.joinSet → task.state ≠ .running → MayClose t a task.connectionId

/-- The end of a task is reported while another connection stands under its key. -/
def ReportsReplaced (t : Tracker) (a : ReaderStep) (task : OutboundTask) (client : ClientState) : Prop :=
  a = .joinNext task ∧ task.state = .returned ∧ t.clients.lookup task.clientKey = some client ∧
    client.connectionId ≠ task.connectionId

/-- Every closed connection has its own reason, and the end of a replaced task leaves the new connection open. -/
def ClosesNoNewer (s : ClientTracker) (a : ReaderStep) : Prop :=
  ∀ s', ReaderMove s a s' →
    Writes (ClosesOnly (MayClose s.world a)) s s' ∧
      ∀ task client, ReportsReplaced s.world a task client →
        s'.world.clients.lookup task.clientKey = some client

/-- The end of a task is reported only where no other connection stands under its key. -/
def ReportsItsOwn (s : ClientTracker) (a : ReaderStep) : Prop :=
  ∀ task client, ¬ ReportsReplaced s.world a task client

/-! ## Steps -/

theorem mem_expiredClientIds {t : Tracker} {now : Nat} {clientKey : ClientKey} {client : ClientState}
    (h : clientKey ∈ expiredClientIds t now) (hc : t.clients.lookup clientKey = some client) :
    remoteControlClientIsAlive client now = false := by
  simp only [expiredClientIds, List.mem_map, List.mem_filter] at h
  obtain ⟨entry, ⟨hent, hidle⟩, rfl⟩ := h
  have hlk : t.clients.lookup entry.1 = some entry.2 := AList.mem_lookup_iff.mpr hent
  rw [hlk] at hc
  cases hc
  simpa using hidle

theorem writes_joinNext {s : ClientTracker} {task : OutboundTask} (hmem : task ∈ s.world.joinSet)
    (hend : task.state ≠ .running) (hown : ReportsItsOwn s (.joinNext task)) :
    Ensures (ClosesOnly (MayClose s.world (.joinNext task))) s (joinNext task) fun _ _ => True := by
  refine ensures_modify.bind fun _ s₁ _ hs₁ => ?_
  split
  next hret =>
    refine (ensures_closeClient fun client hc => ?_).mono fun _ _ _ _ => trivial
    rw [hs₁] at hc
    have hid : client.connectionId = task.connectionId := by
      by_contra hne
      exact hown task client ⟨rfl, hret, hc, hne⟩
    rw [hid]
    exact .taskEnded hmem hend
  next => exact ensures_pure trivial

theorem writes_of_move {s s' : ClientTracker} {a : ReaderStep} (h : ReaderMove s a s')
    (hown : ReportsItsOwn s a) : Writes (ClosesOnly (MayClose s.world a)) s s' := by
  unfold ReaderMove at h
  cases a with
  | envelope now fresh envelope =>
      cases h
      refine (ensures_handleMessage ?_).1
      rintro (hinit | hcls) client hc
      · exact .initialized hinit hc
      · exact .clientClosed hcls hc
  | idleSweep now expired =>
      simp only [advance, ite_none_right_eq_some, some.injEq] at h
      obtain ⟨hperm, rfl⟩ := h
      refine (ensures_closeExpiredClients ?_).1
      intro key hkey client hc
      exact .expired hc (mem_expiredClientIds (hperm.mem_iff.mp hkey) hc)
  | joinNext task =>
      simp only [advance, ite_none_right_eq_some, some.injEq] at h
      obtain ⟨⟨hmem, hend⟩, rfl⟩ := h
      exact (writes_joinNext hmem hend hown).1
  | taskReturns task =>
      simp only [advance, ite_none_right_eq_some, some.injEq] at h
      obtain ⟨-, rfl⟩ := h
      exact ⟨[], (append_nil _).symm, trivial⟩
  | taskPanics task =>
      simp only [advance, ite_none_right_eq_some, some.injEq] at h
      obtain ⟨-, rfl⟩ := h
      exact ⟨[], (append_nil _).symm, trivial⟩
  | cancelToken | cancelShutdownToken | dropWriter | dropServerEvents | takeConnectionId =>
      cases h
      exact ⟨[], (append_nil _).symm, trivial⟩

theorem closed_of_reportsReplaced {s s' : ClientTracker} {a : ReaderStep} {task : OutboundTask}
    {client : ClientState} (h : ReaderMove s a s') (hr : ReportsReplaced s.world a task client) :
    s'.world.clients.lookup task.clientKey = none := by
  obtain ⟨rfl, hret, hc, -⟩ := hr
  unfold ReaderMove at h
  simp only [advance, ite_none_right_eq_some, some.injEq] at h
  obtain ⟨-, rfl⟩ := h
  unfold joinNext
  rw [if_pos hret]
  exact lookup_closeClient task.clientKey _

/-! ## Runs -/

/-- In a run of the reader a connection is closed for a reason of its own only, and no finished task closes the
connection that replaced its own, exactly when the end of a task is never reported while another connection stands under
its key. -/
theorem closesNoNewer_iff_reportsItsOwn (transportTakes : Option Nat) (steps : List ReaderStep) :
    StepsMeet ReaderMove ClosesNoNewer (new transportTakes) steps ↔
      StepsMeet ReaderMove ReportsItsOwn (new transportTakes) steps := by
  constructor
  · intro h as a s s' hpre hrun hmove task client hr
    have hopen := (h as a s s' hpre hrun hmove s' hmove).2 task client hr
    rw [closed_of_reportsReplaced hmove hr] at hopen
    cases hopen
  · intro h as a s s' hpre hrun hmove s₁ hmove₁
    have hown := h as a s s' hpre hrun hmove
    refine ⟨writes_of_move hmove₁ hown, ?_⟩
    intro task client hr
    exact absurd hr (hown task client)

/-! ## A client that initializes twice -/

def initializeEnvelope : ClientEnvelope where
  event := .clientMessage (.request
    { id := .integer 1, method := "initialize", params := none, trace := none })
  clientId := "client-1"
  streamId := some "stream-1".toList
  seqId := some 0
  cursor := none

def firstTask : OutboundTask where
  clientKey := ("client-1", "stream-1")
  connectionId := 0

def firstTaskEnded : OutboundTask := { firstTask with state := .returned }

/-- Both messages open a connection. -/
def initializedTwice : ClientTracker :=
  (handleMessage 0 [] initializeEnvelope (handleMessage 0 [] initializeEnvelope (new none)).2).2

def firstEnded : ClientTracker :=
  { initializedTwice with world := setTaskState firstTask .returned initializedTwice.world }

theorem newer_closed : ¬ ∀ transportTakes steps, StepsMeet ReaderMove ClosesNoNewer (new transportTakes) steps := by
  intro h
  have hends : ReaderMove initializedTwice (.taskReturns firstTask) firstEnded := by
    have hgd : firstTask ∈ initializedTwice.world.joinSet ∧ firstTask.state = .running ∧
        mayReturn initializedTwice.world firstTask = true := by decide +kernel
    unfold ReaderMove advance
    exact if_pos hgd
  have hreport : ReaderMove firstEnded (.joinNext firstTaskEnded)
      (joinNext firstTaskEnded firstEnded).2 := by
    have hgd : firstTaskEnded ∈ firstEnded.world.joinSet ∧ firstTaskEnded.state ≠ .running := by
      decide +kernel
    unfold ReaderMove advance
    exact if_pos hgd
  have hrun : Run ReaderMove (new none)
      [.envelope 0 [] initializeEnvelope, .envelope 0 [] initializeEnvelope, .taskReturns firstTask] firstEnded :=
    .cons rfl (.cons rfl (.single hends))
  have hr : ReportsReplaced firstEnded.world (.joinNext firstTaskEnded) firstTaskEnded
      { connectionId := 1, lastActivityAt := 0, lastInboundSeqId := some 0, status := .active } := by
    refine ⟨rfl, rfl, ?_, ?_⟩
    · decide +kernel
    · decide
  have hopen := (h none _ _ _ _ _ (prefix_refl _) hrun hreport _ hreport).2 _ _ hr
  rw [closed_of_reportsReplaced hreport hr] at hopen
  cases hopen

end CodexStudy.RemoteControl
