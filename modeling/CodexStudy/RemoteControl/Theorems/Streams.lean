import CodexStudy.RemoteControl.Lemmas.Streams

/-!
# Well-formed event streams

Over an open transport, a connection is announced, receives its messages and is closed, in this order and once.
-/

namespace CodexStudy.RemoteControl

open CodexStudy.Lib ClientTracker Eff HashMap

/-! ## What is asked of the tracker -/

structure StreamsWellFormed (s : Streams) : Prop where
  streams : ∀ connectionId, eventsOf connectionId s.tracker.log = [] ∨
    IsOpenStream connectionId (eventsOf connectionId s.tracker.log) ∨
      IsClosedStream connectionId (eventsOf connectionId s.tracker.log)
  /-- The open connections are those of the clients. -/
  clients : ∀ connectionId,
    (.connectionOpened connectionId ∈ s.tracker.log ∧ .connectionClosed connectionId ∉ s.tracker.log) ↔
      ∃ clientKey client, s.tracker.world.clients.lookup clientKey = some client ∧ client.connectionId = connectionId
  /-- A connection is that of one client and stream. -/
  distinct : ∀ clientKey clientKey' client client', s.tracker.world.clients.lookup clientKey = some client →
    s.tracker.world.clients.lookup clientKey' = some client' → client.connectionId = client'.connectionId →
      clientKey = clientKey'
  legacy : ∀ clientId streamId, s.tracker.world.legacyStreamIds.lookup clientId = some streamId →
    ∃ client, s.tracker.world.clients.lookup (clientId, streamId) = some client
  increasing : ∀ connectionId, (seqIdsOf connectionId s.numbered).Pairwise (· < ·)

def ShutdownCloses (s : Streams) (a : TrackerStep) : Prop :=
  ∀ order s', a = .shutdown order → StreamsMove s a s' →
    ∀ connectionId, .connectionOpened connectionId ∈ s'.tracker.log → .connectionClosed connectionId ∈ s'.tracker.log

/-! ## Calls over an open transport -/

variable {client : ClientState} {a : TrackerStep} {log : List TransportEvent}

section

variable {s s' : ClientTracker} {numbered : List (ConnectionId × Nat)} {clientKey : ClientKey}

theorem sendTransportEvent_of_open (h : s.world.transportTakes = none) (event : TransportEvent) :
    sendTransportEvent event s = (.ok (), { s with log := s.log ++ [event] }) := by
  obtain ⟨world, log⟩ := s
  obtain ⟨⟩ := world
  cases h
  rfl

theorem modify_send_of_open {f : Tracker → Tracker} (h : (f s.world).transportTakes = none) (event : TransportEvent) :
    (ClientTracker.modify f >>= fun _ => sendTransportEvent event) s =
      (.ok (), { world := f s.world, log := s.log ++ [event] }) := by
  have hmodify : ClientTracker.modify f s = (.ok (), { s with world := f s.world }) := rfl
  rw [bind_of_ok hmodify]
  exact sendTransportEvent_of_open h event

/-- What a call that delivers no message leaves behind. -/
structure Silent (s : ClientTracker) (numbered : List (ConnectionId × Nat)) (s' : ClientTracker) : Prop where
  sound : StreamsSound s' numbered
  log : ∃ events : List TransportEvent, s'.log = s.log ++ events ∧ events.filterMap (·.receiver) = []

variable (h : StreamsSound s numbered)

include h in
theorem Silent.refl : Silent s numbered s := ⟨h, [], by simp, rfl⟩

theorem Silent.trans {s₁ : ClientTracker} (h : Silent s numbered s₁) (h' : Silent s₁ numbered s') :
    Silent s numbered s' := by
  obtain ⟨events, hlog, hnone⟩ := h.log
  obtain ⟨events', hlog', hnone'⟩ := h'.log
  exact ⟨h'.sound, events ++ events', by rw [hlog', hlog, List.append_assoc], by simp [hnone, hnone']⟩

theorem closeClient_apply (h : s.world.transportTakes = none)
    (hfnd : s.world.clients.lookup clientKey = some client) : closeClient clientKey s =
      (.ok (), { world := without clientKey client s.world, log := s.log ++ [.connectionClosed client.connectionId] }) := by
  unfold closeClient
  rw [read_bind_apply, hfnd]
  exact modify_send_of_open h _

theorem closeClient_of_vacant (h : s.world.clients.lookup clientKey = none) : closeClient clientKey s = (.ok (), s) := by
  unfold closeClient
  rw [read_bind_apply, h]
  rfl

include h in
theorem silent_closeClient (clientKey : ClientKey) :
    (closeClient clientKey s).1 = .ok () ∧ Silent s numbered (closeClient clientKey s).2 ∧
      (closeClient clientKey s).2.world.clients = s.world.clients.erase clientKey := by
  cases hfnd : s.world.clients.lookup clientKey with
  | none =>
      rw [closeClient_of_vacant hfnd]
      exact ⟨rfl, .refl h, (erase_of_lookup_eq_none hfnd).symm⟩
  | some client =>
      rw [closeClient_apply h.takes hfnd]
      exact ⟨rfl, ⟨h.closed hfnd, [.connectionClosed client.connectionId], rfl, rfl⟩, rfl⟩

include h in
theorem silent_closeEach (keys : List ClientKey) :
    Silent s numbered (each closeClient keys s).2 := by
  induction keys generalizing s with
  | nil => exact .refl h
  | cons clientKey keys ih =>
      obtain ⟨hok, hsil, -⟩ := silent_closeClient h clientKey
      have hclose : closeClient clientKey s = (.ok (), (closeClient clientKey s).2) := by rw [← hok]
      rw [each_state_of_ok hclose]
      exact hsil.trans (ih hsil.sound)

include h in
theorem silent_closeExpiredClients (expired : List ClientKey) :
    Silent s numbered (closeExpiredClients expired s).2 := by
  have heach := silent_closeEach h expired
  unfold closeExpiredClients
  rw [bind_apply]
  rcases hrun : each closeClient expired s with ⟨_ | bs, s₁⟩
  · rwa [hrun] at heach
  · rwa [hrun] at heach

include h in
theorem closeAll_spec (order : List ClientKey) :
    Silent s numbered (each (fun clientKey => ignoringStop (closeClient clientKey)) order s).2 ∧ ∀ key client,
        (each (fun clientKey => ignoringStop (closeClient clientKey)) order s).2.world.clients.lookup key =
          some client → key ∉ order ∧ s.world.clients.lookup key = some client := by
  induction order generalizing s with
  | nil => exact ⟨.refl h, fun key client hfnd => ⟨List.not_mem_nil, hfnd⟩⟩
  | cons clientKey order ih =>
      obtain ⟨-, hsil, herased⟩ := silent_closeClient h clientKey
      have hclose : ignoringStop (closeClient clientKey) s = (.ok (), (closeClient clientKey s).2) := rfl
      obtain ⟨hrest, hkept⟩ := ih hsil.sound
      rw [@each_state_of_ok _ _ _ _ (fun clientKey => ignoringStop (closeClient clientKey)) _ _ _ _ _ hclose]
      refine ⟨hsil.trans hrest, fun key client hfnd => ?_⟩
      obtain ⟨hnot, hold⟩ := hkept key client hfnd
      rw [herased, lookup_erase_eq] at hold
      split at hold
      next => cases hold
      next hne => exact ⟨by simp [hne, hnot], hold⟩

include h in
theorem silent_openClient (hvac : s.world.clients.lookup clientKey = none)
    (now : Nat) (isLegacyStreamId : Bool) (seqId : Option Nat) (message : JSONRPCMessage) :
    StreamsSound (openClient clientKey now isLegacyStreamId seqId message s).2 numbered ∧
      ∃ events, (openClient clientKey now isLegacyStreamId seqId message s).2.log = s.log ++ events := by
  have hopen : openClient clientKey now isLegacyStreamId seqId message s =
      (.ok (), { world := opened clientKey s.world.nextConnectionId now isLegacyStreamId seqId
                   { s.world with nextConnectionId := s.world.nextConnectionId + 1 }
                 log := s.log ++ [.connectionOpened s.world.nextConnectionId] ++
                   [.incomingMessage s.world.nextConnectionId message] }) := by
    have hid : nextConnectionId s =
        (.ok s.world.nextConnectionId, { s with world.nextConnectionId := s.world.nextConnectionId + 1 }) := rfl
    have hannounce := @sendTransportEvent_of_open { s with world.nextConnectionId := s.world.nextConnectionId + 1 }
      h.takes (.connectionOpened s.world.nextConnectionId)
    rw [openClient, bind_of_ok hid, bind_of_ok hannounce]
    exact modify_send_of_open h.takes _
  rw [hopen]
  exact ⟨h.announced hvac now isLegacyStreamId seqId message, _, List.append_assoc _ _ _⟩

/-! ## Messages -/

/-- The numbers of what the call has delivered are added to those before. -/
def KeepsStreams (s : ClientTracker) (numbered : List (ConnectionId × Nat)) (step : TrackerStep) (s' : ClientTracker) :
    Prop :=
  StreamsSound s' (numbered ++ numberedBy (s'.log.drop s.log.length) step)

theorem keepsStreams_of_silent {step : TrackerStep} (h : Silent s numbered s') : KeepsStreams s numbered step s' := by
  obtain ⟨events, hlog, hnone⟩ := h.log
  have hemp : numberedBy (s'.log.drop s.log.length) step = [] := by
    rw [hlog, List.drop_left]
    cases step with
    | handleMessage now fresh envelope => simp [numberedBy, hnone]
    | closeExpiredClients | closeClient | shutdown | takeConnectionId => rfl
  rw [KeepsStreams, hemp, List.append_nil]
  exact h.sound

section

variable {now : Nat} {fresh : StreamId} {envelope : ClientEnvelope} {message : JSONRPCMessage}

theorem numberedBy_initialize (hinit : isInitialize envelope = true) (events : List TransportEvent) :
    numberedBy events (.handleMessage now fresh envelope) = [] := by
  simp [numberedBy, hinit]

variable (h : StreamsSound s numbered)

include h in
theorem sound_initialize (hinit : isInitialize envelope = true)
    (hold : s' = (handleClientMessage clientKey now envelope message s).2) : StreamsSound s' numbered := by
  obtain ⟨hok, hsil, herased⟩ := silent_closeClient h clientKey
  have hclose : closeClient clientKey s = (.ok (), (closeClient clientKey s).2) := by rw [← hok]
  have hvac : (closeClient clientKey s).2.world.clients.lookup clientKey = none := by
    rw [herased, lookup_erase_eq, if_pos rfl]
  have hdeliver : handleClientMessage clientKey now envelope message s =
      openClient clientKey now envelope.streamId.isNone envelope.seqId message (closeClient clientKey s).2 := by
    unfold handleClientMessage
    rw [read_bind_apply]
    simp only [hinit, Bool.not_true, Bool.and_false, Bool.false_eq_true, ↓reduceIte]
    rw [bind_of_ok hclose, deliver, read_bind_apply, hvac]
    simp only [hinit, ↓reduceIte]
  rw [hold, hdeliver]
  exact (silent_openClient hsil.sound hvac now _ _ message).1

include h in
theorem keepsStreams_message (hinit : isInitialize envelope = false) :
    KeepsStreams s numbered (.handleMessage now fresh envelope) (handleClientMessage clientKey now envelope message s).2 := by
  unfold handleClientMessage
  rw [read_bind_apply]
  simp only [hinit, Bool.not_false, Bool.and_true, Bool.false_eq_true, ↓reduceIte]
  cases hfnd : s.world.clients.lookup clientKey with
  | none =>
      rw [Option.any_none, if_neg (by simp), deliver, read_bind_apply, hfnd]
      simp only [hinit, Bool.false_eq_true, ↓reduceIte]
      exact keepsStreams_of_silent (.refl h)
  | some client =>
      rw [Option.any_some]
      cases hstale : isStale client envelope.seqId with
      | true => exact keepsStreams_of_silent (.refl h)
      | false =>
          have hsend : (ClientTracker.modify (fun t =>
                { t with clients := t.clients.insert clientKey (touched client now envelope.seqId) }) >>=
              fun _ => sendTransportEvent (.incomingMessage client.connectionId message)) s = _ :=
            modify_send_of_open h.takes _
          rw [if_neg (by simp), deliver, read_bind_apply, hfnd]
          dsimp only
          rw [hsend]
          simpa [KeepsStreams, numberedBy, hinit, TransportEvent.receiver] using h.delivered hfnd now hstale message

include h in
theorem quiet_takeLegacyStreamId (envelope : ClientEnvelope) :
    StreamsSound { s with world := takeLegacyStreamId envelope s.world } numbered := by
  unfold takeLegacyStreamId
  split
  · apply h.quiet (by rfl) (by rfl) (by simp) (fun _ => by rfl)
    intro clientId streamId hfnd
    exact lookup_of_lookup_erase hfnd
  · exact h

include h in
theorem quiet_handlePing (clientKey : ClientKey) (now : Nat) :
    StreamsSound { s with world := handlePing clientKey now s.world } numbered := by
  unfold handlePing
  cases hfnd : s.world.clients.lookup clientKey with
  | none => exact h.quiet (by rfl) (by rfl) (by simp) (fun _ => by rfl) (by simp)
  | some client =>
      apply h.quiet (by rfl) (by rfl) (by simp) _ (by simp)
      intro key
      simp only [lookup_insert_eq]
      split
      next heq => rw [heq, hfnd]; rfl
      next => rfl

include h in
theorem keepsStreams_handleMessage :
    KeepsStreams s numbered (.handleMessage now fresh envelope) (handleMessage now fresh envelope s).2 := by
  have htaken := quiet_takeLegacyStreamId h envelope
  unfold handleMessage
  rw [read_bind_apply]
  change KeepsStreams s numbered _
      ((if _ then _ else _ : Tracking Unit) { s with world := takeLegacyStreamId envelope s.world }).2
  split
  · exact keepsStreams_of_silent ⟨htaken, [], by simp, rfl⟩
  · cases hevent : envelope.event with
    | clientMessage message =>
        cases hinit : isInitialize envelope with
        | true =>
            rw [KeepsStreams, numberedBy_initialize hinit, List.append_nil]
            exact sound_initialize htaken hinit rfl
        | false => exact keepsStreams_message htaken hinit
    | clientMessageChunk | ack => exact keepsStreams_of_silent ⟨htaken, [], by simp, rfl⟩
    | ping => exact keepsStreams_of_silent ⟨quiet_handlePing htaken _ now, [], (List.append_nil _).symm, rfl⟩
    | clientClosed =>
        obtain ⟨-, hsil, -⟩ := silent_closeClient htaken _
        exact keepsStreams_of_silent ⟨hsil.sound, hsil.log⟩

end

/-! ## Shutdown -/

include h in
theorem sound_shutdown (order : List ClientKey) : Silent s numbered (shutdown order s).2 ∧
      ∀ key client, (shutdown order s).2.world.clients.lookup key = some client →
        key ∉ order ∧ s.world.clients.lookup key = some client := by
  have hcancelled : StreamsSound { s with world.shutdownCancelled := true } numbered :=
    h.quiet (by rfl) (by rfl) (by simp) (fun _ => by rfl) (by simp)
  obtain ⟨hsil, hkept⟩ := closeAll_spec hcancelled order
  have hshutdown : (shutdown order s).2 =
      { (each (fun clientKey => ignoringStop (closeClient clientKey)) order
          { s with world.shutdownCancelled := true }).2 with
        world.joinSet := [] } := by
    have hreturns : ∀ clientKey s, ∃ b,
        ignoringStop (closeClient clientKey) s = (.ok b, (ignoringStop (closeClient clientKey) s).2) :=
      fun _ _ => ⟨(), rfl⟩
    obtain ⟨closed, heach⟩ := each_returns hreturns order { s with world.shutdownCancelled := true }
    have hcancel : ClientTracker.modify (fun t => { t with shutdownCancelled := true }) s =
        (.ok (), { s with world.shutdownCancelled := true }) := rfl
    rw [shutdown, bind_of_ok hcancel, bind_of_ok heach]
    rfl
  rw [hshutdown]
  refine ⟨⟨?_, hsil.log⟩, hkept⟩
  exact hsil.sound.quiet (by rfl) (by rfl) (by simp) (fun _ => by rfl) (by simp)

theorem mem_keys_of_lookup {m : HashMap ClientKey ClientState} {key : ClientKey}
    (h : m.lookup key = some client) : key ∈ m.keys :=
  AList.mem_keys.mp (AList.lookup_isSome.mp (by rw [h]; rfl))

end

/-! ## Runs -/

variable {s : Streams} {connectionId : ConnectionId}

theorem streamsSound_of_move {s' : Streams} (h : StreamsSound s.tracker s.numbered)
    (hmove : StreamsMove s a s') : StreamsSound s'.tracker s'.numbered := by
  obtain ⟨tracker, htake, rfl⟩ := Option.map_eq_some_iff.mp hmove
  have hkps : KeepsStreams s.tracker s.numbered a tracker := by
    cases a with
    | handleMessage now fresh envelope =>
        cases htake
        exact keepsStreams_handleMessage h
    | closeExpiredClients now expired =>
        simp only [take, Option.ite_none_right_eq_some] at htake
        obtain ⟨-, ⟨⟩⟩ := htake
        exact keepsStreams_of_silent (silent_closeExpiredClients h expired)
    | closeClient clientKey =>
        cases htake
        exact keepsStreams_of_silent (silent_closeClient h clientKey).2.1
    | shutdown order =>
        simp only [take, Option.ite_none_right_eq_some] at htake
        obtain ⟨-, ⟨⟩⟩ := htake
        exact keepsStreams_of_silent (sound_shutdown h order).1
    | takeConnectionId =>
        cases htake
        have hqt : StreamsSound
            { s.tracker with world.nextConnectionId := s.tracker.world.nextConnectionId + 1 } s.numbered :=
          h.quiet (by rfl) (by rfl) (by simp) (fun _ => by rfl) (by simp)
        exact keepsStreams_of_silent ⟨hqt, [], by simp, rfl⟩
  exact hkps

theorem opened_mem_of_open (h : IsOpenStream connectionId (eventsOf connectionId log)) :
    .connectionOpened connectionId ∈ log ∧ .connectionClosed connectionId ∉ log := by
  obtain ⟨messages, hmsgs⟩ := h
  constructor
  · exact (mem_eventsOf.mp (by rw [hmsgs]; exact List.mem_cons_self)).1
  · intro hcls
    have hmem := mem_eventsOf.mpr ⟨hcls, rfl⟩
    rw [TransportEvent.connectionId, hmsgs] at hmem
    simp at hmem

theorem closed_mem_of_closed
    (h : IsClosedStream connectionId (eventsOf connectionId log)) : .connectionClosed connectionId ∈ log := by
  obtain ⟨messages, hmsgs⟩ := h
  exact (mem_eventsOf.mp (by rw [hmsgs]; simp)).1

theorem closed_of_opened {s : ClientTracker} {numbered : List (ConnectionId × Nat)} (h : StreamsSound s numbered)
    (hnone : ∀ clientKey client, s.world.clients.lookup clientKey = some client → client.connectionId ≠ connectionId)
    (hopened : .connectionOpened connectionId ∈ s.log) : .connectionClosed connectionId ∈ s.log := by
  rcases h.others connectionId hnone with hemp | hcls
  · have hmem := mem_eventsOf.mpr ⟨hopened, rfl⟩
    rw [TransportEvent.connectionId, hemp] at hmem
    cases hmem
  · exact closed_mem_of_closed hcls

theorem wellFormed_of_sound (h : StreamsSound s.tracker s.numbered) : StreamsWellFormed s where
  streams connectionId := by
    by_cases hcl : ∃ clientKey client, s.tracker.world.clients.lookup clientKey = some client ∧
        client.connectionId = connectionId
    · obtain ⟨clientKey, client, hfnd, rfl⟩ := hcl
      exact .inr (.inl (h.isOpen clientKey client hfnd))
    · rcases h.others connectionId fun key client hfnd heq => hcl ⟨key, client, hfnd, heq⟩ with hemp | hcls
      · exact .inl hemp
      · exact .inr (.inr hcls)
  clients connectionId := by
    constructor
    · rintro ⟨hopened, hcls⟩
      by_contra hnone
      exact hcls (closed_of_opened h (fun key client hfnd heq => hnone ⟨key, client, hfnd, heq⟩) hopened)
    · rintro ⟨clientKey, client, hfnd, rfl⟩
      exact opened_mem_of_open (h.isOpen clientKey client hfnd)
  distinct := h.distinct
  legacy := h.legacy
  increasing := h.increasing

theorem shutdownCloses_of_sound (h : StreamsSound s.tracker s.numbered) : ShutdownCloses s a := by
  rintro order s' rfl hmove connectionId hopened
  have hsnd := streamsSound_of_move h hmove
  obtain ⟨tracker, htake, rfl⟩ := Option.map_eq_some_iff.mp hmove
  simp only [take, Option.ite_none_right_eq_some] at htake
  obtain ⟨hperm, ⟨⟩⟩ := htake
  apply closed_of_opened hsnd _ hopened
  intro key client hfnd
  obtain ⟨hnot, hold⟩ := (sound_shutdown h order).2 key client hfnd
  exact absurd (hperm.mem_iff.mpr (mem_keys_of_lookup hold)) hnot

/-- In every run over an open transport, the events of each connection are well formed, the open connections are
those of the clients, and a shutdown closes them all. -/
theorem event_streams_wellFormed (steps : List TrackerStep) :
    StatesMeet StreamsMove StreamsWellFormed {} steps ∧ StepsMeet StreamsMove ShutdownCloses {} steps := by
  have hsnd : ∀ as s, Run StreamsMove {} as s → StreamsSound s.tracker s.numbered := by
    intro as s hrun
    exact hrun.invariant (I := fun s => StreamsSound s.tracker s.numbered) streamsSound_new
      fun _ _ _ h hmove => streamsSound_of_move h hmove
  constructor
  · exact fun as s _ hrun => wellFormed_of_sound (hsnd as s hrun)
  · exact fun as a s s' _ hrun _ => shutdownCloses_of_sound (hsnd as s hrun)

end CodexStudy.RemoteControl
