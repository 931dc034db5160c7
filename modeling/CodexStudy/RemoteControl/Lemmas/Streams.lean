import CodexStudy.RemoteControl.ClientTracker

/-!
# What one call does to the connections
-/

namespace CodexStudy.RemoteControl

open CodexStudy.Lib ClientTracker HashMap List TransportEvent Option

/-! ## Events -/

def TransportEvent.connectionId : TransportEvent → ConnectionId
  | connectionOpened connectionId | incomingMessage connectionId _ | connectionClosed connectionId => connectionId

variable (connectionId : ConnectionId) (events : List TransportEvent)

def eventsOf (log : List TransportEvent) : List TransportEvent :=
  log.filter (·.connectionId == connectionId)

/-- A connection that is announced, receives messages and is still open. -/
def IsOpenStream : Prop :=
  ∃ messages : List JSONRPCMessage,
    events = .connectionOpened connectionId :: messages.map (.incomingMessage connectionId)

def IsClosedStream : Prop :=
  ∃ messages : List JSONRPCMessage,
    events = .connectionOpened connectionId :: messages.map (.incomingMessage connectionId) ++
      [.connectionClosed connectionId]

/-! ## Calls -/

inductive TrackerStep where
  | handleMessage (now : Nat) (fresh : StreamId) (envelope : ClientEnvelope)
  | closeExpiredClients (now : Nat) (expired : List ClientKey)
  | closeClient (clientKey : ClientKey)
  | shutdown (order : List ClientKey)
  | takeConnectionId

/-- The calls. Another part of the program can take a connection id in between. -/
def ClientTracker.take (s : ClientTracker) : TrackerStep → Option ClientTracker
  | .handleMessage now fresh envelope => some (handleMessage now fresh envelope s).2
  | .closeExpiredClients now expired =>
      if expired.Perm (expiredClientIds s.world now) then some (closeExpiredClients expired s).2
      else none
  | .closeClient clientKey => some (closeClient clientKey s).2
  | .shutdown order =>
      if order.Perm s.world.clients.keys then some (shutdown order s).2 else none
  | .takeConnectionId => some { s with world.nextConnectionId := s.world.nextConnectionId + 1 }

def TransportEvent.receiver : TransportEvent → Option ConnectionId
  | incomingMessage connectionId _ => some connectionId
  | connectionOpened _ | connectionClosed _ => none

def numberedBy : TrackerStep → List (ConnectionId × Nat)
  | .handleMessage _ _ envelope =>
      if isInitialize envelope then []
      else (events.filterMap (·.receiver)).flatMap fun connectionId =>
        envelope.seqId.toList.map fun seqId => (connectionId, seqId)
  | _ => []

structure Streams where
  tracker : ClientTracker := .new none
  numbered : List (ConnectionId × Nat) := []

/-- The call, and what it delivers. -/
def Streams.advance (s : Streams) (step : TrackerStep) : Option Streams :=
  (s.tracker.take step).map fun tracker =>
    { tracker, numbered := s.numbered ++ numberedBy (tracker.log.drop s.tracker.log.length) step }

abbrev StreamsMove (s : Streams) (a : TrackerStep) (s' : Streams) : Prop := s.advance a = some s'

def seqIdsOf (numbered : List (ConnectionId × Nat)) : List Nat :=
  (numbered.filter (·.1 == connectionId)).map (·.2)

section

variable (connectionId : ConnectionId) (log : List TransportEvent) (event : TransportEvent)

theorem eventsOf_concat : eventsOf connectionId (log ++ [event]) =
    eventsOf connectionId log ++ if event.connectionId = connectionId then [event] else [] := by
  by_cases h : event.connectionId = connectionId <;> simp [eventsOf, h]

theorem mem_eventsOf {connectionId : ConnectionId} {log : List TransportEvent} {event : TransportEvent} :
    event ∈ eventsOf connectionId log ↔ event ∈ log ∧ event.connectionId = connectionId := by
  simp [eventsOf]

end

/-! ## The invariant -/

structure StreamsSound (s : ClientTracker) (numbered : List (ConnectionId × Nat)) : Prop where
  takes : s.world.transportTakes = none
  isOpen : ∀ clientKey client, s.world.clients.lookup clientKey = some client →
    IsOpenStream client.connectionId (eventsOf client.connectionId s.log)
  known : ∀ clientKey client, s.world.clients.lookup clientKey = some client →
    client.connectionId < s.world.nextConnectionId
  distinct : ∀ clientKey clientKey' client client', s.world.clients.lookup clientKey = some client →
    s.world.clients.lookup clientKey' = some client' → client.connectionId = client'.connectionId →
      clientKey = clientKey'
  others : ∀ connectionId,
    (∀ clientKey client, s.world.clients.lookup clientKey = some client → client.connectionId ≠ connectionId) →
      eventsOf connectionId s.log = [] ∨ IsClosedStream connectionId (eventsOf connectionId s.log)
  fresh : ∀ connectionId, s.world.nextConnectionId ≤ connectionId → eventsOf connectionId s.log = []
  legacy : ∀ clientId streamId, s.world.legacyStreamIds.lookup clientId = some streamId →
    ∃ client, s.world.clients.lookup (clientId, streamId) = some client
  increasing : ∀ connectionId, (seqIdsOf connectionId numbered).Pairwise (· < ·)
  cursor : ∀ clientKey client seqId, s.world.clients.lookup clientKey = some client →
    seqId ∈ seqIdsOf client.connectionId numbered → ∃ last, client.lastInboundSeqId = some last ∧ seqId ≤ last
  numberedKnown : ∀ connectionId seqId, seqId ∈ seqIdsOf connectionId numbered →
    connectionId < s.world.nextConnectionId

theorem streamsSound_new : StreamsSound (new none) [] where
  takes := rfl
  isOpen clientKey client h := by cases h
  known clientKey client h := by cases h
  distinct clientKey clientKey' client client' h := by cases h
  others connectionId _ := .inl rfl
  fresh connectionId _ := rfl
  legacy clientId streamId h := by cases h
  increasing connectionId := by simp [seqIdsOf]
  cursor clientKey client seqId h := by cases h
  numberedKnown connectionId seqId h := by simp [seqIdsOf] at h

/-! ## Numbers -/

section

variable {connectionId other : ConnectionId} {seqId? : Option Nat} {numbered : List (ConnectionId × Nat)}

theorem seqIdsOf_append (extra : List (ConnectionId × Nat)) :
    seqIdsOf connectionId (numbered ++ extra) = seqIdsOf connectionId numbered ++ seqIdsOf connectionId extra := by
  simp [seqIdsOf]

theorem seqIdsOf_of_ne (h : other ≠ connectionId) :
    seqIdsOf other (seqId?.toList.map fun seqId => (connectionId, seqId)) = [] := by
  cases seqId? <;> simp [seqIdsOf, h.symm]

theorem seqIdsOf_self : seqIdsOf connectionId (seqId?.toList.map fun seqId => (connectionId, seqId)) = seqId?.toList := by
  cases seqId? <;> simp [seqIdsOf]

end

/-! ## The four changes -/

section

variable {s s' : ClientTracker} {numbered : List (ConnectionId × Nat)} {clientKey : ClientKey} {client : ClientState}

theorem StreamsSound.quiet (h : StreamsSound s numbered) (htakes : s'.world.transportTakes = s.world.transportTakes)
    (hlog : s'.log = s.log) (hnext : s.world.nextConnectionId ≤ s'.world.nextConnectionId)
    (hsame : ∀ key, (s'.world.clients.lookup key).map (fun c => (c.connectionId, c.lastInboundSeqId)) =
      (s.world.clients.lookup key).map fun c => (c.connectionId, c.lastInboundSeqId))
    (hleg : ∀ clientId streamId, s'.world.legacyStreamIds.lookup clientId = some streamId →
      s.world.legacyStreamIds.lookup clientId = some streamId) : StreamsSound s' numbered := by
  have hold : ∀ key client', s'.world.clients.lookup key = some client' → ∃ client,
      s.world.clients.lookup key = some client ∧ client.connectionId = client'.connectionId ∧
        client.lastInboundSeqId = client'.lastInboundSeqId := by
    intro key client' hfnd
    have heq := hsame key
    rw [hfnd] at heq
    obtain ⟨client, hcl, hpair⟩ := map_eq_some_iff.mp heq.symm
    exact ⟨client, hcl, (Prod.mk.inj hpair).1, (Prod.mk.inj hpair).2⟩
  have hnew : ∀ key client, s.world.clients.lookup key = some client → ∃ client',
      s'.world.clients.lookup key = some client' ∧ client'.connectionId = client.connectionId := by
    intro key client hfnd
    have heq := hsame key
    rw [hfnd] at heq
    obtain ⟨client', hcl, hpair⟩ := map_eq_some_iff.mp heq
    exact ⟨client', hcl, (Prod.mk.inj hpair).1⟩
  constructor
  · rw [htakes, h.takes]
  · intro key client' hfnd
    obtain ⟨client, hcl, hid, -⟩ := hold key client' hfnd
    rw [hlog, ← hid]
    exact h.isOpen key client hcl
  · intro key client' hfnd
    obtain ⟨client, hcl, hid, -⟩ := hold key client' hfnd
    rw [← hid]
    exact (h.known key client hcl).trans_le hnext
  · intro key key' client₁ client₂ hfnd₁ hfnd₂ heq
    obtain ⟨c₁, hc₁, hid₁, -⟩ := hold key client₁ hfnd₁
    obtain ⟨c₂, hc₂, hid₂, -⟩ := hold key' client₂ hfnd₂
    exact h.distinct key key' c₁ c₂ hc₁ hc₂ (by rw [hid₁, hid₂, heq])
  · intro connectionId hnone
    rw [hlog]
    apply h.others
    intro key client hfnd
    obtain ⟨client', hcl', hid⟩ := hnew key client hfnd
    rw [← hid]
    exact hnone key client' hcl'
  · intro connectionId hle
    rw [hlog]
    exact h.fresh connectionId (hnext.trans hle)
  · intro clientId streamId hfnd
    obtain ⟨client, hcl⟩ := h.legacy clientId streamId (hleg clientId streamId hfnd)
    obtain ⟨client', hcl', -⟩ := hnew _ client hcl
    exact ⟨client', hcl'⟩
  · exact h.increasing
  · intro key client' seqId hfnd hseq
    obtain ⟨client, hcl, hid, hlast⟩ := hold key client' hfnd
    rw [← hlast]
    exact h.cursor key client seqId hcl (hid ▸ hseq)
  · intro connectionId seqId hseq
    exact (h.numberedKnown connectionId seqId hseq).trans_le hnext

theorem StreamsSound.closed (h : StreamsSound s numbered) (hfnd : s.world.clients.lookup clientKey = some client) :
    StreamsSound { world := without clientKey client s.world, log := s.log ++ [.connectionClosed client.connectionId] }
      numbered := by
  have hlk : ∀ key client', (s.world.clients.erase clientKey).lookup key = some client' →
      key ≠ clientKey ∧ s.world.clients.lookup key = some client' := by
    intro key client' hkey
    rw [lookup_erase_eq] at hkey
    split at hkey
    next => cases hkey
    next hne => exact ⟨hne, hkey⟩
  have hap : ∀ key client', (s.world.clients.erase clientKey).lookup key = some client' →
      client.connectionId ≠ client'.connectionId := by
    intro key client' hkey heq
    obtain ⟨hne, hold⟩ := hlk key client' hkey
    exact hne (h.distinct clientKey key client client' hfnd hold heq).symm
  constructor
  · exact h.takes
  · intro key client' hkey
    have hne := hap key client' hkey
    simp only [eventsOf_concat, connectionId, hne, ↓reduceIte, append_nil]
    exact h.isOpen key client' (hlk key client' hkey).2
  · exact fun key client' hkey => h.known key client' (hlk key client' hkey).2
  · exact fun key key' c c' hc hc' => h.distinct key key' c c' (hlk key c hc).2 (hlk key' c' hc').2
  · intro connectionId hnone
    by_cases heq : client.connectionId = connectionId
    · subst heq
      obtain ⟨messages, hmsgs⟩ := h.isOpen clientKey client hfnd
      exact .inr ⟨messages, by simp [eventsOf_concat, connectionId, hmsgs]⟩
    · simp only [eventsOf_concat, TransportEvent.connectionId, heq, ↓reduceIte, append_nil]
      apply h.others
      intro key client' hold
      by_cases hkey : key = clientKey
      · rw [hkey, hfnd] at hold
        cases hold
        exact heq
      · exact hnone key client' (by simp [without, hkey, hold])
  · intro connectionId hle
    have hne : client.connectionId ≠ connectionId := (Nat.ne_of_lt ((h.known clientKey client hfnd).trans_le hle))
    simp only [eventsOf_concat, TransportEvent.connectionId, hne, ↓reduceIte, append_nil]
    exact h.fresh connectionId hle
  · intro clientId streamId hstr
    have hkept : s.world.legacyStreamIds.lookup clientId = some streamId ∧ (clientId, streamId) ≠ clientKey := by
      simp only [without] at hstr
      split at hstr
      next hown =>
        rw [lookup_erase_eq] at hstr
        split at hstr
        next => cases hstr
        next hne => exact ⟨hstr, fun heq => hne (congrArg Prod.fst heq)⟩
      next hown =>
        refine ⟨hstr, fun heq => hown ?_⟩
        rw [← heq]
        exact hstr
    obtain ⟨client', hcl'⟩ := h.legacy clientId streamId hkept.1
    exact ⟨client', by simp [without, hkept.2, hcl']⟩
  · exact h.increasing
  · exact fun key client' seqId hkey => h.cursor key client' seqId (hlk key client' hkey).2
  · exact h.numberedKnown

theorem StreamsSound.delivered (h : StreamsSound s numbered) (hfnd : s.world.clients.lookup clientKey = some client)
    (now : Nat) {seqId? : Option Nat} (hstale : isStale client seqId? = false) (message : JSONRPCMessage) : StreamsSound
      { world := { s.world with clients := s.world.clients.insert clientKey (touched client now seqId?) }
        log := s.log ++ [.incomingMessage client.connectionId message] }
      (numbered ++ seqId?.toList.map fun seqId => (client.connectionId, seqId)) := by
  have hlk : ∀ key client', (s.world.clients.insert clientKey (touched client now seqId?)).lookup key = some client' →
      (key = clientKey ∧ client' = touched client now seqId?) ∨
        (client'.connectionId ≠ client.connectionId ∧ s.world.clients.lookup key = some client') := by
    intro key client' hkey
    rw [lookup_insert_eq] at hkey
    split at hkey
    next heq => exact .inl ⟨heq, (some.inj hkey).symm⟩
    next hne => exact .inr ⟨fun heq => hne (h.distinct key clientKey client' client hkey hfnd heq), hkey⟩
  constructor
  · exact h.takes
  · intro key client' hkey
    rcases hlk key client' hkey with ⟨-, rfl⟩ | ⟨hne, hold⟩
    · obtain ⟨messages, hmsgs⟩ := h.isOpen clientKey client hfnd
      refine ⟨messages ++ [message], ?_⟩
      simp [eventsOf_concat, connectionId, touched, hmsgs]
    · simp only [eventsOf_concat, connectionId, hne.symm, ↓reduceIte, append_nil]
      exact h.isOpen key client' hold
  · intro key client' hkey
    rcases hlk key client' hkey with ⟨-, rfl⟩ | ⟨-, hold⟩
    · exact h.known clientKey client hfnd
    · exact h.known key client' hold
  · intro key key' c c' hc hc' heq
    rcases hlk key c hc with ⟨rfl, rfl⟩ | ⟨hne, hold⟩
    · rcases hlk key' c' hc' with ⟨rfl, rfl⟩ | ⟨hne', -⟩
      · rfl
      · exact absurd heq.symm hne'
    · rcases hlk key' c' hc' with ⟨rfl, rfl⟩ | ⟨-, hold'⟩
      · exact absurd heq hne
      · exact h.distinct key key' c c' hold hold' heq
  · intro connectionId hnone
    have hne : client.connectionId ≠ connectionId :=
      hnone clientKey (touched client now seqId?) (by rw [lookup_insert_eq, if_pos rfl])
    simp only [eventsOf_concat, TransportEvent.connectionId, hne, ↓reduceIte, append_nil]
    apply h.others
    intro key client' hold
    by_cases hkey : key = clientKey
    · rw [hkey, hfnd] at hold
      cases hold
      exact hne
    · exact hnone key client' (by rw [lookup_insert_eq, if_neg hkey, hold])
  · intro connectionId hle
    have hne : client.connectionId ≠ connectionId := Nat.ne_of_lt ((h.known clientKey client hfnd).trans_le hle)
    simp only [eventsOf_concat, TransportEvent.connectionId, hne, ↓reduceIte, append_nil]
    exact h.fresh connectionId hle
  · intro clientId streamId hstr
    obtain ⟨client', hcl'⟩ := h.legacy clientId streamId hstr
    simp only [lookup_insert_eq]
    split
    · exact ⟨_, rfl⟩
    · exact ⟨client', hcl'⟩
  · intro connectionId
    rw [seqIdsOf_append]
    by_cases heq : connectionId = client.connectionId
    · rw [heq, seqIdsOf_self, pairwise_append]
      refine ⟨h.increasing client.connectionId, by cases seqId? <;> simp, fun old hold new hnew => ?_⟩
      -- A number that is not stale is above the cursor, and the cursor is above the numbers before.
      obtain ⟨last, hlast, hle⟩ := h.cursor clientKey client old hfnd hold
      rw [mem_toList] at hnew
      simp only [isStale, hnew, hlast, decide_eq_false_iff_not] at hstale
      omega
    · rw [seqIdsOf_of_ne heq, append_nil]
      exact h.increasing connectionId
  · intro key client' seqId hkey hseq
    rw [seqIdsOf_append, mem_append] at hseq
    rcases hlk key client' hkey with ⟨-, rfl⟩ | ⟨hne, hold⟩
    · rcases hseq with hseq | hseq
      · obtain ⟨last, hlast, hle⟩ := h.cursor clientKey client seqId hfnd hseq
        cases seqId? with
        | none => exact ⟨last, by simpa [touched] using hlast, hle⟩
        | some new =>
            simp only [isStale, hlast, decide_eq_false_iff_not] at hstale
            exact ⟨new, by simp [touched], by omega⟩
      · have hself : seqId ∈ seqId?.toList := by
          rw [← @seqIdsOf_self client.connectionId seqId?]
          exact hseq
        rw [mem_toList] at hself
        exact ⟨seqId, by simp [touched, hself], Nat.le_refl seqId⟩
    · rw [seqIdsOf_of_ne hne] at hseq
      exact h.cursor key client' seqId hold (by simpa using hseq)
  · intro connectionId seqId hseq
    rw [seqIdsOf_append, mem_append] at hseq
    by_cases heq : connectionId = client.connectionId
    · rw [heq]
      exact h.known clientKey client hfnd
    · rw [seqIdsOf_of_ne heq] at hseq
      exact h.numberedKnown connectionId seqId (by simpa using hseq)

theorem StreamsSound.announced (h : StreamsSound s numbered) (hvac : s.world.clients.lookup clientKey = none)
    (now : Nat) (isLegacyStreamId : Bool) (seqId : Option Nat) (message : JSONRPCMessage) : StreamsSound
      { world := opened clientKey s.world.nextConnectionId now isLegacyStreamId seqId
          { s.world with nextConnectionId := s.world.nextConnectionId + 1 }
        log := s.log ++ [.connectionOpened s.world.nextConnectionId] ++
          [.incomingMessage s.world.nextConnectionId message] } numbered := by
  have hlk : ∀ key client' state, (s.world.clients.insert clientKey state).lookup key = some client' →
      (key = clientKey ∧ client' = state) ∨ s.world.clients.lookup key = some client' := by
    intro key client' state hkey
    rw [lookup_insert_eq] at hkey
    split at hkey
    next heq => exact .inl ⟨heq, (some.inj hkey).symm⟩
    next => exact .inr hkey
  constructor
  · exact h.takes
  · intro key client' hkey
    rcases hlk key client' _ hkey with ⟨-, rfl⟩ | hold
    · refine ⟨[message], ?_⟩
      simp only [eventsOf_concat, connectionId, h.fresh _ (Nat.le_refl _), ↓reduceIte]
      rfl
    · have hne : s.world.nextConnectionId ≠ client'.connectionId := (Nat.ne_of_lt (h.known key client' hold)).symm
      simp only [eventsOf_concat, connectionId, hne, ↓reduceIte, append_nil]
      exact h.isOpen key client' hold
  · intro key client' hkey
    rcases hlk key client' _ hkey with ⟨-, rfl⟩ | hold
    · exact Nat.lt_succ_self _
    · exact (h.known key client' hold).trans (Nat.lt_succ_self _)
  · intro key key' c c' hc hc' heq
    rcases hlk key c _ hc with ⟨rfl, rfl⟩ | hold
    · rcases hlk key' c' _ hc' with ⟨rfl, -⟩ | hold'
      · rfl
      · exact absurd heq.symm (Nat.ne_of_lt (h.known key' c' hold'))
    · rcases hlk key' c' _ hc' with ⟨rfl, rfl⟩ | hold'
      · exact absurd heq (Nat.ne_of_lt (h.known key c hold))
      · exact h.distinct key key' c c' hold hold' heq
  · intro connectionId hnone
    have hne : s.world.nextConnectionId ≠ connectionId :=
      hnone clientKey _ (by rw [opened, lookup_insert_eq, if_pos rfl])
    simp only [eventsOf_concat, TransportEvent.connectionId, hne, ↓reduceIte, append_nil]
    apply h.others
    intro key client' hold
    by_cases hkey : key = clientKey
    · rw [hkey, hvac] at hold
      cases hold
    · exact hnone key client' (by rw [opened, lookup_insert_eq, if_neg hkey, hold])
  · intro connectionId hle
    have hlt : s.world.nextConnectionId < connectionId := hle
    simp only [eventsOf_concat, TransportEvent.connectionId, Nat.ne_of_lt hlt, ↓reduceIte, append_nil]
    exact h.fresh connectionId (Nat.le_of_lt hlt)
  · intro clientId streamId hstr
    simp only [opened, lookup_insert_eq] at hstr ⊢
    split
    · exact ⟨_, rfl⟩
    · have hold : s.world.legacyStreamIds.lookup clientId = some streamId := by
        split at hstr
        next hne _ =>
          rw [lookup_insert_eq] at hstr
          split at hstr
          next hid =>
            cases hstr
            exact absurd (by rw [hid]) hne
          next => exact hstr
        next => exact hstr
      exact h.legacy clientId streamId hold
  · exact h.increasing
  · intro key client' seqId hkey hseq
    rcases hlk key client' _ hkey with ⟨-, rfl⟩ | hold
    · exact absurd (h.numberedKnown _ seqId hseq) (Nat.lt_irrefl _)
    · exact h.cursor key client' seqId hold hseq
  · exact fun connectionId seqId hseq => (h.numberedKnown connectionId seqId hseq).trans (Nat.lt_succ_self _)

end

end CodexStudy.RemoteControl
