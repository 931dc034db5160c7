import CodexStudy.RemoteControl.Lemmas.ClientMessages

/-!
# Receiving a message chunk by chunk
-/

namespace CodexStudy.RemoteControl

open CodexStudy.Lib ClientMessageState ClientSegmentReassembler List SegmentedMessage Bool

variable {codec : Codec} {m : SegmentedMessage codec}

/-! ## The next chunk -/

namespace SegmentedMessage

def chunkAt (m : SegmentedMessage codec) (i : Nat) (chunk : MessageChunk codec) : Chunk where
  clientId := m.clientId
  streamId := m.streamId
  metadata := m.metadata
  segmentId := i
  messageChunkBase64 := chunk.messageChunkBase64

def assemblyAt (m : SegmentedMessage codec) (i seenAt : Nat) : ClientSegmentAssembly where
  streamId := m.streamId
  metadata := m.metadata
  raw := bytesOf (m.chunks.take i)
  nextSegmentId := i
  lastChunkSeenAt := seenAt

end SegmentedMessage

variable {seenAt : Nat} {r : ClientSegmentReassembler} {assembly : ClientSegmentAssembly} {state : ClientMessageState}
    {client clientId : ClientId}

section

variable {i : Nat} {chunk : MessageChunk codec}

theorem bytesOf_take_succ (hc : m.chunks[i]? = some chunk) :
    bytesOf (m.chunks.take (i + 1)) = bytesOf (m.chunks.take i) ++ chunk.bytes := by
  rw [take_add_one, hc, bytesOf, flatMap_append]
  simp [bytesOf]

theorem length_bytesOf_take_le : (bytesOf (m.chunks.take i)).length ≤ (bytesOf m.chunks).length := by
  have hspl : bytesOf m.chunks = bytesOf (m.chunks.take i) ++ bytesOf (m.chunks.drop i) := by
    rw [bytesOf, bytesOf, bytesOf, ← flatMap_append, take_append_drop]
  rw [hspl, length_append]
  exact Nat.le_add_right _ _

theorem isInvalid_chunkAt (hc : m.chunks[i]? = some chunk) : (m.chunkAt i chunk).isInvalid = false := by
  have hlt : i < m.chunks.length := (List.getElem?_eq_some_iff.mp hc).1
  have hcnt := m.count_le
  have hpos := m.size_pos
  have hsize := m.size_le
  have hne := chunk.nonempty
  have hne' : ¬ chunk.messageChunkBase64.isEmpty = true := by simpa using hne
  rw [← not_eq_true]
  intro h
  simp only [Chunk.isInvalid, chunkAt, metadata, or_eq_true,
    beq_iff_eq] at h
  rcases h with ((((h | h) | h) | h) | h) | h
  · omega
  · have := of_decide_eq_true h
    omega
  · have := of_decide_eq_true h
    omega
  · omega
  · have := of_decide_eq_true h
    omega
  · exact hne' h

theorem update_assemblyAt {now : Nat} (hc : m.chunks[i]? = some chunk) :
    (m.assemblyAt i seenAt).update codec now (m.chunkAt i chunk) =
      if i + 1 < m.chunks.length then .pending (m.assemblyAt (i + 1) now) else .complete m.message := by
  have hlt : i < m.chunks.length := (List.getElem?_eq_some_iff.mp hc).1
  have hraw := bytesOf_take_succ hc
  have hle : (bytesOf (m.chunks.take (i + 1))).length ≤ (bytesOf m.chunks).length := length_bytesOf_take_le
  have hest := codec.decode_length _ _ chunk.decoded
  -- The bytes of the chunk fit in what is left of the message.
  have hroom : ¬ min (bytesOf m.chunks).length
      ((bytesOf (m.chunks.take i)).length + decodedLenEstimate chunk.messageChunkBase64.length) -
        (bytesOf (m.chunks.take i)).length < chunk.bytes.length := by
    rw [hraw, List.length_append] at hle
    omega
  unfold ClientSegmentAssembly.update
  refine (if_neg (Nat.lt_irrefl m.seqId)).trans ?_
  refine (if_neg (not_not_intro rfl)).trans ?_
  refine (if_neg (Nat.lt_irrefl i)).trans ?_
  refine (if_neg (not_not_intro rfl)).trans ?_
  dsimp only [assemblyAt, chunkAt, metadata]
  rw [chunk.decoded]
  refine (if_neg hroom).trans ?_
  rw [← hraw]
  by_cases hnext : i + 1 < m.chunks.length
  · exact (if_pos hnext).trans (if_pos hnext).symm
  · refine ((if_neg hnext).trans ?_).trans (if_neg hnext).symm
    have hall : m.chunks.take (i + 1) = m.chunks := List.take_of_length_le (by omega)
    rw [hall, m.parsed]
    exact if_neg (not_not_intro rfl)

theorem observeChunk_of_lookup {place : ClientId → Nat} {now : Nat} (hc : m.chunks[i]? = some chunk)
    (hignore : r.shouldIgnoreChunk m.clientId m.streamId m.seqId i = false)
    (h : ((m.chunkAt i chunk).prepare place now r).assemblies.lookup m.clientId = some assembly) :
    r.observeChunk codec place now (m.envelope i chunk) (m.chunkAt i chunk) =
      match assembly.update codec now (m.chunkAt i chunk) with
      | .pending assembly => (.pending, ⟨((m.chunkAt i chunk).prepare place now r).assemblies.insert m.clientId assembly⟩)
      | .ignore => (.dropped, (m.chunkAt i chunk).prepare place now r)
      | .drop => (.dropped, ((m.chunkAt i chunk).prepare place now r).removeAssembly m.clientId m.streamId)
      | .complete message =>
          (.forward { m.envelope i chunk with event := .clientMessage message },
            ((m.chunkAt i chunk).prepare place now r).removeAssembly m.clientId m.streamId) := by
  unfold observeChunk
  have hno : ¬ r.shouldIgnoreChunk m.clientId m.streamId m.seqId i = true := by
    rw [hignore]
    exact false_ne_true
  refine (if_neg hno).trans ?_
  refine (if_neg (by rw [isInvalid_chunkAt hc]; exact false_ne_true)).trans ?_
  have hcl : (m.chunkAt i chunk).clientId = m.clientId := rfl
  dsimp only
  rw [hcl, h]
  rfl

theorem observeChunk_chunkAt {place : ClientId → Nat} {now : Nat} (hc : m.chunks[i]? = some chunk)
    (hignore : r.shouldIgnoreChunk m.clientId m.streamId m.seqId i = false)
    (h : ((m.chunkAt i chunk).prepare place now r).assemblies.lookup m.clientId = some (m.assemblyAt i seenAt)) :
    r.observeChunk codec place now (m.envelope i chunk) (m.chunkAt i chunk) =
      if i + 1 < m.chunks.length then
        (.pending,
          ⟨((m.chunkAt i chunk).prepare place now r).assemblies.insert m.clientId (m.assemblyAt (i + 1) now)⟩)
      else
        (.forward (m.delivered i chunk),
          ((m.chunkAt i chunk).prepare place now r).removeAssembly m.clientId m.streamId) := by
  rw [observeChunk_of_lookup hc hignore h, update_assemblyAt hc]
  by_cases hnext : i + 1 < m.chunks.length
  · rw [if_pos hnext, if_pos hnext]
  · rw [if_neg hnext, if_neg hnext]
    rfl

end

theorem observe_envelope {i now : Nat} {chunk : MessageChunk codec}
    {place : ClientId → Nat} (hcompleted : state.isCompleted (m.clientId, some m.streamId) m.seqId = false)
    (hignore : state.clientSegmentReassembler.shouldIgnoreChunk m.clientId m.streamId m.seqId i = false) :
    state.observeClientMessage codec place now (m.envelope i chunk) chunk.wireSizeBytes =
      state.observeSegment codec place now (m.envelope i chunk) := by
  have hstt : state.shouldIgnore (m.envelope i chunk) m.seqId = false := hignore
  have hkey : clientMessageKey (m.envelope i chunk) = some ((m.clientId, some m.streamId), m.seqId) := rfl
  have hfits := chunk.fits
  unfold observeClientMessage
  rw [hkey]
  dsimp only
  rw [hcompleted, hstt, if_neg Bool.false_ne_true, if_neg Bool.false_ne_true, if_neg (by omega)]

theorem observeChunk_of_drop {place : ClientId → Nat} {i now : Nat}
    {chunk : MessageChunk codec} (hc : m.chunks[i]? = some chunk)
    (hignore : r.shouldIgnoreChunk m.clientId m.streamId m.seqId i = false)
    (h : ((m.chunkAt i chunk).prepare place now r).assemblies.lookup m.clientId = some assembly)
    (hupd : assembly.update codec now (m.chunkAt i chunk) = .drop) :
    r.observeChunk codec place now (m.envelope i chunk) (m.chunkAt i chunk) =
      (.dropped, ((m.chunkAt i chunk).prepare place now r).removeAssembly m.clientId m.streamId) := by
  rw [observeChunk_of_lookup hc hignore h, hupd]

/-! ## The state of a message that is being received -/

/-- The first `i` chunks have arrived. If there are more than one, the other clients with assemblies that are not older
are `others` and fewer than 28 more. -/
structure Receiving (m : SegmentedMessage codec) (others : List ClientId) (time i : Nat) (s : ObservedState) :
    Prop where
  assembly : (i = 0 ∧ ∀ a, s.state.clientSegmentReassembler.assemblies.lookup m.clientId = some a →
      a.streamId ≠ m.streamId) ∨
    ∃ seenAt, 1 < m.chunks.length ∧ time ≤ seenAt ∧
      s.state.clientSegmentReassembler.assemblies.lookup m.clientId = some (m.assemblyAt i seenAt)
  fresh : ∀ last, s.state.lastCompletedClientChunkSeqIdByStream.lookup (m.clientId, some m.streamId) = some last →
    last < m.seqId
  recent : 1 < m.chunks.length → ∃ clients : List ClientId, clients.length < 28 ∧
    RecentAmong (m.clientId :: (others ++ clients)) time s.state.clientSegmentReassembler.assemblies
  clock : time ≤ s.clock

section

variable {others : List ClientId} {time i : Nat} {s s' : ObservedState} {chunk : MessageChunk codec}
  {now : Nat} {place : ClientId → Nat}

variable (h : Receiving m others time i s)

include h in
theorem Receiving.not_completed :
    s.state.isCompleted (m.clientId, some m.streamId) m.seqId = false := by
  unfold isCompleted
  cases hl : s.state.lastCompletedClientChunkSeqIdByStream.lookup (m.clientId, some m.streamId) with
  | none => rfl
  | some last =>
      have hlt := h.fresh last hl
      simpa using hlt

include h in
theorem Receiving.not_ignored :
    s.state.clientSegmentReassembler.shouldIgnoreChunk m.clientId m.streamId m.seqId i = false := by
  unfold shouldIgnoreChunk
  rcases h.assembly with ⟨-, hnone⟩ | ⟨seenAt, -, -, ha⟩
  · cases hl : s.state.clientSegmentReassembler.assemblies.lookup m.clientId with
    | none => rfl
    | some a =>
        have hs : (a.streamId == m.streamId) = false := beq_eq_false_iff_ne.mpr (hnone a hl)
        rw [Option.any_some, hs, Bool.false_and]
  · rw [ha]
    simp [assemblyAt, metadata]

include h in
theorem Receiving.prepared (chunk : MessageChunk codec) (place : ClientId → Nat)
    (hclock : s.clock ≤ now) : ∃ seenAt, time ≤ seenAt ∧
      ((m.chunkAt i chunk).prepare place now s.state.clientSegmentReassembler).assemblies.lookup m.clientId =
        some (m.assemblyAt i seenAt) := by
  rcases h.assembly with ⟨rfl, hnone⟩ | ⟨seenAt, -, htime, ha⟩
  · refine ⟨now, h.clock.trans hclock, ?_⟩
    have hoth : ∀ old, s.state.clientSegmentReassembler.assemblies.lookup (m.chunkAt 0 chunk).clientId = some old →
        old.streamId ≠ (m.chunkAt 0 chunk).streamId := hnone
    exact lookup_prepare_self hoth
  · refine ⟨seenAt, htime, ?_⟩
    have hsame : (m.chunkAt i chunk).prepare place now s.state.clientSegmentReassembler =
        s.state.clientSegmentReassembler := prepare_of_stream ha rfl
    rw [hsame]
    exact ha

include h in
/-- The next chunk is added to the assembly; with the last one the message is forwarded. -/
theorem Receiving.observe_eq (hc : m.chunks[i]? = some chunk)
    (place : ClientId → Nat) (hclock : s.clock ≤ now) : (i + 1 < m.chunks.length →
      s.state.observeClientMessage codec place now (m.envelope i chunk) chunk.wireSizeBytes = (.pending, { s.state with
            clientSegmentReassembler :=
              ⟨((m.chunkAt i chunk).prepare place now s.state.clientSegmentReassembler).assemblies.insert m.clientId
                (m.assemblyAt (i + 1) now)⟩ })) ∧
      (¬ i + 1 < m.chunks.length →
        (s.state.observeClientMessage codec place now (m.envelope i chunk) chunk.wireSizeBytes).1 =
          .forward (m.delivered i chunk)) := by
  obtain ⟨seenAt, -, hprep⟩ := h.prepared chunk place hclock
  have hck := observeChunk_chunkAt hc h.not_ignored hprep
  have hobserve : s.state.clientSegmentReassembler.observe codec place now (m.envelope i chunk) =
      s.state.clientSegmentReassembler.observeChunk codec place now (m.envelope i chunk) (m.chunkAt i chunk) := rfl
  rw [observe_envelope h.not_completed h.not_ignored]
  unfold observeSegment
  rw [hobserve, hck]
  constructor
  · intro hnext
    rw [if_pos hnext]
  · intro hlast
    rw [if_neg hlast]
    rfl

variable {envelope : ClientEnvelope} {clients : List ClientId} {wireSizeBytes : Nat}

theorem recent_observe (hmem : envelope.clientId ∈ clients)
    (h : RecentAmong clients time s.state.clientSegmentReassembler.assemblies) : RecentAmong clients time
      (s.state.observeClientMessage codec place now envelope wireSizeBytes).2.clientSegmentReassembler.assemblies := by
  intro client assembly ha htime
  rcases lookup_of_observeClientMessage ha with hold | ⟨rfl, -⟩
  · exact h client assembly hold htime
  · exact hmem

include h in
theorem Receiving.arrives (hc : m.chunks[i]? = some chunk)
    (hnext : i + 1 < m.chunks.length) (hmove : ClientMessageMove codec s (m.arrives i chunk now place) s') :
    Receiving m others time (i + 1) s' ∧ ∃ entry, s'.log = s.log ++ [entry] := by
  obtain ⟨hclock, rfl⟩ := move_observe.mp hmove
  have hobserve := (h.observe_eq hc place hclock).1 hnext
  have hmany : 1 < m.chunks.length := (Nat.le_add_left 1 i).trans_lt hnext
  obtain ⟨clients, hlen, hrecent⟩ := h.recent hmany
  refine ⟨?_, _, rfl⟩
  refine ⟨.inr ⟨now, hmany, h.clock.trans hclock, ?_⟩, ?_, fun _ => ⟨clients, hlen, ?_⟩, h.clock.trans hclock⟩
  · rw [hobserve]
    exact AList.lookup_insert _
  · rw [hobserve]
    exact h.fresh
  · have hself : (m.envelope i chunk).clientId ∈ m.clientId :: (others ++ clients) := mem_cons_self
    exact recent_observe hself hrecent

include h in
theorem Receiving.again {j : Nat} (hj : j < i) (hmove : ClientMessageMove codec s (m.arrives j chunk now place) s') :
    Receiving m others time i s' ∧ ∃ entry, s'.log = s.log ++ [entry] := by
  obtain ⟨hclock, rfl⟩ := move_observe.mp hmove
  have hignore : s.state.shouldIgnore (m.envelope j chunk) m.seqId = true := by
    rcases h.assembly with ⟨rfl, -⟩ | ⟨seenAt, -, -, ha⟩
    · omega
    · change s.state.clientSegmentReassembler.shouldIgnoreChunk m.clientId m.streamId m.seqId j = true
      unfold shouldIgnoreChunk
      rw [ha]
      simpa [assemblyAt, metadata] using hj
  have hsame : (s.state.observeClientMessage codec place now (m.envelope j chunk) chunk.wireSizeBytes).2 =
      s.state := by
    unfold observeClientMessage
    have hkey : clientMessageKey (m.envelope j chunk) = some ((m.clientId, some m.streamId), m.seqId) := rfl
    rw [hkey]
    dsimp only
    rw [h.not_completed, hignore, if_neg Bool.false_ne_true, if_pos rfl]
  refine ⟨?_, _, rfl⟩
  rw [hsame]
  exact ⟨h.assembly, h.fresh, h.recent, h.clock.trans hclock⟩

/-! ## What the others do -/

theorem observe_of_not_chunk (h : envelope.isChunk = false) :
    (state.observeClientMessage codec place now envelope wireSizeBytes).2 = state := by
  unfold ClientEnvelope.isChunk at h
  unfold observeClientMessage observeSegment ClientSegmentReassembler.observe clientMessageKey
  cases he : envelope.event with
  | clientMessageChunk segmentId segmentCount size text => rw [he] at h; cases h
  | clientMessage message => rfl
  | ack segmentId => rfl
  | ping => rfl
  | clientClosed => rfl

theorem recentAmong_filter {assemblies : HashMap ClientId ClientSegmentAssembly}
    (h : RecentAmong clients time assemblies)
    (hnone : assemblies.lookup client = none) : RecentAmong (clients.filter (· ≠ client)) time assemblies := by
  intro other assembly ha htime
  rw [mem_filter]
  refine ⟨h other assembly ha htime, ?_⟩
  have hne : other ≠ client := by
    rintro rfl
    rw [hnone] at ha
    cases ha
  simpa using hne

theorem lookup_observe_other (hne : client ≠ envelope.clientId)
    (hmem : envelope.clientId ∈ clients) (hlen : clients.length ≤ REMOTE_CONTROL_SEGMENT_ASSEMBLY_MAX_COUNT)
    (h : RecentAmong clients time s.state.clientSegmentReassembler.assemblies)
    (ha : s.state.clientSegmentReassembler.assemblies.lookup client = some assembly)
    (htime : time ≤ assembly.lastChunkSeenAt) :
    (s.state.observeClientMessage codec place now envelope wireSizeBytes).2.clientSegmentReassembler.assemblies.lookup
      client = some assembly := by
  rcases observeClientMessage_cases codec place now envelope wireSizeBytes s.state with ⟨hs, -⟩ | ⟨hs, -⟩ | ⟨hs, -⟩
  · rw [hs]
    exact ha
  · rw [hs]
    unfold invalidateAssembly
    split
    next => exact (lookup_removeAssembly_of_ne hne).trans ha
    next => exact ha
  · rw [hs, observeSegment_reassembler]
    rcases observe_cases codec place now envelope s.state.clientSegmentReassembler with hsame |
        ⟨streamId, seqId, segmentId, count, size, text, -, -, -, hck⟩
    · rw [hsame]
      exact ha
    · rw [hck]
      have hfilter : (clients.filter (· ≠ envelope.clientId)).length < clients.length := by
        apply length_filter_lt_length_iff_exists.mpr
        exact ⟨envelope.clientId, hmem, by simp⟩
      have hlt := hfilter.trans_le hlen
      exact lookup_observeChunk_of_ne hne (fun hnone => recentAmong_filter h hnone) hlt ha htime

include h in
theorem Receiving.other (hothers : others.length ≤ 100) (hself : m.clientId ∉ others)
    (he : envelope.clientId ∈ others ∨ envelope.isChunk = false)
    (hmove : ClientMessageMove codec s (.observe now place envelope wireSizeBytes) s') :
    Receiving m others time i s' ∧ ∃ entry, s'.log = s.log ++ [entry] := by
  obtain ⟨hclock, rfl⟩ := move_observe.mp hmove
  refine ⟨?_, _, rfl⟩
  by_cases hck : envelope.isChunk = false
  · rw [observe_of_not_chunk hck]
    exact ⟨h.assembly, h.fresh, h.recent, h.clock.trans hclock⟩
  · have hcl : envelope.clientId ∈ others := he.resolve_right hck
    have hne : m.clientId ≠ envelope.clientId := fun heq => hself (heq ▸ hcl)
    have hmem : ∀ clients, envelope.clientId ∈ m.clientId :: (others ++ clients) := fun _ =>
      mem_cons_of_mem _ (mem_append_left _ hcl)
    refine ⟨?_, ?_, fun hmany => ?_, h.clock.trans hclock⟩
    · rcases h.assembly with ⟨hi, hnone⟩ | ⟨seenAt, hmany, htime, ha⟩
      · refine .inl ⟨hi, fun assembly hassembly => ?_⟩
        rcases lookup_of_observeClientMessage hassembly with hold | ⟨heq, -⟩
        · exact hnone assembly hold
        · exact absurd heq hne
      · refine .inr ⟨seenAt, hmany, htime, ?_⟩
        obtain ⟨clients, hlen, hrecent⟩ := h.recent hmany
        have hcnt : (m.clientId :: (others ++ clients)).length ≤ REMOTE_CONTROL_SEGMENT_ASSEMBLY_MAX_COUNT := by
          simp only [length_cons, length_append, REMOTE_CONTROL_SEGMENT_ASSEMBLY_MAX_COUNT]
          omega
        exact lookup_observe_other hne (hmem clients) hcnt hrecent ha htime
    · intro last hlast
      rcases completed_of_observeClientMessage hlast with hold | hkey
      · exact h.fresh last hold
      · exact absurd (clientMessageKey_ids hkey).1.symm hne
    · obtain ⟨clients, hlen, hrecent⟩ := h.recent hmany
      exact ⟨clients, hlen, recent_observe (hmem clients) hrecent⟩

include h in
theorem Receiving.streamCloses {streamId : StreamId} (hne : (clientId, streamId) ≠ (m.clientId, m.streamId))
    (hmove : ClientMessageMove codec s (.invalidateStream clientId streamId) s') :
    Receiving m others time i s' ∧ s'.log = s.log := by
  cases hmove
  refine ⟨⟨?_, ?_, fun hmany => ?_, h.clock⟩, rfl⟩
  · rcases h.assembly with ⟨hi, hnone⟩ | ⟨seenAt, hmany, htime, ha⟩
    · exact .inl ⟨hi, fun assembly hassembly => hnone assembly (lookup_of_removeAssembly hassembly)⟩
    · refine .inr ⟨seenAt, hmany, htime, lookup_removeAssembly_of_stream_ne ha ?_⟩
      rintro rfl rfl
      exact hne rfl
  · intro last hlast
    exact h.fresh last (HashMap.lookup_of_lookup_erase hlast)
  · obtain ⟨clients, hlen, hrecent⟩ := h.recent hmany
    exact ⟨clients, hlen, fun client assembly ha => hrecent client assembly (lookup_of_removeAssembly ha)⟩

include h in
theorem Receiving.clientCloses (hne : clientId ≠ m.clientId)
    (hmove : ClientMessageMove codec s (.invalidateClient clientId) s') :
    Receiving m others time i s' ∧ s'.log = s.log := by
  cases hmove
  refine ⟨⟨?_, ?_, fun hmany => ?_, h.clock⟩, rfl⟩
  · rcases h.assembly with ⟨hi, hnone⟩ | ⟨seenAt, hmany, htime, ha⟩
    · exact .inl ⟨hi, fun assembly hassembly => hnone assembly (HashMap.lookup_of_lookup_erase hassembly)⟩
    · exact .inr ⟨seenAt, hmany, htime, (AList.lookup_erase_ne hne.symm).trans ha⟩
  · intro last hlast
    have hretain : (s.state.lastCompletedClientChunkSeqIdByStream.retain fun key => key.1 ≠ clientId).lookup
        (m.clientId, some m.streamId) = some last := hlast
    rw [HashMap.lookup_retain] at hretain
    split at hretain
    next => exact h.fresh last hretain
    next => cases hretain
  · obtain ⟨clients, hlen, hrecent⟩ := h.recent hmany
    exact ⟨clients, hlen, hrecent.erase clientId⟩

/-! ## All chunks -/

theorem Delivers.of_entry {s₁ : ObservedState} {entry : ClientEnvelope × ClientSegmentObservation}
    (h : Delivers m s₁ s') (hent : s₁.log = s.log ++ [entry]) : Delivers m s s' := by
  obtain ⟨before, last, hlast, hlog⟩ := h
  refine ⟨entry :: before, last, hlast, ?_⟩
  rw [hlog, hent, append_assoc s.log, singleton_append]

include h in
theorem Receiving.delivers (hothers : others.length ≤ 100)
    (hself : m.clientId ∉ others) {steps : List ClientMessageStep} (hsts : Interleaved m others i steps)
    (hrun : Run (ClientMessageMove codec) s steps s') : Delivers m s s' := by
  induction hsts generalizing s with
  | @last i chunk now place hc hlast =>
      obtain ⟨hclock, rfl⟩ := move_observe.mp hrun.single_inv
      have hi : m.chunks.length - 1 = i := by omega
      refine ⟨[], chunk, ?_, ?_⟩
      · rw [getLast?_eq_getElem?, hi]
        exact hc
      · rw [(h.observe_eq hc _ hclock).2 (by omega), hi, append_nil]
  | next hc hnext _ ih =>
      cases hrun with
      | cons hmove hrun =>
          obtain ⟨h', entry, hent⟩ := h.arrives hc hnext hmove
          exact (ih h' hrun).of_entry hent
  | again _ hj _ ih =>
      cases hrun with
      | cons hmove hrun =>
          obtain ⟨h', entry, hent⟩ := h.again hj hmove
          exact (ih h' hrun).of_entry hent
  | other he _ ih =>
      cases hrun with
      | cons hmove hrun =>
          obtain ⟨h', entry, hent⟩ := h.other hothers hself he hmove
          exact (ih h' hrun).of_entry hent
  | streamCloses hne _ ih =>
      cases hrun with
      | cons hmove hrun =>
          obtain ⟨h', hsame⟩ := h.streamCloses hne hmove
          obtain ⟨before, last, hlast, hlog⟩ := ih h' hrun
          exact ⟨before, last, hlast, by rw [hlog, hsame]⟩
  | clientCloses hne _ ih =>
      cases hrun with
      | cons hmove hrun =>
          obtain ⟨h', hsame⟩ := h.clientCloses hne hmove
          obtain ⟨before, last, hlast, hlog⟩ := ih h' hrun
          exact ⟨before, last, hlast, by rw [hlog, hsame]⟩

end

end CodexStudy.RemoteControl
