import CodexStudy.RemoteControl.Outbound

/-!
# Envelopes in the buffer and on the wire
-/

namespace CodexStudy.RemoteControl

open CodexStudy.Lib List BoundedOutboundBuffer OutboundSystem OutboundState Option

variable {μ : Type} {codec : ServerCodec μ}

/-! ## Cursors -/

theorem Cursor.lt_iff {a b : Cursor} : Cursor.lt a b = true ↔ a.1 < b.1 ∨ a.1 = b.1 ∧ a.2 < b.2 := by
  simp [Cursor.lt]

/-- The envelopes are in the order of their cursors. -/
def Increasing (envelopes : List (ServerEnvelope μ)) : Prop :=
  envelopes.Pairwise fun a b => a.cursor.lt b.cursor = true

structure Ordered (seqId : Nat) (envelopes : List (ServerEnvelope μ)) : Prop where
  below : ∀ e ∈ envelopes, e.seqId < seqId
  increasing : Increasing envelopes

variable {seqId : Nat} {envelopes parts : List (ServerEnvelope μ)} {order : List StreamKey} {key : StreamKey}

theorem ordered_nil : Ordered seqId ([] : List (ServerEnvelope μ)) :=
  ⟨fun _ he => (not_mem_nil he).elim, List.Pairwise.nil⟩

theorem Ordered.sublist {fewer : List (ServerEnvelope μ)} (h : Ordered seqId envelopes)
    (hs : fewer.Sublist envelopes) : Ordered seqId fewer :=
  ⟨fun e he => h.below e (hs.subset he), h.increasing.sublist hs⟩

theorem Ordered.append {old new : List (ServerEnvelope μ)} {later : Nat} (hold : Ordered seqId old)
    (hnew : Increasing new) (heq : ∀ e ∈ new, e.seqId = seqId) (hlt : seqId < later) : Ordered later (old ++ new) := by
  constructor
  · intro e he
    rcases mem_append.mp he with he | he
    · exact (hold.below e he).trans hlt
    · rw [heq e he]
      exact hlt
  · refine pairwise_append.mpr ⟨hold.increasing, hnew, ?_⟩
    intro a ha b hb
    have h := hold.below a ha
    rw [← heq b hb] at h
    exact Cursor.lt_iff.mpr (.inl h)

/-! ## Splitting -/

structure IsSplitOf (envelope : ServerEnvelope μ) (parts : List (ServerEnvelope μ)) : Prop where
  key : ∀ e ∈ parts, e.streamKey = envelope.streamKey
  seq : ∀ e ∈ parts, e.seqId = envelope.seqId
  order : Increasing parts

theorem isSplitOf_nil {envelope : ServerEnvelope μ} : IsSplitOf envelope [] := by
  constructor
  · intro e he; cases he
  · intro e he; cases he
  · exact List.Pairwise.nil

theorem isSplitOf_self (envelope : ServerEnvelope μ) : IsSplitOf envelope [envelope] := by
  constructor
  · intro e he; rw [mem_singleton.mp he]
  · intro e he; rw [mem_singleton.mp he]
  · exact pairwise_singleton _ _

def segments (codec : ServerCodec μ) (envelope : ServerEnvelope μ) (raw : List UInt8) (chunkSize : Nat) :
    List (ServerEnvelope μ) :=
  (raw.toChunks chunkSize).zipIdx.map fun (chunk, segmentId) =>
    { envelope with
      event := .serverMessageChunk segmentId (divCeil raw.length chunkSize) raw.length (codec.encode chunk) }

def WithinMax (codec : ServerCodec μ) (envelope : ServerEnvelope μ) : Prop :=
  ∃ size ∈ serializedLen codec envelope, size ≤ REMOTE_CONTROL_SEGMENT_MAX_BYTES

/-- There are not too many chunks, and none is too large. -/
structure Fits (codec : ServerCodec μ) (envelope : ServerEnvelope μ) (raw : List UInt8) (chunkSize : Nat) : Prop where
  count : divCeil raw.length chunkSize ≤ REMOTE_CONTROL_SEGMENT_COUNT_MAX
  size : ∀ part ∈ segments codec envelope raw chunkSize, WithinMax codec part

inductive TriedFrom (size : Nat) : Nat → Nat → Prop
  | here (count : Nat) : TriedFrom size count (chunkSizeFor size count)
  | later {count chunkSize : Nat} : chunkSizeFor size count ≠ 1 →
      TriedFrom size (nextSegmentCount size (chunkSizeFor size count) (divCeil size (chunkSizeFor size count)))
        chunkSize → TriedFrom size count chunkSize

section

variable {envelope : ServerEnvelope μ} {raw : List UInt8} {chunkSize count : Nat}

theorem flatten_toChunks_go {n : Nat} (xs : List UInt8) (chunk : Array UInt8) (done : Array (List UInt8)) :
    (toChunks.go n xs chunk done).flatten = done.toList.flatten ++ chunk.toList ++ xs := by
  induction xs generalizing chunk done with
  | nil => simp [toChunks.go]
  | cons x xs ih =>
      unfold toChunks.go
      split
      · rw [ih]
        simp
      · rw [ih]
        simp

theorem flatten_toChunks (n : Nat) (xs : List UInt8) : (xs.toChunks n).flatten = xs := by
  cases xs with
  | nil => simp [toChunks]
  | cons x xs =>
      cases n with
      | zero => simp [toChunks]
      | succ n => simp [toChunks, flatten_toChunks_go]

theorem buildChunkEnvelope_eq_some (h : count ≤ REMOTE_CONTROL_SEGMENT_COUNT_MAX) (segmentId size : Nat)
    (chunk : List UInt8) : buildChunkEnvelope codec envelope segmentId count size chunk =
      some { envelope with event := .serverMessageChunk segmentId count size (codec.encode chunk) } :=
  if_neg (Nat.not_lt.mpr h)

theorem all_chunks_iff : ((raw.toChunks chunkSize).zipIdx.all fun entry =>
      (serializedChunkLen codec envelope entry.2 (divCeil raw.length chunkSize) raw.length entry.1).any
        (· ≤ REMOTE_CONTROL_SEGMENT_MAX_BYTES)) = true ↔ Fits codec envelope raw chunkSize := by
  have hsize : ∀ entry : List UInt8 × Nat, divCeil raw.length chunkSize ≤ REMOTE_CONTROL_SEGMENT_COUNT_MAX →
      ((serializedChunkLen codec envelope entry.2 (divCeil raw.length chunkSize) raw.length entry.1).any
        (· ≤ REMOTE_CONTROL_SEGMENT_MAX_BYTES) = true ↔
      WithinMax codec { envelope with
        event := .serverMessageChunk entry.2 (divCeil raw.length chunkSize) raw.length (codec.encode entry.1) }) := by
    intro entry hcnt
    rw [serializedChunkLen, buildChunkEnvelope_eq_some hcnt, Option.bind_some, Option.any_eq_true]
    simp [WithinMax]
  have hcnt : ((raw.toChunks chunkSize).zipIdx.all fun entry =>
      (serializedChunkLen codec envelope entry.2 (divCeil raw.length chunkSize) raw.length entry.1).any
        (· ≤ REMOTE_CONTROL_SEGMENT_MAX_BYTES)) = true →
      divCeil raw.length chunkSize ≤ REMOTE_CONTROL_SEGMENT_COUNT_MAX := by
    intro h
    cases hcks : raw.toChunks chunkSize with
    | nil =>
        have hraw : raw = [] := by rw [← flatten_toChunks chunkSize raw, hcks, flatten_nil]
        rw [hraw, divCeil, length_nil, Nat.zero_add]
        cases chunkSize with
        | zero => decide
        | succ n => rw [Nat.add_sub_cancel, Nat.div_eq_of_lt n.lt_succ_self]; exact Nat.zero_le _
    | cons chunk rest =>
        rw [hcks, zipIdx_cons, all_cons, Bool.and_eq_true] at h
        by_contra hgt
        rw [serializedChunkLen, buildChunkEnvelope, if_pos (Nat.not_le.mp hgt)] at h
        cases h.1
  constructor
  · intro h
    refine ⟨hcnt h, fun part hpart => ?_⟩
    obtain ⟨entry, hent, rfl⟩ := mem_map.mp hpart
    exact (hsize entry (hcnt h)).mp (all_eq_true.mp h entry hent)
  · intro h
    refine all_eq_true.mpr fun entry hent => (hsize entry h.count).mpr ?_
    exact h.size _ (mem_map_of_mem hent)

theorem mapM_chunks (h : Fits codec envelope raw chunkSize) : ((raw.toChunks chunkSize).zipIdx.mapM fun entry =>
      buildChunkEnvelope codec envelope entry.2 (divCeil raw.length chunkSize) raw.length entry.1) =
    some (segments codec envelope raw chunkSize) := by
  simp only [buildChunkEnvelope_eq_some h.count]
  exact mapM_pure

theorem splitLoop_spec (codec : ServerCodec μ) (envelope : ServerEnvelope μ) (raw : List UInt8) (count : Nat) :
    (splitLoop codec envelope raw count = some [] ∧
      ∀ chunkSize, TriedFrom raw.length count chunkSize → ¬ Fits codec envelope raw chunkSize) ∨
    ∃ chunkSize, TriedFrom raw.length count chunkSize ∧ Fits codec envelope raw chunkSize ∧
      splitLoop codec envelope raw count = some (segments codec envelope raw chunkSize) := by
  induction count using splitLoop.induct codec envelope raw with
  | case1 count chunkSize count' chunks hfit =>
      rw [splitLoop, if_pos hfit]
      exact Or.inr ⟨chunkSize, .here count, all_chunks_iff.mp hfit, mapM_chunks (all_chunks_iff.mp hfit)⟩
  | case2 count chunkSize count' chunks hfit hone =>
      rw [splitLoop, if_neg hfit, if_pos hone]
      refine Or.inl ⟨rfl, fun tried htried => ?_⟩
      cases htried with
      | here => exact fun h => hfit (all_chunks_iff.mpr h)
      | later hne _ => exact absurd hone hne
  | case3 count chunkSize count' chunks hfit hone ih =>
      rw [splitLoop, if_neg hfit, if_neg hone]
      rcases ih with ⟨hnone, htried⟩ | ⟨tried, htried, hfits, heq⟩
      · refine Or.inl ⟨hnone, fun tried h => ?_⟩
        cases h with
        | here => exact fun h => hfit (all_chunks_iff.mpr h)
        | later _ h => exact htried tried h
      · exact Or.inr ⟨tried, .later hone htried, hfits, heq⟩

theorem isSplitOf_segments : IsSplitOf envelope (segments codec envelope raw chunkSize) := by
  refine ⟨fun e he => ?_, fun e he => ?_, ?_⟩
  · obtain ⟨_, _, rfl⟩ := mem_map.mp he
    rfl
  · obtain ⟨_, _, rfl⟩ := mem_map.mp he
    rfl
  · refine pairwise_map.mpr (pairwise_iff_getElem.mpr fun i j hi hj hij => Cursor.lt_iff.mpr (Or.inr ⟨rfl, ?_⟩))
    rw [getElem_zipIdx, getElem_zipIdx]
    change 0 + i < 0 + j
    omega

theorem isSplitOf_splitLoop (h : splitLoop codec envelope raw count = some parts) :
    IsSplitOf envelope parts := by
  rcases splitLoop_spec codec envelope raw count with ⟨hnone, _⟩ | ⟨chunkSize, _, _, heq⟩
  · cases h.symm.trans hnone
    exact isSplitOf_nil
  · cases h.symm.trans heq
    exact isSplitOf_segments

end

theorem isSplitOf_split {envelope : ServerEnvelope μ}
    (h : splitServerEnvelopeForTransport codec envelope = some parts) : IsSplitOf envelope parts := by
  unfold splitServerEnvelopeForTransport at h
  split at h
  next message _ =>
    obtain ⟨len, -, h⟩ := bind_eq_some_iff.mp h
    split at h
    next => cases h; exact isSplitOf_self _
    next =>
      obtain ⟨raw, -, h⟩ := bind_eq_some_iff.mp h
      split at h
      next => cases h; exact isSplitOf_nil
      next =>
        obtain ⟨minimal, -, h⟩ := bind_eq_some_iff.mp h
        split at h
        next => cases h; exact isSplitOf_nil
        next => exact isSplitOf_splitLoop h
  next => cases h; exact isSplitOf_self _

/-! ## The counter -/

def countEntries : List (Sigma fun _ : StreamKey => List (ServerEnvelope μ)) → Nat
  | [] => 0
  | entry :: entries => entry.2.length + countEntries entries

def BoundedOutboundBuffer.count (b : BoundedOutboundBuffer μ) : Nat := countEntries b.bufferByStream.entries

theorem countEntries_kerase (key : StreamKey) (entries : List (Sigma fun _ : StreamKey => List (ServerEnvelope μ))) :
    countEntries entries = ((entries.dlookup key).getD []).length + countEntries (entries.kerase key) := by
  induction entries with
  | nil => rfl
  | cons entry entries ih =>
      obtain ⟨key', queue⟩ := entry
      by_cases h : key = key'
      · subst h
        have herase : ((⟨key, queue⟩ : Sigma fun _ : StreamKey => List (ServerEnvelope μ)) :: entries).kerase key =
            entries := kerase_cons_eq rfl
        rw [dlookup_cons_eq, herase]
        rfl
      · rw [dlookup_cons_ne _ _ h, kerase_cons_ne h]
        simp only [countEntries]
        omega

variable {b : BoundedOutboundBuffer μ}

theorem count_eq (key : StreamKey) (b : BoundedOutboundBuffer μ) :
    b.count = (b.queue key).length + countEntries (b.bufferByStream.entries.kerase key) :=
  countEntries_kerase key b.bufferByStream.entries

theorem queue_insert (envelope : ServerEnvelope μ) (key : StreamKey) :
    (b.insert envelope).queue key =
      b.queue key ++ if key = envelope.streamKey then [envelope] else [] := by
  unfold BoundedOutboundBuffer.insert BoundedOutboundBuffer.queue
  rw [HashMap.lookup_insert_eq]
  split
  next h => rw [h]; rfl
  next => rw [List.append_nil]

theorem counted_insert (h : b.used = b.count) (envelope : ServerEnvelope μ) :
    (b.insert envelope).used = (b.insert envelope).count := by
  have hcnt := count_eq envelope.streamKey b
  have haft : (b.insert envelope).count =
      (b.queue envelope.streamKey ++ [envelope]).length +
        countEntries (b.bufferByStream.entries.kerase envelope.streamKey) := by
    unfold BoundedOutboundBuffer.count BoundedOutboundBuffer.insert
    rw [AList.entries_insert]
    rfl
  have hused : (b.insert envelope).used = b.used + 1 := rfl
  rw [haft, hused, List.length_append, List.length_singleton]
  omega

theorem queue_insertAll (payloads : List (ServerEnvelope μ)) (b : BoundedOutboundBuffer μ) (key : StreamKey) :
    (payloads.foldl (·.insert ·) b).queue key = b.queue key ++ payloads.filter fun e => e.streamKey = key := by
  induction payloads generalizing b with
  | nil => rw [foldl_nil, filter_nil, append_nil]
  | cons envelope payloads ih =>
      rw [foldl_cons, ih, queue_insert, append_assoc, filter_cons]
      by_cases h : envelope.streamKey = key
      · rw [if_pos h.symm, if_pos (by simpa using h), singleton_append]
      · rw [if_neg (fun heq => h heq.symm), if_neg (by simpa using h), nil_append]

theorem counted_insertAll (payloads : List (ServerEnvelope μ)) (h : b.used = b.count) :
    (payloads.foldl (·.insert ·) b).used = (payloads.foldl (·.insert ·) b).count := by
  induction payloads generalizing b with
  | nil => exact h
  | cons envelope payloads ih => exact ih (counted_insert h envelope)

/-- With a counter that counts the queue and more, the acknowledged envelopes are taken out and counted off. -/
theorem retainUnacked_eq (acked : Cursor) (queue : List (ServerEnvelope μ)) {more : Nat} :
    retainUnacked acked queue (queue.length + more) =
      some (queue.filter (fun e => !e.cursor.le acked), (queue.filter fun e => !e.cursor.le acked).length + more) := by
  induction queue generalizing more with
  | nil => rfl
  | cons envelope queue ih =>
      rw [filter_cons]
      unfold retainUnacked
      cases hle : envelope.cursor.le acked with
      | true =>
          have hlen : (envelope :: queue).length + more = (queue.length + more) + 1 := by
            rw [length_cons]
            omega
          rw [if_pos rfl, hlen]
          dsimp only
          rw [ih]
          rfl
      | false =>
          have hlen : (envelope :: queue).length + more = queue.length + (more + 1) := by
            rw [length_cons]
            omega
          rw [if_neg Bool.false_ne_true, hlen, ih, map_some]
          simp only [Bool.not_false, if_true, length_cons, some.injEq, Prod.mk.injEq, true_and]
          omega

/-- Where the counter is right, an acknowledgement does not fail, takes the acknowledged envelopes out of the one queue,
and leaves the counter right. -/
theorem ack_eq (h : b.used = b.count) (clientId : ClientId) (streamId : StreamId) (ackedSeqId : Nat)
    (ackedSegmentId : Option Nat) :
    ∃ b', b.ack clientId streamId ackedSeqId ackedSegmentId = some b' ∧ b'.used = b'.count ∧
      ∀ key, b'.queue key =
        if key = (clientId, streamId) then
          (b.queue key).filter fun e => !e.cursor.le (ackedCursor ackedSeqId ackedSegmentId)
        else b.queue key := by
  unfold BoundedOutboundBuffer.ack
  cases hq : b.bufferByStream.lookup (clientId, streamId) with
  | none =>
      refine ⟨b, rfl, h, fun key => ?_⟩
      split
      next hkey =>
        have hqueue : b.queue key = [] := by
          rw [hkey, queue, hq]
          rfl
        rw [hqueue]
        rfl
      next => rfl
  | some queue =>
      have hqueue : b.queue (clientId, streamId) = queue := by
        rw [BoundedOutboundBuffer.queue, hq]
        rfl
      have hcnt := count_eq (clientId, streamId) b
      rw [hqueue] at hcnt
      dsimp only
      rw [h, hcnt, retainUnacked_eq, map_some]
      dsimp only
      split
      next hemp =>
        rw [List.isEmpty_iff] at hemp
        refine ⟨_, rfl, ?_, fun key => ?_⟩
        · rw [hemp, List.length_nil, Nat.zero_add]
          rfl
        · unfold BoundedOutboundBuffer.queue
          rw [HashMap.lookup_erase_eq]
          split
          next hkey =>
            rw [hkey, hq]
            exact hemp.symm
          next => rfl
      next =>
        refine ⟨_, rfl, ?_, fun key => ?_⟩
        · unfold BoundedOutboundBuffer.count
          rw [AList.entries_insert]
          rfl
        · unfold BoundedOutboundBuffer.queue
          rw [HashMap.lookup_insert_eq]
          split
          next hkey =>
            rw [hkey, hq]
            rfl
          next => rfl

/-! ## A message that is queued -/

theorem OutboundState.seqIdFor_insert (nextSeqIdByStream : HashMap StreamKey Nat) (b : BoundedOutboundBuffer μ)
    (key key' : StreamKey) (seqId : Nat) :
    seqIdFor ⟨b, nextSeqIdByStream.insert key seqId⟩ key' =
      if key' = key then seqId else seqIdFor ⟨b, nextSeqIdByStream⟩ key' := by
  unfold seqIdFor
  rw [HashMap.lookup_insert_eq]
  split <;> rfl

structure Enqueues (codec : ServerCodec μ) (key : StreamKey) (s s' : OutboundState μ)
    (payloads : List (ServerEnvelope μ)) : Prop where
  own : ∀ e ∈ payloads, e.streamKey = key
  seq : ∀ e ∈ payloads, e.seqId = s.seqIdFor key
  writable : ∀ e ∈ payloads, (codec.serialize e).isSome = true
  increasing : Increasing payloads
  queue : ∀ key', s'.outboundBuffer.queue key' =
    s.outboundBuffer.queue key' ++ if key' = key then payloads else []
  counted : s.outboundBuffer.used = s.outboundBuffer.count → s'.outboundBuffer.used = s'.outboundBuffer.count
  other : ∀ key', key' ≠ key → s'.seqIdFor key' = s.seqIdFor key'
  next : s'.seqIdFor key = nextSeqId (s.seqIdFor key) ∨ s'.seqIdFor key = s.seqIdFor key ∧ payloads = []

theorem enqueues (codec : ServerCodec μ) (queued : QueuedServerEnvelope μ) (s : OutboundState μ) :
    Enqueues codec (queued.clientId, queued.streamId) s (s.enqueue codec queued).1 (s.enqueue codec queued).2 := by
  unfold enqueue
  dsimp only
  cases hspl : splitServerEnvelopeForTransport codec
      { event := queued.event, clientId := queued.clientId, streamId := queued.streamId,
        seqId := s.seqIdFor (queued.clientId, queued.streamId) } with
  | none =>
      constructor
      · intro e he; cases he
      · intro e he; cases he
      · intro e he; cases he
      · exact List.Pairwise.nil
      · intro key'
        rw [ite_self, append_nil]
      · exact id
      · intro key' hne
        rw [seqIdFor_insert, if_neg hne]
      · refine .inr ⟨?_, rfl⟩
        rw [seqIdFor_insert, if_pos rfl]
  | some parts =>
      have hpts := isSplitOf_split hspl
      have hown : ∀ e ∈ parts.filter fun e => (codec.serialize e).isSome,
          e.streamKey = (queued.clientId, queued.streamId) :=
        fun e he => hpts.key e (mem_of_mem_filter he)
      constructor
      · exact hown
      · exact fun e he => hpts.seq e (mem_of_mem_filter he)
      · exact fun e he => (mem_filter.mp he).2
      · exact hpts.order.filter _
      · intro key'
        refine (queue_insertAll _ _ key').trans ?_
        congr 1
        split
        next hkey =>
          refine filter_eq_self.mpr fun e he => ?_
          rw [hkey]
          simpa using hown e he
        next hkey =>
          refine filter_eq_nil_iff.mpr fun e he => ?_
          have hne : e.streamKey ≠ key' := fun heq => hkey (heq.symm.trans (hown e he))
          simpa using hne
      · exact fun h => counted_insertAll _ h
      · intro key' hne
        rw [seqIdFor_insert, if_neg hne, seqIdFor_insert, if_neg hne]
        rfl
      · refine .inl ?_
        rw [seqIdFor_insert, if_pos rfl]

/-! ## The invariant -/

def WriterPhase.toWrite : WriterPhase μ → List (ServerEnvelope μ)
  | replaying envelopes | sending envelopes => envelopes
  | _ => []

def ofStream (key : StreamKey) (envelopes : List (ServerEnvelope μ)) : List (ServerEnvelope μ) :=
  envelopes.filter fun e => e.streamKey = key

def OutboundSystem.line (s : OutboundSystem μ) (key : StreamKey) : List (ServerEnvelope μ) :=
  ofStream key (s.written ++ s.phase.toWrite)

/-- What has been sent of the stream, compared with what the writer found in the buffer. -/
def Replays (s : OutboundSystem μ) (key : StreamKey) : Prop :=
  match s.phase with
  | .connected => s.written = []
  | .disconnected =>
      ofStream key s.written <+: s.replayed.queue key ∨ s.replayed.queue key <+: ofStream key s.written
  | .replaying _ => s.line key = s.replayed.queue key
  | _ => s.replayed.queue key <+: ofStream key s.written

structure OutboundSound (codec : ServerCodec μ) (s : OutboundSystem μ) : Prop where
  counted : s.state.outboundBuffer.used = s.state.outboundBuffer.count
  own : ∀ key, ∀ e ∈ s.state.outboundBuffer.queue key, e.streamKey = key
  writable : ∀ key, ∀ e ∈ s.state.outboundBuffer.queue key, (codec.serialize e).isSome = true
  toWrite : ∀ e ∈ s.phase.toWrite, (codec.serialize e).isSome = true
  replays : ∀ key, Replays s key
  queueOrdered : ∀ key, s.state.seqIdFor key < U64_MAX →
    Ordered (s.state.seqIdFor key) (s.state.outboundBuffer.queue key)
  lineOrdered : ∀ key, s.state.seqIdFor key < U64_MAX → Ordered (s.state.seqIdFor key) (s.line key)

theorem outboundSound_new : OutboundSound codec (.new : OutboundSystem μ) := by
  constructor
  · rfl
  · intro key e he; cases he
  · intro key e he; cases he
  · intro e he; cases he
  · intro key; exact .inl (prefix_refl _)
  · intro key _; exact ordered_nil
  · intro key _; exact ordered_nil

section

variable {s s' : OutboundSystem μ}

theorem ofStream_append (key : StreamKey) (xs ys : List (ServerEnvelope μ)) :
    ofStream key (xs ++ ys) = ofStream key xs ++ ofStream key ys := filter_append _ _

theorem ofStream_serverEnvelopes
    (hown : ∀ key, ∀ e ∈ b.queue key, e.streamKey = key) (horder : order.Nodup) (key : StreamKey) :
    ofStream key (b.serverEnvelopes order) = if key ∈ order then b.queue key else [] := by
  unfold serverEnvelopes
  induction order with
  | nil => rfl
  | cons first order ih =>
      obtain ⟨hfst, horder⟩ := nodup_cons.mp horder
      rw [flatMap_cons, ofStream_append, ih horder]
      by_cases h : key = first
      · subst h
        have hall : ofStream key (b.queue key) = b.queue key := by
          refine filter_eq_self.mpr fun e he => ?_
          simpa using hown key e he
        rw [hall, if_neg hfst, if_pos mem_cons_self, append_nil]
      · have hnone : ofStream key (b.queue first) = [] := by
          refine filter_eq_nil_iff.mpr fun e he => ?_
          have hne : e.streamKey ≠ key := fun heq => h (heq.symm.trans (hown first e he))
          simpa using hne
        have hmem : key ∈ first :: order ↔ key ∈ order := by
          rw [mem_cons, or_iff_right h]
        rw [hnone, nil_append]
        simp only [hmem]

theorem queue_eq_nil (h : key ∉ b.bufferByStream.keys) :
    b.queue key = [] := by
  unfold queue
  rw [AList.lookup_eq_none.mpr h]
  rfl

variable (h : OutboundSound codec s)

include h in
theorem sound_of_line (hstt : s'.state = s.state)
    (hline : ∀ key, (s'.line key).Sublist (s.line key)) (hwr : ∀ e ∈ s'.phase.toWrite, e ∈ s.phase.toWrite)
    (hrpl : ∀ key, Replays s' key) : OutboundSound codec s' := by
  constructor
  · rw [hstt]; exact h.counted
  · rw [hstt]; exact h.own
  · rw [hstt]; exact h.writable
  · exact fun e he => h.toWrite e (hwr e he)
  · exact hrpl
  · rw [hstt]; exact h.queueOrdered
  · rw [hstt]; exact fun key hkey => (h.lineOrdered key hkey).sublist (hline key)

include h in
theorem sound_connect (hmove : OutboundMove codec s .connect s') :
    OutboundSound codec s' := by
  unfold OutboundMove advance at hmove
  dsimp only at hmove
  split at hmove
  next =>
    cases hmove
    refine sound_of_line h rfl (fun key => nil_sublist _) ?_ fun key => rfl
    intro e he
    cases he
  next => cases hmove

theorem written_sublist (key : StreamKey) : (ofStream key s.written).Sublist (s.line key) := by
  unfold line
  rw [ofStream_append]
  exact sublist_append_left _ _

theorem line_eq {phase : WriterPhase μ} (h : s.phase = phase) (key : StreamKey) :
    s.line key = ofStream key (s.written ++ phase.toWrite) := by
  unfold line
  rw [h]

/-- In every phase, what has been sent of the stream and what the writer found agree as far as they go. -/
theorem Replays.agrees (h : Replays s key) :
    ofStream key s.written <+: s.replayed.queue key ∨ s.replayed.queue key <+: ofStream key s.written := by
  unfold Replays at h
  split at h
  next =>
    rw [h]
    exact .inl nil_prefix
  next => exact h
  next =>
    rw [← h]
    unfold line
    rw [ofStream_append]
    exact .inl (prefix_append _ _)
  next => exact .inr h

include h in
theorem sound_disconnect (hmove : OutboundMove codec s .disconnect s') :
    OutboundSound codec s' := by
  cases hmove
  refine sound_of_line h rfl (fun key => ?_) ?_ fun key => (h.replays key).agrees
  · have hline : ({ s with phase := .disconnected } : OutboundSystem μ).line key = ofStream key (s.written ++ []) := rfl
    rw [hline, append_nil]
    exact written_sublist key
  · intro e he
    cases he

include h in
theorem sound_readBuffer
    (hmove : OutboundMove codec s (.readBuffer order) s') : OutboundSound codec s' := by
  unfold OutboundMove advance at hmove
  dsimp only at hmove
  split at hmove
  next hph =>
    split at hmove
    next hperm =>
      cases hmove
      have hwr : s.written = [] := by
        have hst := h.replays ([], [])
        unfold Replays at hst
        rw [hph] at hst
        exact hst
      have hnd : order.Nodup := hperm.nodup_iff.mpr (AList.keys_nodup _)
      have hfnd : ∀ key, ofStream key (s.written ++ s.state.outboundBuffer.serverEnvelopes order) =
          s.state.outboundBuffer.queue key := by
        intro key
        rw [hwr, nil_append, ofStream_serverEnvelopes h.own hnd]
        split
        next => rfl
        next hnot => exact (queue_eq_nil fun hmem => hnot (hperm.mem_iff.mpr hmem)).symm
      refine ⟨h.counted, h.own, h.writable, ?_, hfnd, h.queueOrdered, fun key hkey => ?_⟩
      · intro e he
        obtain ⟨key, -, he⟩ := mem_flatMap.mp he
        exact h.writable key e he
      · have hord := h.queueOrdered key hkey
        rw [← hfnd key] at hord
        exact hord
    next => cases hmove
  next => cases hmove

theorem sound_sent {phase : List (ServerEnvelope μ) → WriterPhase μ} {envelope : ServerEnvelope μ}
    {rest : List (ServerEnvelope μ)} (h : OutboundSound codec s) (hph : s.phase = phase (envelope :: rest))
    (htoWrite : ∀ l, (phase l).toWrite = l)
    (hrpl : ∀ key, Replays { s with phase := phase rest, written := s.written ++ [envelope] } key) :
    OutboundSound codec { s with phase := phase rest, written := s.written ++ [envelope] } := by
  refine sound_of_line h rfl (fun key => ?_) ?_ hrpl
  · rw [line_eq hph, line_eq rfl, htoWrite, htoWrite, append_assoc, singleton_append]
  · intro e he
    rw [hph, htoWrite]
    have hrest : e ∈ rest := by
      rw [← htoWrite rest]
      exact he
    exact mem_cons_of_mem _ hrest

include h in
theorem sound_waiting (hrpl : ∀ key, s.replayed.queue key <+: ofStream key s.written) :
    OutboundSound codec { s with phase := .waiting } := by
  refine sound_of_line h rfl (fun key => ?_) ?_ hrpl
  · have hline : ({ s with phase := .waiting } : OutboundSystem μ).line key = ofStream key (s.written ++ []) := rfl
    rw [hline, append_nil]
    exact written_sublist key
  · intro e he
    cases he

include h in
theorem sound_send (hmove : OutboundMove codec s .send s') : OutboundSound codec s' := by
  unfold OutboundMove advance at hmove
  dsimp only at hmove
  split at hmove
  next envelopes hph =>
    have hline : ∀ key, ofStream key (s.written ++ envelopes) = s.replayed.queue key := by
      intro key
      have hrpl := h.replays key
      unfold Replays at hrpl
      rw [hph] at hrpl
      exact (line_eq hph key).symm.trans hrpl
    cases hmove
    cases envelopes with
    | nil =>
        refine sound_waiting h fun key => ?_
        rw [← hline key, append_nil]
    | cons envelope rest =>
        have hwritable : (codec.serialize envelope).isSome = true :=
          h.toWrite envelope (by rw [hph]; exact mem_cons_self)
        unfold sendNext
        dsimp only
        rw [if_pos hwritable]
        refine sound_sent h hph (fun _ => rfl) fun key => ?_
        have hkey := hline key
        rw [append_cons] at hkey
        exact hkey
  next payloads hph =>
    have hfnd : ∀ key, s.replayed.queue key <+: ofStream key s.written := by
      intro key
      have hrpl := h.replays key
      unfold Replays at hrpl
      rw [hph] at hrpl
      exact hrpl
    cases hmove
    cases payloads with
    | nil => exact sound_waiting h hfnd
    | cons envelope rest =>
        have hwritable : (codec.serialize envelope).isSome = true :=
          h.toWrite envelope (by rw [hph]; exact mem_cons_self)
        unfold sendNext
        dsimp only
        rw [if_pos hwritable]
        refine sound_sent h hph (fun _ => rfl) fun key => ?_
        refine (hfnd key).trans ?_
        unfold ofStream
        rw [filter_append]
        exact prefix_append _ _
  next => cases hmove

theorem sound_receive {queued : QueuedServerEnvelope μ} (h : OutboundSound codec s)
    (hmove : OutboundMove codec s (.receive queued) s') : OutboundSound codec s' := by
  unfold OutboundMove advance at hmove
  dsimp only at hmove
  split at hmove
  next hph =>
    split at hmove
    next =>
      cases hmove
      refine sound_of_line h rfl (fun key => ?_) ?_ fun key => ?_
      · rw [line_eq hph, line_eq rfl]
        exact List.Sublist.refl _
      · intro e he
        cases he
      · have hrpl := h.replays key
        unfold Replays at hrpl
        rw [hph] at hrpl
        exact hrpl
    next => cases hmove
  next => cases hmove

theorem Enqueues.ordered {key₀ : StreamKey} {old new : OutboundState μ} {payloads : List (ServerEnvelope μ)}
    (hq : Enqueues codec key₀ old new payloads) (hlt : new.seqIdFor key < U64_MAX)
    (h : old.seqIdFor key < U64_MAX → Ordered (old.seqIdFor key) envelopes) :
    Ordered (new.seqIdFor key) (envelopes ++ if key = key₀ then payloads else []) := by
  split
  next hk =>
    subst hk
    rcases hq.next with hnext | ⟨hsame, hnone⟩
    · -- The next seq id is not the largest one, so it is a later one.
      have hsucc : old.seqIdFor key < new.seqIdFor key := by
        rw [hnext] at hlt ⊢
        unfold nextSeqId at hlt ⊢
        omega
      exact (h (hsucc.trans hlt)).append hq.increasing hq.seq hsucc
    · rw [hsame] at hlt ⊢
      rw [hnone, append_nil]
      exact h hlt
  next hk =>
    rw [hq.other key hk] at hlt ⊢
    rw [append_nil]
    exact h hlt

include h in
theorem sound_enqueue (hmove : OutboundMove codec s .enqueue s') :
    OutboundSound codec s' := by
  unfold OutboundMove advance at hmove
  dsimp only at hmove
  split at hmove
  next queued hph =>
    have hq := enqueues codec queued s.state
    cases hmove
    generalize (s.state.enqueue codec queued).1 = new at hq
    generalize (s.state.enqueue codec queued).2 = payloads at hq
    generalize (queued.clientId, queued.streamId) = key₀ at hq
    have hmem : ∀ {key e}, e ∈ new.outboundBuffer.queue key →
        e ∈ s.state.outboundBuffer.queue key ∨ key = key₀ ∧ e ∈ payloads := by
      intro key e he
      rw [hq.queue key] at he
      rcases mem_append.mp he with hold | hnew
      · exact .inl hold
      · split at hnew
        next hk => exact .inr ⟨hk, hnew⟩
        next => cases hnew
    have hline : ∀ key, ofStream key (s.written ++ payloads) = s.line key ++ if key = key₀ then payloads else [] := by
      intro key
      rw [ofStream_append, line_eq hph]
      have hnothing : s.written ++ (WriterPhase.received queued).toWrite = s.written := append_nil _
      rw [hnothing]
      congr 1
      split
      next hk =>
        refine filter_eq_self.mpr fun e he => ?_
        rw [hk]
        simpa using hq.own e he
      next hk =>
        refine filter_eq_nil_iff.mpr fun e he => ?_
        have hne : e.streamKey ≠ key := fun heq => hk (heq.symm.trans (hq.own e he))
        simpa using hne
    constructor
    · exact hq.counted h.counted
    · intro key e he
      rcases hmem he with hold | ⟨rfl, hnew⟩
      · exact h.own key e hold
      · exact hq.own e hnew
    · intro key e he
      rcases hmem he with hold | ⟨-, hnew⟩
      · exact h.writable key e hold
      · exact hq.writable e hnew
    · exact hq.writable
    · intro key
      have hrpl := h.replays key
      unfold Replays at hrpl
      rw [hph] at hrpl
      exact hrpl
    · intro key hlt
      have hord := hq.ordered hlt (h.queueOrdered key)
      rw [← hq.queue key] at hord
      exact hord
    · intro key hlt
      have hord := hq.ordered hlt (h.lineOrdered key)
      rw [← hline key] at hord
      exact hord
  next => cases hmove

theorem sound_ack {clientId : ClientId} {streamId : StreamId} {ackedSeqId : Nat} {ackedSegmentId : Option Nat}
    (h : OutboundSound codec s) (hmove : OutboundMove codec s (.ack clientId streamId ackedSeqId ackedSegmentId) s') :
    OutboundSound codec s' := by
  obtain ⟨b, hack, hcounted, hq⟩ := ack_eq h.counted clientId streamId ackedSeqId ackedSegmentId
  unfold OutboundMove advance at hmove
  dsimp only at hmove
  rw [hack, map_some] at hmove
  cases hmove
  have hsublist : ∀ key, (b.queue key).Sublist (s.state.outboundBuffer.queue key) := by
    intro key
    rw [hq key]
    split
    next => exact filter_sublist
    next => exact List.Sublist.refl _
  exact ⟨hcounted, fun key e he => h.own key e ((hsublist key).subset he),
    fun key e he => h.writable key e ((hsublist key).subset he), h.toWrite, h.replays,
    fun key hlt => (h.queueOrdered key hlt).sublist (hsublist key), h.lineOrdered⟩

theorem sound_outboundMove {a : OutboundStep μ} (h : OutboundSound codec s) (hmove : OutboundMove codec s a s') :
    OutboundSound codec s' := by
  cases a with
  | connect => exact sound_connect h hmove
  | readBuffer order => exact sound_readBuffer h hmove
  | send => exact sound_send h hmove
  | receive queued => exact sound_receive h hmove
  | enqueue => exact sound_enqueue h hmove
  | ack clientId streamId ackedSeqId ackedSegmentId => exact sound_ack h hmove
  | disconnect => exact sound_disconnect h hmove

end

end CodexStudy.RemoteControl
