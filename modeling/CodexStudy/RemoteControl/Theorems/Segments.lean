import CodexStudy.RemoteControl.Lemmas.Reassembly

/-!
# Messages after abandoned messages

A message in chunks is forwarded with its last chunk unless an older message of its stream is still under assembly
when it starts.
-/

namespace CodexStudy.RemoteControl

open CodexStudy.Lib ClientMessageState ClientSegmentReassembler List Nat ClientSegmentObservation

variable {codec : Codec} {m : SegmentedMessage codec} {s s' : ObservedState}

/-! ## Where nothing is pending -/

/-- No message of the stream of `m` is half transmitted. -/
def NothingPending (s : ObservedState) (m : SegmentedMessage codec) : Prop :=
  ∀ assembly, s.state.clientSegmentReassembler.assemblies.lookup m.clientId = some assembly →
    assembly.streamId ≠ m.streamId

/-- The assemblies of other clients that were last seen at the last reading of the clock. -/
def seenLast (s : ObservedState) (m : SegmentedMessage codec) : List AssemblyEntry :=
  s.state.clientSegmentReassembler.assemblies.entries.filter fun entry =>
    entry.1 ≠ m.clientId ∧ entry.2.lastChunkSeenAt = s.clock

/-- An assembly of the message cannot be evicted for one that was seen as late. -/
def KeepsItsPlace (s : ObservedState) (m : SegmentedMessage codec) : Prop :=
  m.chunks.length = 1 ∨ (seenLast s m).length < 28

/-- The message is later than all that was seen of its stream. -/
def IsFresh (s : ObservedState) (m : SegmentedMessage codec) : Prop :=
  ∀ seqId, Seen s m.clientId m.streamId seqId → seqId < m.seqId

theorem receiving_start (hs : Sound s) (hfr : IsFresh s m) (hlast : KeepsItsPlace s m)
    (hnone : NothingPending s m) (others : List ClientId) : Receiving m others s.clock 0 s := by
  refine ⟨.inl ⟨rfl, hnone⟩, ?_, fun hmany => ⟨(seenLast s m).map (·.1), ?_, ?_⟩, le_refl _⟩
  · intro last hcompleted
    exact hfr last (hs.completed _ _ _ hcompleted)
  · rw [length_map]
    exact hlast.resolve_left hmany.ne'
  · intro client assembly ha htime
    have hseen : assembly.lastChunkSeenAt = s.clock := le_antisymm (hs.assembly _ _ ha).2 htime
    by_cases hself : client = m.clientId
    · exact hself ▸ mem_cons_self
    · have hmem : client ∈ (seenLast s m).map (·.1) := by
        refine mem_map.mpr ⟨⟨client, assembly⟩, mem_filter.mpr ⟨AList.mem_lookup_iff.mp ha, ?_⟩, rfl⟩
        simpa using ⟨hself, hseen⟩
      exact mem_cons_of_mem _ (mem_append_right _ hmem)

/-! ## Where an older message is pending -/

def inOrder (m : SegmentedMessage codec) (now : Nat) : Nat → List (MessageChunk codec) → List ClientMessageStep
  | _, [] => []
  | i, chunk :: chunks => m.arrives i chunk now (fun _ => 0) :: inOrder m now (i + 1) chunks

variable {i now : Nat} {chunk : MessageChunk codec}

variable {chunks : List (MessageChunk codec)} {assembly : ClientSegmentAssembly}

theorem interleaved_inOrder (hdrop : m.chunks.drop i = chunks)
    (hne : chunks ≠ []) : Interleaved m [] i (inOrder m now i chunks) := by
  induction chunks generalizing i with
  | nil => exact absurd rfl hne
  | cons chunk chunks ih =>
      have hc : m.chunks[i]? = some chunk := by
        rw [← List.head?_drop, hdrop]
        rfl
      have hrest : m.chunks.drop (i + 1) = chunks := by
        rw [← List.tail_drop, hdrop]
        rfl
      have hlt : i < m.chunks.length := (List.getElem?_eq_some_iff.mp hc).1
      cases chunks with
      | nil =>
          have hall := List.drop_eq_nil_iff.mp hrest
          exact .last hc (by omega)
      | cons next chunks =>
          have hmore : i + 1 < m.chunks.length := by
            by_contra hnot
            rw [List.drop_of_length_le (by omega)] at hrest
            cases hrest
          exact .next hc hmore (ih hrest (List.cons_ne_nil _ _))

structure Lost (m : SegmentedMessage codec) (now : Nat) (s : ObservedState) : Prop where
  none : s.state.clientSegmentReassembler.assemblies.lookup m.clientId = none
  fresh : s.state.isCompleted (m.clientId, some m.streamId) m.seqId = false
  clock : s.clock = now

theorem lost_of_drop (hc : m.chunks[i]? = some chunk)
    (hfr : s.state.isCompleted (m.clientId, some m.streamId) m.seqId = false)
    (hignore : s.state.clientSegmentReassembler.shouldIgnoreChunk m.clientId m.streamId m.seqId i = false)
    (h : ((m.chunkAt i chunk).prepare (fun _ => 0) s.clock s.state.clientSegmentReassembler).assemblies.lookup
      m.clientId = some assembly) (hupd : assembly.update codec s.clock (m.chunkAt i chunk) = .drop) :
    ∃ s', ClientMessageMove codec s (m.arrives i chunk s.clock fun _ => 0) s' ∧ Lost m s.clock s' ∧
      s'.log = s.log ++ [(m.envelope i chunk, .dropped)] := by
  have hck := observeChunk_of_drop hc hignore h hupd
  have hobserve : s.state.observeClientMessage codec (fun _ => 0) s.clock (m.envelope i chunk) chunk.wireSizeBytes =
      (.dropped,
        { s.state with
          clientSegmentReassembler :=
            ((m.chunkAt i chunk).prepare (fun _ => 0) s.clock s.state.clientSegmentReassembler).removeAssembly
              m.clientId m.streamId }) := by
    rw [observe_envelope hfr hignore]
    unfold observeSegment
    have hsegment : s.state.clientSegmentReassembler.observe codec (fun _ => 0) s.clock (m.envelope i chunk) =
        s.state.clientSegmentReassembler.observeChunk codec (fun _ => 0) s.clock (m.envelope i chunk)
          (m.chunkAt i chunk) := rfl
    rw [hsegment, hck]
  refine ⟨_, move_observe.mpr ⟨le_refl _, rfl⟩, ?_, ?_⟩
  · rw [hobserve]
    refine ⟨lookup_removeAssembly_self ?_, hfr, rfl⟩
    intro assembly' ha
    have hcl : (m.chunkAt i chunk).clientId = m.clientId := rfl
    rw [← hcl] at ha
    exact prepare_stream ha
  · rw [hobserve]

theorem lost_of_pending (hs : Sound s) (hfr : IsFresh s m) (hc : m.chunks[0]? = some chunk)
    (ha : s.state.clientSegmentReassembler.assemblies.lookup m.clientId = some assembly)
    (hstr : assembly.streamId = m.streamId) :
    ∃ s', ClientMessageMove codec s (m.arrives 0 chunk s.clock fun _ => 0) s' ∧ Lost m s.clock s' ∧
      s'.log = s.log ++ [(m.envelope 0 chunk, .dropped)] := by
  have holder : assembly.metadata.seqId < m.seqId := by
    apply hfr
    rw [← hstr]
    exact (hs.assembly _ _ ha).1
  have hcompleted : s.state.isCompleted (m.clientId, some m.streamId) m.seqId = false := by
    unfold isCompleted
    cases hl : s.state.lastCompletedClientChunkSeqIdByStream.lookup (m.clientId, some m.streamId) with
    | none => rfl
    | some last =>
        have hlt := hfr last (hs.completed _ _ _ hl)
        simpa using hlt
  have hignore : s.state.clientSegmentReassembler.shouldIgnoreChunk m.clientId m.streamId m.seqId 0 = false := by
    unfold shouldIgnoreChunk
    rw [ha, Option.any_some, Bool.and_eq_false_iff]
    refine .inr ?_
    simp only [Bool.or_eq_false_iff, decide_eq_false_iff_not, Bool.and_eq_false_iff, beq_eq_false_iff_ne]
    omega
  have hsame : (m.chunkAt 0 chunk).prepare (fun _ => 0) s.clock s.state.clientSegmentReassembler =
      s.state.clientSegmentReassembler := prepare_of_stream ha hstr
  refine lost_of_drop hc hcompleted hignore (hsame ▸ ha) ?_
  unfold ClientSegmentAssembly.update
  have hnot : ¬ (m.chunkAt 0 chunk).metadata.seqId < assembly.metadata.seqId := not_lt.mpr holder.le
  have hmeta : assembly.metadata ≠ (m.chunkAt 0 chunk).metadata := by
    intro heq
    rw [heq] at holder
    exact lt_irrefl _ holder
  rw [if_neg hnot, if_pos hmeta]

theorem Lost.next (h : Lost m now s) (hc : m.chunks[i]? = some chunk) (hi : 0 < i) :
    ∃ s', ClientMessageMove codec s (m.arrives i chunk now fun _ => 0) s' ∧ Lost m now s' ∧
      s'.log = s.log ++ [(m.envelope i chunk, .dropped)] := by
  obtain rfl := h.clock
  have hignore : s.state.clientSegmentReassembler.shouldIgnoreChunk m.clientId m.streamId m.seqId i = false := by
    unfold shouldIgnoreChunk
    rw [h.none]
    rfl
  have hnone : ∀ old, s.state.clientSegmentReassembler.assemblies.lookup (m.chunkAt i chunk).clientId = some old →
      old.streamId ≠ (m.chunkAt i chunk).streamId := by
    intro old hold
    have hno := h.none.symm.trans hold
    cases hno
  refine lost_of_drop hc h.fresh hignore (lookup_prepare_self hnone) ?_
  unfold ClientSegmentAssembly.update
  refine (if_neg (lt_irrefl _)).trans ?_
  refine (if_neg (not_not_intro rfl)).trans ?_
  refine (if_neg (not_lt_zero i)).trans ?_
  exact if_pos (pos_iff_ne_zero.mp hi)

theorem Lost.rest (h : Lost m now s) (hi : 0 < i) (hdrop : m.chunks.drop i = chunks) :
    ∃ s' drops, Run (ClientMessageMove codec) s (inOrder m now i chunks) s' ∧ s'.log = s.log ++ drops ∧
      ∀ entry ∈ drops, entry.2 = .dropped := by
  induction chunks generalizing i s with
  | nil => exact ⟨s, [], .nil s, (append_nil _).symm, fun _ h => by cases h⟩
  | cons chunk chunks ih =>
      have hc : m.chunks[i]? = some chunk := by
        rw [← head?_drop, hdrop]
        rfl
      have hrest : m.chunks.drop (i + 1) = chunks := by
        rw [← tail_drop, hdrop]
        rfl
      obtain ⟨s₁, hmove, hlost, hlog₁⟩ := h.next hc hi
      obtain ⟨s', drops, hrun, hlog, hdrops⟩ := ih hlost (succ_pos i) hrest
      refine ⟨s', (m.envelope i chunk, .dropped) :: drops, .cons hmove hrun, ?_, ?_⟩
      · rw [hlog, hlog₁, append_assoc, singleton_append]
      · rw [forall_mem_cons]
        exact ⟨rfl, hdrops⟩

/-- Sent in order right after the older message, no chunk of the message forwards it. -/
theorem not_survives_of_pending (hs : Sound s) (hfr : IsFresh s m) (h : ¬ NothingPending s m) : ¬ Survives s m := by
  intro hsurv
  simp only [NothingPending, not_forall, not_not] at h
  obtain ⟨assembly, ha, hstr⟩ := h
  obtain ⟨chunk, chunks, hcks⟩ := exists_cons_of_ne_nil m.chunks_ne
  have hc : m.chunks[0]? = some chunk := by rw [hcks]; rfl
  have hrest : m.chunks.drop 1 = chunks := by rw [hcks]; rfl
  obtain ⟨s₁, hmove, hlost, hlog₁⟩ := lost_of_pending hs hfr hc ha hstr
  obtain ⟨s', drops, hrun, hlog, hdrops⟩ := hlost.rest one_pos hrest
  have hsts : Interleaved m [] 0 (inOrder m s.clock 0 (chunk :: chunks)) :=
    interleaved_inOrder hcks (cons_ne_nil _ _)
  obtain ⟨before, last, -, hdelivered⟩ := hsurv [] _ s' (zero_le _) not_mem_nil hsts (.cons hmove hrun)
  rw [hlog, hlog₁, append_assoc, append_assoc, append_cancel_left_eq] at hdelivered
  have hmem : (m.envelope (m.chunks.length - 1) last,
      forward (m.delivered (m.chunks.length - 1) last)) ∈
        [(m.envelope 0 chunk, dropped)] ++ drops := by
    rw [hdelivered]
    exact mem_append_right _ (mem_singleton_self _)
  rcases mem_append.mp hmem with hfst | hlater
  · rw [mem_singleton] at hfst
    have hkind := congrArg Prod.snd hfst
    cases hkind
  · cases hdrops _ hlater

/-! ## When messages survive -/

/-- From the state on, and as long as the stream is not closed, no seq id of a stream is forwarded twice. -/
def ForwardsOnce (codec : Codec) (s : ObservedState) : Prop :=
  ∀ steps s' clientId streamId seqId, Run (ClientMessageMove codec) s steps s' →
    (∀ step ∈ steps, ¬ ClosesStream clientId streamId step) →
      ∃ new, s'.log = s.log ++ new ∧ new.countP (Completes (clientId, some streamId) seqId) ≤ 1

theorem sound_run {past : List ClientMessageStep} (hrun : Run (ClientMessageMove codec) .new past s) : Sound s := by
  have hst : Sound .new := by
    constructor
    · intro _ _ h
      cases h
    · intro _ _ _ h
      cases h
  exact hrun.invariant hst fun _ _ _ h hmove => sound_move hmove h

/-- In every reachable state a message later than all of its stream is forwarded with its last chunk, however its
chunks are interleaved, exactly when no message of the stream is half transmitted, unless it has several chunks and 28
other clients were seen as late. No seq id is forwarded twice. -/
theorem segmentedMessage_survives_iff {past : List ClientMessageStep} (hrun : Run (ClientMessageMove codec) .new past s) :
    (IsFresh s m → KeepsItsPlace s m → (Survives s m ↔ NothingPending s m)) ∧ ForwardsOnce codec s := by
  have hs := sound_run hrun
  refine ⟨fun hfresh hlast => ⟨?_, ?_⟩, ?_⟩
  · intro hsurv
    by_contra hpend
    exact not_survives_of_pending hs hfresh hpend hsurv
  · intro hnone others steps s' hothers hself hsts hrun'
    exact (receiving_start hs hfresh hlast hnone others).delivers hothers hself hsts hrun'
  · intro steps s' clientId streamId seqId hrun' hopen
    exact completes_once_run hrun' hopen

/-! ## A message in two chunks -/

def asciiBytes (text : String) : List UInt8 := text.toList.map fun c => UInt8.ofNat c.toNat

def twoChunkCodec : Codec where
  decode text :=
    if text = "eyJtZXRob2Qi" then some (asciiBytes "\x7b\"method\"")
    else if text = "OiJwaW5nIn0=" then some (asciiBytes ":\"ping\"\x7d")
    else none
  fromSlice bytes :=
    if bytes = asciiBytes "\x7b\"method\":\"ping\"\x7d" then
      some (.notification { method := "ping", params := none })
    else none
  decode_length := by
    intro text bytes h
    split at h
    next htext => cases h; rw [htext]; decide +kernel
    next =>
      split at h
      next htext => cases h; rw [htext]; decide +kernel
      next => cases h

def firstHalf : MessageChunk twoChunkCodec where
  messageChunkBase64 := "eyJtZXRob2Qi"
  bytes := asciiBytes "\x7b\"method\""
  cursor := none
  wireSizeBytes := 200
  nonempty := by decide
  decoded := by decide +kernel
  fits := by decide

def secondHalf : MessageChunk twoChunkCodec where
  messageChunkBase64 := "OiJwaW5nIn0="
  bytes := asciiBytes ":\"ping\"\x7d"
  cursor := none
  wireSizeBytes := 200
  nonempty := by decide
  decoded := by decide +kernel
  fits := by decide

def twoChunks (seqId : Nat) : SegmentedMessage twoChunkCodec where
  clientId := "client-1"
  streamId := "stream-1"
  seqId := seqId
  message := .notification { method := "ping", params := none }
  chunks := [firstHalf, secondHalf]
  chunks_ne := cons_ne_nil _ _
  count_le := by decide
  size_pos := by decide +kernel
  size_le := by decide +kernel
  parsed := rfl

def afterChunk (s : ObservedState) (i : Nat) (chunk : MessageChunk twoChunkCodec) : ObservedState :=
  let observed := s.state.observeClientMessage twoChunkCodec (fun _ => 0) 0 ((twoChunks 0).envelope i chunk) 200
  { state := observed.2, clock := 0, log := s.log ++ [((twoChunks 0).envelope i chunk, observed.1)] }

def halfTransmitted : ObservedState := afterChunk .new 0 firstHalf

def transmitted : ObservedState := afterChunk halfTransmitted 1 secondHalf

theorem survives_after_message : Survives transmitted (twoChunks 1) := by
  have hrun : Run (ClientMessageMove twoChunkCodec) .new [(twoChunks 0).arrives 0 firstHalf 0 fun _ => 0,
      (twoChunks 0).arrives 1 secondHalf 0 fun _ => 0] transmitted :=
    .cons (move_observe.mpr ⟨le_refl _, rfl⟩) (.single (move_observe.mpr ⟨le_refl _, rfl⟩))
  have hfr : IsFresh transmitted (twoChunks 1) := by
    rintro seqId ⟨entry, hent, -, -, hseq⟩
    have hlog : ∀ entry ∈ transmitted.log, entry.1.seqId = some 0 := by decide +kernel
    cases (hlog entry hent).symm.trans hseq
    exact one_pos
  have hnone : transmitted.state.clientSegmentReassembler.assemblies.lookup "client-1".toList = none := by
    rw [← Option.isNone_iff_eq_none]
    decide +kernel
  exact ((segmentedMessage_survives_iff hrun).1 hfr (.inr (by decide +kernel))).mpr
    fun assembly ha => nomatch hnone.symm.trans ha

/-- The next message of the stream is lost. -/
theorem next_message_lost : ¬ ∀ (codec : Codec) (past : List ClientMessageStep) (s : ObservedState),
    Run (ClientMessageMove codec) .new past s → ∀ m : SegmentedMessage codec, IsFresh s m → Survives s m := by
  intro h
  have hrun : Run (ClientMessageMove twoChunkCodec) .new [(twoChunks 0).arrives 0 firstHalf 0 fun _ => 0]
      halfTransmitted := .single (move_observe.mpr ⟨le_refl _, rfl⟩)
  have hfr : IsFresh halfTransmitted (twoChunks 1) := by
    rintro seqId ⟨entry, hent, -, -, hseq⟩
    obtain rfl := mem_singleton.mp hent
    cases hseq
    exact one_pos
  have hpend : (halfTransmitted.state.clientSegmentReassembler.assemblies.lookup "client-1".toList).map
      (·.streamId) = some "stream-1".toList := by decide +kernel
  obtain ⟨assembly, ha, hstr⟩ := Option.map_eq_some_iff.mp hpend
  refine not_survives_of_pending (sound_run hrun) hfr ?_ (h twoChunkCodec _ _ hrun (twoChunks 1) hfr)
  intro hnone
  exact hnone assembly ha hstr

end CodexStudy.RemoteControl
