import CodexStudy.RemoteControl.Lemmas.Outbound

/-!
# Splitting a server message

What is returned is the envelope itself or a segmentation of the message.
-/

namespace CodexStudy.RemoteControl

open CodexStudy.Lib List Nat Or Option

variable {μ : Type} {codec : ServerCodec μ} {envelope : ServerEnvelope μ} {raw : List UInt8} {chunkSize count : Nat}

structure Serializes (codec : ServerCodec μ) : Prop where
  serialize : ∀ envelope, (codec.serialize envelope).isSome
  toVec : ∀ message, ∃ raw, codec.toVec message = some raw ∧ raw ≠ []

/-- The parts are chunks of the message in their order, not too many and none too large. -/
structure SegmentedInto (codec : ServerCodec μ) (envelope : ServerEnvelope μ) (raw : List UInt8)
    (parts : List (ServerEnvelope μ)) : Prop where
  chunks : ∃ chunks : List (List UInt8), chunks.flatten = raw ∧ parts = chunks.zipIdx.map fun (chunk, segmentId) =>
    { envelope with event := .serverMessageChunk segmentId parts.length raw.length (codec.encode chunk) }
  count : parts.length ≤ REMOTE_CONTROL_SEGMENT_COUNT_MAX
  within : ∀ part ∈ parts, WithinMax codec part

def MinimalFits (codec : ServerCodec μ) (envelope : ServerEnvelope μ) (raw : List UInt8) : Prop :=
  WithinMax codec { envelope with
    event := .serverMessageChunk 0 (min (max raw.length 1) REMOTE_CONTROL_SEGMENT_COUNT_MAX) raw.length
      (codec.encode (raw.take 1)) }

def FindsSegmentation (codec : ServerCodec μ) (envelope : ServerEnvelope μ) (raw : List UInt8) : Prop :=
  (∃ chunkSize, 0 < chunkSize ∧ Fits codec envelope raw chunkSize) →
    MinimalFits codec envelope raw ∧
      ∃ chunkSize, TriedFrom raw.length (max 2 (divCeil raw.length REMOTE_CONTROL_SEGMENT_TARGET_BYTES)) chunkSize ∧
        Fits codec envelope raw chunkSize

/-! ## Chunks -/

variable {n size fuel : Nat} {part : ServerEnvelope (List UInt8)}

theorem length_toChunks_go (xs : List UInt8) (chunk : Array UInt8) (done : Array (List UInt8))
    (hlow : 0 < chunk.size) (hhigh : chunk.size ≤ n) :
    (toChunks.go n xs chunk done).length = done.size + divCeil (chunk.size + xs.length) n := by
  induction xs generalizing chunk done with
  | nil =>
      have hone : divCeil chunk.size n = 1 := Nat.div_eq_of_lt_le (by omega) (by omega)
      simp [toChunks.go, hone]
  | cons x xs ih =>
      unfold toChunks.go
      split
      · rename_i hfull
        have hnext : divCeil (n + (xs.length + 1)) n = divCeil (1 + xs.length) n + 1 := by
          unfold divCeil
          rw [← Nat.add_div_right _ (by omega)]
          congr 1
          omega
        rw [ih _ _ (by simp) (by simp; omega), beq_iff_eq.mp hfull, length_cons, hnext]
        simp
        omega
      · rename_i hnot
        have hne : chunk.size ≠ n := fun h => hnot (beq_iff_eq.mpr h)
        rw [ih _ _ (by simp) (by simp; omega)]
        simp
        congr 1
        omega

theorem length_toChunks (hpos : 0 < chunkSize) (raw : List UInt8) :
    (raw.toChunks chunkSize).length = divCeil raw.length chunkSize := by
  obtain ⟨n, rfl⟩ := exists_eq_succ_of_ne_zero hpos.ne'
  cases raw with
  | nil => simp [toChunks, divCeil, div_eq_of_lt]
  | cons byte raw =>
      have hgo : (byte :: raw).toChunks n.succ = toChunks.go n.succ raw #[byte] #[] := by simp [toChunks]
      rw [hgo, length_toChunks_go _ _ _ (by simp) (by simp)]
      simp
      congr 1
      omega

theorem TriedFrom.pos (h : TriedFrom size count chunkSize) : 0 < chunkSize := by
  induction h with
  | here count => exact Nat.le_max_left _ _
  | later _ _ ih => exact ih

theorem Fits.segmentedInto (h : Fits codec envelope raw chunkSize) (hpos : 0 < chunkSize) :
    SegmentedInto codec envelope raw (segments codec envelope raw chunkSize) := by
  have hlen : (segments codec envelope raw chunkSize).length = divCeil raw.length chunkSize := by
    rw [segments, length_map, length_zipIdx, length_toChunks hpos]
  refine ⟨⟨raw.toChunks chunkSize, flatten_toChunks chunkSize raw, ?_⟩, ?_, h.size⟩
  · rw [hlen]
    rfl
  · rw [hlen]
    exact h.count

/-! ## The search -/

theorem withinMax_iff (hsize : serializedLen codec envelope = some size) :
    WithinMax codec envelope ↔ size ≤ REMOTE_CONTROL_SEGMENT_MAX_BYTES := by
  simp [WithinMax, hsize]

/-- What a message is split into, whether the search is reached or not. -/
inductive SplitCase (codec : ServerCodec μ) (envelope : ServerEnvelope μ) (raw : List UInt8) :
    List (ServerEnvelope μ) → Prop
  | whole : WithinMax codec envelope → SplitCase codec envelope raw [envelope]
  | dropped : ¬ WithinMax codec envelope →
      REMOTE_CONTROL_REASSEMBLED_MAX_BYTES < raw.length ∨ ¬ MinimalFits codec envelope raw →
      SplitCase codec envelope raw []
  | searched {parts : List (ServerEnvelope μ)} : ¬ WithinMax codec envelope →
      raw.length ≤ REMOTE_CONTROL_REASSEMBLED_MAX_BYTES → MinimalFits codec envelope raw →
      splitLoop codec envelope raw (max 2 (divCeil raw.length REMOTE_CONTROL_SEGMENT_TARGET_BYTES)) = some parts →
      SplitCase codec envelope raw parts

theorem exists_splitCase (hcodec : Serializes codec) {message : μ} (hevent : envelope.event = .serverMessage message)
    (hraw : codec.toVec message = some raw) :
    ∃ parts, splitServerEnvelopeForTransport codec envelope = some parts ∧ SplitCase codec envelope raw parts := by
  have hlen : ∀ envelope, ∃ size, serializedLen codec envelope = some size := by
    intro envelope
    obtain ⟨bytes, hbytes⟩ := isSome_iff_exists.mp (hcodec.serialize envelope)
    exact ⟨bytes.length, by rw [serializedLen, hbytes]; rfl⟩
  obtain ⟨size, hsize⟩ := hlen envelope
  have hminimal : min (max raw.length 1) REMOTE_CONTROL_SEGMENT_COUNT_MAX ≤ REMOTE_CONTROL_SEGMENT_COUNT_MAX :=
    min_le_right _ _
  obtain ⟨minimalSize, hminimalSize⟩ := hlen { envelope with
    event := .serverMessageChunk 0 (min (max raw.length 1) REMOTE_CONTROL_SEGMENT_COUNT_MAX) raw.length
      (codec.encode (raw.take 1)) }
  unfold splitServerEnvelopeForTransport
  rw [hevent]
  dsimp only
  rw [hsize, bind_eq_bind, bind_some]
  split
  · rename_i hle
    exact ⟨_, rfl, .whole ((withinMax_iff hsize).mpr hle)⟩
  · rename_i hlarge
    have hlarge : ¬ WithinMax codec envelope := mt (withinMax_iff hsize).mp hlarge
    rw [hraw, bind_eq_bind, bind_some]
    split
    · rename_i hmax
      exact ⟨_, rfl, .dropped hlarge (inl hmax)⟩
    · rename_i hmax
      rw [serializedChunkLen, buildChunkEnvelope_eq_some hminimal, bind_some, hminimalSize, bind_some]
      split
      · rename_i hlt
        refine ⟨_, rfl, .dropped hlarge (inr fun h => ?_)⟩
        exact absurd ((withinMax_iff hminimalSize).mp h) (not_le.mpr hlt)
      · rename_i hle
        have hfits : MinimalFits codec envelope raw := (withinMax_iff hminimalSize).mpr (not_lt.mp hle)
        obtain ⟨parts, hpts⟩ : ∃ parts, splitLoop codec envelope raw
            (max 2 (divCeil raw.length REMOTE_CONTROL_SEGMENT_TARGET_BYTES)) = some parts := by
          rcases splitLoop_spec codec envelope raw _ with ⟨hnone, _⟩ | ⟨_, _, _, hsome⟩
          · exact ⟨_, hnone⟩
          · exact ⟨_, hsome⟩
        exact ⟨parts, hpts, .searched hlarge (not_lt.mp hmax) hfits hpts⟩

theorem segments_ne_nil (hraw : raw ≠ []) : segments codec envelope raw chunkSize ≠ [] := by
  intro h
  rw [segments, map_eq_nil_iff, zipIdx_eq_nil_iff] at h
  exact hraw (by rw [← flatten_toChunks chunkSize raw, h, flatten_nil])

/-- The result is empty, the envelope itself, or a segmentation of the message; it is empty only for a message that is
too large or has no fitting segmentation exactly if the search finds one. -/
theorem split_faithful_iff (codec : ServerCodec μ) (hcodec : Serializes codec) (envelope : ServerEnvelope μ)
    (message : μ) (hevent : envelope.event = .serverMessage message) :
    ∃ parts raw, splitServerEnvelopeForTransport codec envelope = some parts ∧ codec.toVec message = some raw ∧
      (parts = [] ∨ parts = [envelope] ∧ WithinMax codec envelope ∨
        ¬ WithinMax codec envelope ∧ SegmentedInto codec envelope raw parts) ∧
      ((parts = [] → REMOTE_CONTROL_REASSEMBLED_MAX_BYTES < raw.length ∨
          ∀ chunkSize, 0 < chunkSize → ¬ Fits codec envelope raw chunkSize) ↔
        (¬ WithinMax codec envelope → raw.length ≤ REMOTE_CONTROL_REASSEMBLED_MAX_BYTES →
          FindsSegmentation codec envelope raw)) := by
  obtain ⟨raw, hraw, hne⟩ := hcodec.toVec message
  obtain ⟨parts, hpts, hcase⟩ := exists_splitCase hcodec hevent hraw
  refine ⟨parts, raw, hpts, hraw, ?_⟩
  cases hcase with
  | whole hin =>
      exact ⟨inr (inl ⟨rfl, hin⟩), fun _ hlarge => absurd hin hlarge, fun _ h => nomatch h⟩
  | dropped hlarge hreason =>
      refine ⟨inl rfl, fun h _ hmax hfits => ?_, fun h _ => ?_⟩
      · obtain ⟨chunkSize, hpos, hfits⟩ := hfits
        exact absurd hfits (((h rfl).resolve_left (not_lt.mpr hmax)) chunkSize hpos)
      · by_cases hmax : REMOTE_CONTROL_REASSEMBLED_MAX_BYTES < raw.length
        · exact inl hmax
        · refine inr fun chunkSize hpos hfits => (hreason.resolve_left hmax) ?_
          exact (h hlarge (not_lt.mp hmax) ⟨chunkSize, hpos, hfits⟩).1
  | searched hlarge hmax hminimal hloop =>
      rcases splitLoop_spec codec envelope raw _ with ⟨hnone, htried⟩ | ⟨chunkSize, htried, hfits, hsome⟩
      · cases hloop.symm.trans hnone
        refine ⟨inl rfl, fun h _ _ hfits => ?_, fun h _ => inr fun chunkSize hpos hfits => ?_⟩
        · obtain ⟨chunkSize, hpos, hfits⟩ := hfits
          exact absurd hfits (((h rfl).resolve_left (not_lt.mpr hmax)) chunkSize hpos)
        · obtain ⟨_, tried, htried', hfits'⟩ := h hlarge hmax ⟨chunkSize, hpos, hfits⟩
          exact htried tried htried' hfits'
      · cases hloop.symm.trans hsome
        refine ⟨inr (inr ⟨hlarge, hfits.segmentedInto htried.pos⟩), fun _ _ _ _ => ⟨hminimal, _, htried, hfits⟩,
          fun _ h => absurd h (segments_ne_nil hne)⟩

/-! ## A client with a long id -/

def digits (n : Nat) : Nat := (toDigits 10 n).length

/-- The bytes of an envelope without its ids. A message is its own JSON. -/
def eventCost : ServerEvent (List UInt8) → Nat
  | .serverMessage message => 76 + message.length
  | .serverMessageChunk segmentId segmentCount size chunk =>
      150 + digits segmentId + digits segmentCount + digits size + chunk.length
  | .ack | .pong _ => 60

def lengthCodec : ServerCodec (List UInt8) where
  serialize envelope :=
    some (replicate (eventCost envelope.event + envelope.clientId.length + envelope.streamId.length +
      digits envelope.seqId) 0)
  toVec message := some (0 :: message.tail)
  encode chunk := replicate ((chunk.length + 2) / 3 * 4) 'A'

theorem serializes_lengthCodec : Serializes lengthCodec := ⟨fun _ => rfl, fun _ => ⟨_, rfl, cons_ne_nil _ _⟩⟩

def hundredBytes (clientId : ClientId) : ServerEnvelope (List UInt8) :=
  ⟨.serverMessage (replicate 100 0), clientId, [], 1⟩

def triedSizes (size : Nat) : Nat → Nat → List Nat
  | 0, _ => []
  | fuel + 1, count =>
      let chunkSize := chunkSizeFor size count
      chunkSize :: if chunkSize = 1 then [] else
        triedSizes size fuel (nextSegmentCount size chunkSize (divCeil size chunkSize))

theorem mem_triedSizes (h : TriedFrom size count chunkSize)
    (hend : 1 ∈ triedSizes size fuel count) : chunkSize ∈ triedSizes size fuel count := by
  induction h generalizing fuel with
  | here count =>
      cases fuel with
      | zero => cases hend
      | succ fuel => exact mem_cons_self
  | later hne _ ih =>
      cases fuel with
      | zero => cases hend
      | succ fuel =>
          rw [triedSizes, if_neg hne] at hend ⊢
          exact mem_cons_of_mem _ (ih ((mem_cons.mp hend).resolve_left (Ne.symm hne)))

theorem triedFrom_of_mem (h : chunkSize ∈ triedSizes size fuel count) :
    TriedFrom size count chunkSize := by
  induction fuel generalizing count with
  | zero => cases h
  | succ fuel ih =>
      rw [triedSizes] at h
      split at h
      · exact mem_singleton.mp h ▸ .here count
      · rename_i hne
        rcases mem_cons.mp h with rfl | h
        · exact .here count
        · exact .later hne (ih h)

theorem serializedLen_lengthCodec (envelope : ServerEnvelope (List UInt8)) :
    serializedLen lengthCodec envelope = some (eventCost envelope.event + envelope.clientId.length +
      envelope.streamId.length + digits envelope.seqId) := congrArg some length_replicate

theorem digits_one : digits 1 = 1 := by decide +kernel

theorem withinMax_segment (h : part ∈ segments lengthCodec (hundredBytes (replicate n 'c')) raw chunkSize) :
    WithinMax lengthCodec part ↔ eventCost part.event + n + 1 ≤ REMOTE_CONTROL_SEGMENT_MAX_BYTES := by
  obtain ⟨entry, _, rfl⟩ := mem_map.mp h
  rw [withinMax_iff (serializedLen_lengthCodec _)]
  simp [hundredBytes, digits_one]

theorem withinMax_hundredBytes : WithinMax lengthCodec (hundredBytes (replicate n 'c')) ↔
    176 + n + 1 ≤ REMOTE_CONTROL_SEGMENT_MAX_BYTES := by
  rw [withinMax_iff (serializedLen_lengthCodec _)]
  simp [hundredBytes, eventCost, digits_one]

theorem withinMax_of_cost (cost : Nat)
    (hall : ∀ part ∈ segments lengthCodec (hundredBytes (replicate n 'c')) (replicate 100 0) chunkSize,
      eventCost part.event ≤ cost) (hcost : cost + n + 1 ≤ REMOTE_CONTROL_SEGMENT_MAX_BYTES)
    (h : part ∈ segments lengthCodec (hundredBytes (replicate n 'c')) (replicate 100 0) chunkSize) :
    WithinMax lengthCodec part := by
  have hpart := hall part h
  refine (withinMax_segment h).mpr ?_
  omega

/-- With an id of 153424 characters the message is sent in chunks of 13 bytes. -/
theorem hundred_bytes_split : ∃ parts raw,
    splitServerEnvelopeForTransport lengthCodec (hundredBytes (replicate 153424 'c')) = some parts ∧
      lengthCodec.toVec (replicate 100 0) = some raw ∧
      SegmentedInto lengthCodec (hundredBytes (replicate 153424 'c')) raw parts := by
  obtain ⟨parts, raw, hpts, hraw, hcases, hiff⟩ :=
    split_faithful_iff lengthCodec serializes_lengthCodec (hundredBytes (replicate 153424 'c')) _ rfl
  obtain rfl : replicate 100 0 = raw := some.inj hraw
  have hfits : Fits lengthCodec (hundredBytes (replicate 153424 'c')) (replicate 100 0) 13 :=
    ⟨by decide +kernel, fun part => withinMax_of_cost 175 (by decide +kernel) (by decide)⟩
  have hminimal : MinimalFits lengthCodec (hundredBytes (replicate 153424 'c')) (replicate 100 0) := by
    unfold MinimalFits
    rw [withinMax_iff (serializedLen_lengthCodec _), length_replicate]
    decide +kernel
  have htried : TriedFrom 100 2 13 := triedFrom_of_mem (show 13 ∈ triedSizes 100 20 2 by decide +kernel)
  have hne : parts ≠ [] := fun hnil =>
    (hiff.mpr (fun _ _ _ => ⟨hminimal, 13, htried, hfits⟩) hnil).elim (fun hlarge => absurd hlarge (by decide +kernel))
      fun hnone => hnone 13 (by decide) hfits
  rcases hcases with hnil | ⟨-, hin⟩ | ⟨-, hparts⟩
  · exact absurd hnil hne
  · exact absurd (withinMax_hundredBytes.mp hin) (by decide)
  · exact ⟨parts, _, hpts, hraw, hparts⟩

/-- Three bytes would fit into a chunk, but the search goes from ten bytes to one, which makes too many chunks. -/
theorem message_dropped_early :
    ¬ ∀ (codec : ServerCodec (List UInt8)), Serializes codec → ∀ (envelope : ServerEnvelope (List UInt8)) message,
      envelope.event = .serverMessage message → ∃ parts raw,
        splitServerEnvelopeForTransport codec envelope = some parts ∧ codec.toVec message = some raw ∧
        (parts = [] ∨ parts = [envelope] ∧ WithinMax codec envelope ∨
          ¬ WithinMax codec envelope ∧ SegmentedInto codec envelope raw parts) ∧
        (parts = [] → REMOTE_CONTROL_REASSEMBLED_MAX_BYTES < raw.length ∨
          ∀ chunkSize, 0 < chunkSize → ¬ Fits codec envelope raw chunkSize) := by
  intro h
  obtain ⟨parts, raw, hpts, hraw, _, hnone⟩ :=
    h lengthCodec serializes_lengthCodec (hundredBytes (replicate 153438 'c')) _ rfl
  obtain rfl : replicate 100 0 = raw := some.inj hraw
  have htried : ∀ chunkSize, TriedFrom 100 2 chunkSize →
      ¬ Fits lengthCodec (hundredBytes (replicate 153438 'c')) (replicate 100 0) chunkSize := by
    intro chunkSize hchunkSize hfits
    have hall : ∀ chunkSize ∈ triedSizes 100 20 2, ∃ part ∈ segments lengthCodec (hundredBytes (replicate 153438 'c'))
        (replicate 100 0) chunkSize, 161 < eventCost part.event := by decide +kernel
    obtain ⟨part, hpart, hcost⟩ := hall chunkSize (mem_triedSizes hchunkSize (by decide +kernel))
    have hin := (withinMax_segment hpart).mp (hfits.size part hpart)
    unfold REMOTE_CONTROL_SEGMENT_MAX_BYTES at hin
    omega
  have hemp : parts = [] := by
    obtain ⟨parts', hpts', hcase⟩ := @exists_splitCase _ lengthCodec (hundredBytes (replicate 153438 'c')) _
      serializes_lengthCodec _ rfl hraw
    cases hpts.symm.trans hpts'
    cases hcase with
    | whole hin => exact absurd (withinMax_hundredBytes.mp hin) (by decide)
    | dropped _ _ => rfl
    | searched _ _ _ hloop =>
        rcases splitLoop_spec lengthCodec _ (replicate 100 0) _ with ⟨hloop', _⟩ | ⟨chunkSize, hchunkSize, hfits, _⟩
        · exact some.inj (hloop.symm.trans hloop')
        · exact absurd hfits (htried chunkSize hchunkSize)
  rcases hnone hemp with hlarge | hnone
  · exact absurd hlarge (by decide +kernel)
  · exact hnone 3 (by decide) ⟨by decide +kernel, fun part => withinMax_of_cost 161 (by decide +kernel) (by decide)⟩

end CodexStudy.RemoteControl
