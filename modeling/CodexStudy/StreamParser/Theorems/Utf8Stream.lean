import CodexStudy.StreamParser.Utf8Stream

/-!
# What a stream of bytes gives

The chunks of a text give the text, wherever they end; a chunk is refused when no text begins with it.
-/

namespace CodexStudy.StreamParser

open CodexStudy.Lib CodexStudy.Lib.Text List StreamParser

variable {c : Char} {chunk : List UInt8}
  {text : Text} {bytes rest : List UInt8}

/-- The bytes of a character that has begun but not ended, or none. -/
def Incomplete (bytes : List UInt8) : Prop := ∃ c, bytes <+: String.utf8EncodeChar c ∧ bytes ≠ String.utf8EncodeChar c

theorem Incomplete.decodeChar (h : Incomplete bytes) : decodeChar bytes = none := by
  obtain ⟨c, hc, hne⟩ := h
  cases hdecode : StreamParser.decodeChar bytes with
  | none => rfl
  | some d =>
      obtain ⟨more, rfl⟩ := prefix_of_decodeChar hdecode
      obtain ⟨last, hlast⟩ := hc
      have hdc : d = c := utf8EncodeChar_append_inj
          (show String.utf8EncodeChar d ++ (more ++ last) = String.utf8EncodeChar c ++ [] by
        simp [← hlast])
      subst hdc
      simp at hlast
      simp [hlast.1] at hne

theorem incomplete_nil : Incomplete [] := ⟨'a', nil_prefix, by decide⟩

theorem Incomplete.startsChar (h : Incomplete bytes) : startsChar bytes = true := by
  obtain ⟨c, hc, -⟩ := h
  simp only [StreamParser.startsChar, List.any_eq_true, List.mem_range]
  refine ⟨c.toNat, ?_, ?_⟩
  · have hvalid := c.valid
    simp only [UInt32.isValidChar, Nat.isValidChar] at hvalid
    change c.val.toNat < _
    omega
  · simpa using hc

theorem decode_append (text : Text) (rest : List UInt8) :
    decode (utf8 text ++ rest) = (text ++ (decode rest).1, (decode rest).2) := by
  induction text with
  | nil => rfl
  | cons c text ih =>
      rw [utf8_cons, append_assoc]
      conv_lhs => rw [decode]
      split
      next d hd =>
        rw [decodeChar_append] at hd
        cases hd
        rw [← String.length_utf8EncodeChar, drop_left, ih]
        rfl
      next hd => simp [decodeChar_append] at hd

theorem Incomplete.decode (h : Incomplete rest) (text : Text) : decode (utf8 text ++ rest) = (text, rest) := by
  rw [decode_append, StreamParser.decode]
  split
  next hsome => simp [h.decodeChar] at hsome
  next => simp

theorem fromUtf8_utf8 (text : Text) : fromUtf8 (utf8 text) = .ok text := by
  have := incomplete_nil.decode text
  simp at this
  simp [fromUtf8, this]

theorem Incomplete.fromUtf8 (h : Incomplete rest) (hne : rest ≠ []) (text : Text) :
    fromUtf8 (utf8 text ++ rest) = .error ⟨(utf8 text).length, none⟩ := by
  simp [StreamParser.fromUtf8, h.decode, hne, errorLen, h.startsChar]

/-- A part of the bytes of a text ends inside a character, or between two. -/
theorem exists_utf8_prefix (hrest : Incomplete rest) (h : bytes <+: utf8 text ++ rest) :
    ∃ front back part, text = front ++ back ∧ bytes = utf8 front ++ part ∧ Incomplete part := by
  induction text generalizing bytes with
  | nil =>
      obtain ⟨c, hc, hne⟩ := hrest
      refine ⟨[], [], bytes, rfl, rfl, c, h.trans hc, ?_⟩
      rintro rfl
      exact hne (hc.eq_of_length_le h.length_le)
  | cons c text ih =>
      rw [utf8_cons, append_assoc] at h
      rcases prefix_or_prefix_of_prefix h (prefix_append ..) with hshort | ⟨more, rfl⟩
      · by_cases hfull : bytes = String.utf8EncodeChar c
        · exact ⟨[c], text, [], rfl, by simp [hfull, utf8], incomplete_nil⟩
        · exact ⟨[], c :: text, bytes, rfl, rfl, c, hshort, hfull⟩
      · rw [prefix_append_right_inj] at h
        obtain ⟨front, back, part, rfl, rfl, hpart⟩ := ih h
        exact ⟨c :: front, back, part, rfl, by simp [utf8_cons], hpart⟩

/-! ## Pushing bytes -/

/-- A parser with the texts that were handed to it. -/
structure Recorded (π : Type) where
  parser : π
  handed : List Text

instance {π ε : Type} [StreamTextParser π ε] : StreamTextParser (Recorded π) ε where
  pushStr recorded text :=
    let (out, parser) := StreamTextParser.pushStr recorded.parser text
    (out, ⟨parser, recorded.handed ++ [text]⟩)
  finish recorded :=
    let (out, parser) := StreamTextParser.finish recorded.parser
    (out, { recorded with parser })

namespace Utf8StreamParser

variable {π ε : Type} [StreamTextParser π ε]

theorem pushBytes_incomplete {parser : Utf8StreamParser (Recorded π)} {part : List UInt8}
    (hpart : Incomplete part) (h : parser.pendingUtf8 ++ chunk = utf8 text ++ part) :
    (∃ out, (parser.pushBytes chunk).1 = .ok out) ∧ (parser.pushBytes chunk).2.pendingUtf8 = part ∧
      (parser.pushBytes chunk).2.inner.handed.flatten = parser.inner.handed.flatten ++ text := by
  unfold pushBytes
  by_cases hnil : part = []
  · subst hnil
    rw [append_nil] at h
    simp [h, fromUtf8_utf8, StreamTextParser.pushStr]
  · simp only [h, hpart.fromUtf8 hnil]
    by_cases htext : text = []
    · simp [htext, utf8]
    · have hlen : (utf8 text).length ≠ 0 := by
        rw [length_utf8]
        exact (byteLen_pos htext).ne'
      simp [hlen, fromUtf8_utf8, StreamTextParser.pushStr]

/-- Bytes that are taken back leave the parser as it was. -/
theorem pushBytes_error {parser : Utf8StreamParser π} {error : Utf8StreamParserError}
    (h : (parser.pushBytes chunk).1 = .error error) : (parser.pushBytes chunk).2 = parser := by
  unfold pushBytes at h ⊢
  dsimp only at h ⊢
  split at h
  · cases h
  · simp
  · split at h
    · cases h
    next hvalid =>
      rw [if_neg hvalid]
      split at h
      · cases h
      · simp

theorem pushAll_incomplete {parser : Utf8StreamParser (Recorded π)} (hpend : Incomplete parser.pendingUtf8)
    (hrest : Incomplete rest) {chunks : List (List UInt8)}
    (h : parser.pendingUtf8 ++ chunks.flatten = utf8 text ++ rest) :
    (∀ result ∈ (parser.pushAll chunks).1, ∃ out, result = .ok out) ∧ (parser.pushAll chunks).2.pendingUtf8 = rest ∧
      (parser.pushAll chunks).2.inner.handed.flatten = parser.inner.handed.flatten ++ text := by
  induction chunks generalizing parser text with
  | nil =>
      have hdecode := hpend.decode []
      simp only [flatten_nil, append_nil] at h
      rw [show utf8 [] ++ parser.pendingUtf8 = utf8 text ++ rest from h, hrest.decode] at hdecode
      cases hdecode
      simp [pushAll]
  | cons chunk chunks ih =>
      rw [flatten_cons, ← append_assoc] at h
      obtain ⟨front, back, part, rfl, hfro, hpart⟩ := exists_utf8_prefix hrest ⟨_, h⟩
      obtain ⟨⟨out, hok⟩, hpend', hhanded⟩ := pushBytes_incomplete hpart hfro
      rw [hfro, utf8_append, append_assoc, append_assoc, append_cancel_left_eq, ← hpend'] at h
      obtain ⟨hresults, hpart', hall⟩ := ih (hpend'.symm ▸ hpart) h
      simp only [pushAll, forall_mem_cons]
      exact ⟨⟨⟨out, hok⟩, hresults⟩, hpart', by rw [hall, hhanded, append_assoc]⟩

/-- Bytes that are a text, perhaps with the beginning of another character, hand exactly this text to the inner parser
however they are cut; the end fails exactly when a character has begun. A refused chunk changes nothing. -/
theorem pushAll_decodes (inner : π) :
    (∀ (text : Text) (rest : List UInt8) (chunks : List (List UInt8)), Incomplete rest →
      chunks.flatten = utf8 text ++ rest →
        let pushed := (new (Recorded.mk inner [])).pushAll chunks
        (∀ result ∈ pushed.1, ∃ out, result = .ok out) ∧ pushed.2.inner.handed.flatten = text ∧
          (rest = [] → ∃ out, pushed.2.finish.1 = .ok out ∧ pushed.2.finish.2.inner.handed.flatten = text) ∧
          (rest ≠ [] → pushed.2.finish.1 = .error .incompleteUtf8AtEof)) ∧
      ∀ (pending chunk : List UInt8) (error : Utf8StreamParserError),
        ((Utf8StreamParser.mk inner pending).pushBytes chunk).1 = .error error →
          ((Utf8StreamParser.mk inner pending).pushBytes chunk).2 = ⟨inner, pending⟩ ∧
            ∀ chunks, pushAll ((Utf8StreamParser.mk inner pending).pushBytes chunk).2 chunks =
              pushAll ⟨inner, pending⟩ chunks := by
  constructor
  · intro text rest chunks hrest hcks
    obtain ⟨hresults, hpend, hhanded⟩ :=
      @pushAll_incomplete text rest π ε _ (new (Recorded.mk inner [])) incomplete_nil hrest chunks hcks
    have hhanded : _ = text := hhanded
    refine ⟨hresults, hhanded, ?_, ?_⟩
    · intro hnil
      simp [finish, hpend, hnil, StreamTextParser.finish, hhanded]
    · intro hne
      have := hrest.fromUtf8 hne []
      simp only [finish, hpend, if_neg hne]
      rw [show fromUtf8 rest = _ from this]
  · intro pending chunk error herror
    rw [pushBytes_error herror]
    exact ⟨rfl, fun _ => rfl⟩

/-! ## Any bytes -/

/-- The bytes of a text, perhaps with the beginning of another character. -/
def Begun (bytes : List UInt8) : Prop := ∃ text rest, Incomplete rest ∧ bytes = utf8 text ++ rest

theorem utf8_decode (bytes : List UInt8) :
    bytes = utf8 (decode bytes).1 ++ (decode bytes).2 ∧ decodeChar (decode bytes).2 = none := by
  induction bytes using decode.induct with
  | case1 bytes c hc ih =>
      obtain ⟨rest, rfl⟩ := prefix_of_decodeChar hc
      rw [← String.length_utf8EncodeChar, drop_left] at ih
      rw [show String.utf8EncodeChar c ++ rest = utf8 [c] ++ rest by simp [utf8], decode_append, utf8_append, append_assoc,
        ← ih.1]
      exact ⟨rfl, ih.2⟩
  | case2 bytes hnone =>
      rw [decode, hnone]
      exact ⟨rfl, hnone⟩

theorem begun_utf8_append (front : Text) : Begun (utf8 front ++ bytes) ↔ Begun bytes := by
  constructor
  · rintro ⟨text, rest, hrest, h⟩
    have hdec := hrest.decode text
    rw [← h, decode_append] at hdec
    obtain ⟨-, rfl⟩ := Prod.mk.inj hdec
    exact ⟨_, _, hrest, (utf8_decode bytes).1⟩
  · rintro ⟨text, rest, hrest, rfl⟩
    exact ⟨front ++ text, rest, hrest, by rw [utf8_append, append_assoc]⟩

theorem begun_or_error (bytes : List UInt8) : Begun bytes ∨ ∃ validUpTo n, fromUtf8 bytes = .error ⟨validUpTo, some n⟩ := by
  obtain ⟨hbytes, hnone⟩ := utf8_decode bytes
  by_cases hst : startsChar (decode bytes).2 = true
  · obtain ⟨n, -, hn⟩ := any_eq_true.mp hst
    refine .inl ⟨(decode bytes).1, (decode bytes).2, ⟨Char.ofNat n, isPrefixOf_iff_prefix.mp hn, fun heq => ?_⟩, hbytes⟩
    have hsome := decodeChar_append (Char.ofNat n) []
    rw [append_nil, ← heq, hnone] at hsome
    cases hsome
  · have hne : (decode bytes).2 ≠ [] := fun hnil => hst (hnil ▸ incomplete_nil.startsChar)
    have herror : fromUtf8 bytes = .error ⟨bytes.length - (decode bytes).2.length, errorLen (decode bytes).2⟩ := if_neg hne
    rw [herror, errorLen, if_neg hst]
    split
    · exact .inr ⟨_, _, rfl⟩
    · split <;> exact .inr ⟨_, _, rfl⟩

theorem pushBytes_ok_iff {parser : Utf8StreamParser (Recorded π)} :
    (∃ out, (parser.pushBytes chunk).1 = .ok out) ↔ Begun (parser.pendingUtf8 ++ chunk) := by
  constructor
  · rintro ⟨out, hout⟩
    refine (begun_or_error _).resolve_right fun ⟨validUpTo, n, herror⟩ => ?_
    simp [pushBytes, herror] at hout
  · rintro ⟨text, rest, hrest, h⟩
    exact (pushBytes_incomplete hrest h).1

/-- The bytes of the chunks that are not refused. -/
def acceptedBytes : List (List UInt8) → List (Except Utf8StreamParserError (StreamTextChunk ε)) → List UInt8
  | chunk :: chunks, .ok _ :: results => chunk ++ acceptedBytes chunks results
  | _ :: chunks, .error _ :: results => acceptedBytes chunks results
  | _, _ => []

theorem pushAll_accepted {parser : Utf8StreamParser (Recorded π)} (hpend : Incomplete parser.pendingUtf8)
    (chunks : List (List UInt8)) :
    utf8 (parser.pushAll chunks).2.inner.handed.flatten ++ (parser.pushAll chunks).2.pendingUtf8 =
        utf8 parser.inner.handed.flatten ++ (parser.pendingUtf8 ++ acceptedBytes chunks (parser.pushAll chunks).1) ∧
      Incomplete (parser.pushAll chunks).2.pendingUtf8 := by
  induction chunks generalizing parser with
  | nil => simp [pushAll, acceptedBytes, hpend]
  | cons chunk chunks ih =>
      cases hres : (parser.pushBytes chunk).1 with
      | ok out =>
          obtain ⟨text, rest, hrest, h⟩ := pushBytes_ok_iff.mp ⟨out, hres⟩
          obtain ⟨-, hpend', hhanded⟩ := pushBytes_incomplete hrest h
          obtain ⟨hbytes, hlast⟩ := ih (hpend'.symm ▸ hrest)
          refine ⟨?_, hlast⟩
          simp only [pushAll, hres, acceptedBytes]
          rw [hbytes, hhanded, hpend', utf8_append, append_assoc, ← append_assoc (utf8 text), ← h, append_assoc]
      | error error =>
          obtain ⟨hbytes, hlast⟩ := ih hpend
          simp only [pushAll, hres, acceptedBytes, pushBytes_error hres]
          exact ⟨hbytes, hlast⟩

/-- Whatever bytes arrive, the texts handed over and the bytes that wait are those of the chunks not refused, and a
chunk is refused exactly when it cannot continue them. -/
theorem accepted_iff_begun (inner : π) (chunks : List (List UInt8)) (chunk : List UInt8) :
    let before := (new (Recorded.mk inner [])).pushAll chunks
    utf8 before.2.inner.handed.flatten ++ before.2.pendingUtf8 = acceptedBytes chunks before.1 ∧
      Incomplete before.2.pendingUtf8 ∧
        ((∃ out, (before.2.pushBytes chunk).1 = .ok out) ↔ Begun (acceptedBytes chunks before.1 ++ chunk)) := by
  obtain ⟨hbytes, hpend⟩ := @pushAll_accepted π ε _ (new (Recorded.mk inner [])) incomplete_nil chunks
  have hbytes : _ = acceptedBytes chunks _ := hbytes
  refine ⟨hbytes, hpend, ?_⟩
  rw [← hbytes, append_assoc, begun_utf8_append]
  exact pushBytes_ok_iff

end Utf8StreamParser

end CodexStudy.StreamParser
