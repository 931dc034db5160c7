import CodexStudy.Lib.Text

/-!
# Places in a text by bytes

A place in a text is the number of bytes of what stands before it in UTF-8.
-/

namespace CodexStudy.Lib.Text

open List Option

def byteLen (s : Text) : Nat := (s.map Char.utf8Size).sum

/-- What stands before a place and what stands after it. -/
def splitAtByte : Text → Nat → Option (Text × Text)
  | s, 0 => some ([], s)
  | [], _ + 1 => none
  | c :: s, pos + 1 =>
      if c.utf8Size ≤ pos + 1 then
        (splitAtByte s (pos + 1 - c.utf8Size)).map fun parts => (c :: parts.1, parts.2)
      else none

def isCharBoundary (s : Text) (pos : Nat) : Bool := (splitAtByte s pos).isSome

def slice (s : Text) (start stop : Nat) : Option Text :=
  if start ≤ stop then (splitAtByte s start).bind fun parts => (splitAtByte parts.2 (stop - start)).map Prod.fst else none

section

variable {s front back mid front' back' : Text} {c : Char} {pos start stop : Nat}

@[simp] theorem byteLen_nil : byteLen [] = 0 := rfl

@[simp] theorem byteLen_cons : byteLen (c :: s) = c.utf8Size + byteLen s := rfl

@[simp] theorem byteLen_append : byteLen (front ++ back) = byteLen front + byteLen back := by
  unfold byteLen
  rw [map_append, sum_append_nat]

theorem byteLen_eq_zero : byteLen s = 0 ↔ s = [] := by
  cases s with
  | nil => exact iff_of_true rfl rfl
  | cons c s =>
      have hpos := c.utf8Size_pos
      exact iff_of_false (by rw [byteLen_cons]; omega) (cons_ne_nil c s)

theorem byteLen_pos (h : s ≠ []) : 0 < byteLen s := Nat.pos_of_ne_zero fun hzero => h (byteLen_eq_zero.mp hzero)

/-! ## Taking a text apart -/

theorem splitAtByte_iff : splitAtByte s pos = some (front, back) ↔ s = front ++ back ∧ byteLen front = pos := by
  induction s generalizing pos front with
  | nil =>
      cases pos with
      | zero =>
          rw [splitAtByte, byteLen_eq_zero]
          constructor
          · intro h
            cases h
            exact ⟨rfl, rfl⟩
          · rintro ⟨h, rfl⟩
            rw [← nil_append back, ← h]
      | succ pos =>
          rw [splitAtByte]
          refine iff_of_false (fun h => (by cases h)) ?_
          rintro ⟨h, hlen⟩
          rw [(append_eq_nil_iff.mp h.symm).1] at hlen
          cases hlen
  | cons c s ih =>
      have hpos := c.utf8Size_pos
      cases pos with
      | zero =>
          rw [splitAtByte, byteLen_eq_zero]
          constructor
          · intro h
            cases h
            exact ⟨rfl, rfl⟩
          · rintro ⟨h, rfl⟩
            rw [← nil_append back, ← h]
      | succ pos =>
          rw [splitAtByte]
          simp only [ite_none_right_eq_some, map_eq_some_iff, Prod.mk.injEq]
          constructor
          · rintro ⟨hle, ⟨front', back'⟩, hspl, rfl, rfl⟩
            obtain ⟨rfl, hlen⟩ := ih.mp hspl
            exact ⟨rfl, by rw [byteLen_cons, hlen]; omega⟩
          · rintro ⟨h, hlen⟩
            cases front with
            | nil => cases hlen
            | cons d front =>
                obtain ⟨rfl, rfl⟩ := cons.inj h
                rw [byteLen_cons] at hlen
                exact ⟨by omega, (front, back), ih.mpr ⟨rfl, by omega⟩, rfl, rfl⟩

theorem isCharBoundary_iff : isCharBoundary s pos = true ↔ ∃ front back, s = front ++ back ∧ byteLen front = pos := by
  unfold isCharBoundary
  rw [isSome_iff_exists, Prod.exists]
  exact exists_congr fun front => exists_congr fun back => splitAtByte_iff

theorem slice_iff : slice s start stop = some mid ↔
    ∃ front back, s = front ++ mid ++ back ∧ byteLen front = start ∧ byteLen front + byteLen mid = stop := by
  unfold slice
  simp only [Option.ite_none_right_eq_some, Option.bind_eq_some_iff, Option.map_eq_some_iff, Prod.exists, splitAtByte_iff]
  constructor
  · rintro ⟨hle, front, rest, ⟨rfl, rfl⟩, mid', back, ⟨rfl, hlen⟩, rfl⟩
    exact ⟨front, back, by rw [append_assoc], rfl, by omega⟩
  · rintro ⟨front, back, rfl, rfl, rfl⟩
    exact ⟨Nat.le_add_right _ _, front, mid ++ back, ⟨by rw [append_assoc], rfl⟩, mid, back,
      ⟨rfl, (Nat.add_sub_cancel_left _ _).symm⟩, rfl⟩

theorem split_of_le (h : front ++ back = front' ++ back') (hle : byteLen front ≤ byteLen front') :
    ∃ mid, front' = front ++ mid ∧ back = mid ++ back' := by
  rcases append_eq_append_iff.mp h with ⟨mid, rfl, hback⟩ | ⟨mid, rfl, rfl⟩
  · exact ⟨mid, rfl, hback⟩
  · rw [byteLen_append] at hle
    obtain rfl : mid = [] := byteLen_eq_zero.mp (by omega)
    exact ⟨[], by rw [append_nil, append_nil], rfl⟩

theorem split_unique (h : front ++ back = front' ++ back') (hlen : byteLen front = byteLen front') :
    front = front' ∧ back = back' := by
  obtain ⟨mid, rfl, rfl⟩ := split_of_le h hlen.le
  rw [byteLen_append] at hlen
  obtain rfl : mid = [] := byteLen_eq_zero.mp (by omega)
  exact ⟨(append_nil front).symm, rfl⟩

/-! ## Places between characters -/

theorem isCharBoundary_byteLen : isCharBoundary s (byteLen s) = true :=
  isCharBoundary_iff.mpr ⟨s, [], (append_nil s).symm, rfl⟩

theorem le_of_isCharBoundary (h : isCharBoundary s pos = true) : pos ≤ byteLen s := by
  obtain ⟨front, back, rfl, rfl⟩ := isCharBoundary_iff.mp h
  rw [byteLen_append]
  exact Nat.le_add_right _ _

theorem isCharBoundary_left (hle : pos ≤ byteLen front) :
    isCharBoundary (front ++ back) pos = true ↔ isCharBoundary front pos = true := by
  rw [isCharBoundary_iff, isCharBoundary_iff]
  constructor
  · rintro ⟨front', back', heq, rfl⟩
    obtain ⟨mid, rfl, -⟩ := split_of_le heq.symm hle
    exact ⟨front', mid, rfl, rfl⟩
  · rintro ⟨front', back', rfl, rfl⟩
    exact ⟨front', back' ++ back, append_assoc .., rfl⟩

end

/-! ## The bytes of a text -/

def utf8 (s : Text) : List UInt8 := s.flatMap String.utf8EncodeChar

/-- The bytes of `part` stand in the bytes of the text from the place `pos` on. -/
def OccursAt (part s : Text) (pos : Nat) : Prop := utf8 part <+: (utf8 s).drop pos

section

variable {s part front back : Text} {c d : Char} {pos : Nat} {bytes bytes' : List UInt8}

theorem utf8_cons : utf8 (c :: s) = String.utf8EncodeChar c ++ utf8 s := flatMap_cons

theorem utf8_append : utf8 (front ++ back) = utf8 front ++ utf8 back := flatMap_append

theorem length_utf8 (s : Text) : (utf8 s).length = byteLen s := by
  induction s with
  | nil => rfl
  | cons c s ih => rw [utf8_cons, length_append, String.length_utf8EncodeChar, ih, byteLen_cons]

theorem utf8EncodeChar_append_inj (h : String.utf8EncodeChar c ++ bytes = String.utf8EncodeChar d ++ bytes') : c = d := by
  have hc := @ByteArray.utf8DecodeChar?_utf8EncodeChar_append bytes.toByteArray c
  have hd := @ByteArray.utf8DecodeChar?_utf8EncodeChar_append bytes'.toByteArray d
  rw [← toByteArray_append, h, toByteArray_append, hd] at hc
  exact (some.inj hc).symm

theorem isPrefix_of_utf8 (h : utf8 part <+: utf8 s) : part <+: s := by
  induction part generalizing s with
  | nil => exact nil_prefix
  | cons c part ih =>
      obtain ⟨bytes, hbytes⟩ := h
      rw [utf8_cons, append_assoc] at hbytes
      cases s with
      | nil =>
          have hlen := congrArg length hbytes
          have hpos := c.utf8Size_pos
          rw [length_append, String.length_utf8EncodeChar, length_utf8, byteLen_nil] at hlen
          omega
      | cons d s =>
          rw [utf8_cons] at hbytes
          obtain rfl := utf8EncodeChar_append_inj hbytes
          exact cons_prefix_cons.mpr ⟨rfl, ih ⟨bytes, append_cancel_left hbytes⟩⟩

/-- Only the first byte of a character can start the bytes of a text. -/
theorem not_utf8_prefix_drop (hpart : part ≠ []) (hpos : 0 < pos) (hlt : pos < c.utf8Size) :
    ¬ utf8 part <+: (utf8 (c :: s)).drop pos := by
  intro h
  cases part with
  | nil => exact hpart rfl
  | cons d part =>
      have hd : 0 < (String.utf8EncodeChar d).length := by
        rw [String.length_utf8EncodeChar]
        exact d.utf8Size_pos
      have hc : pos < (String.utf8EncodeChar c).length := by
        rw [String.length_utf8EncodeChar]
        exact hlt
      have hfst : (String.utf8EncodeChar d)[0] = (String.utf8EncodeChar c)[pos] := by
        rw [utf8_cons, utf8_cons] at h
        have hget := h.getElem (lt_of_lt_of_le hd (by rw [length_append]; exact Nat.le_add_right ..))
        rw [getElem_append_left hd, getElem_drop, getElem_append_left (by omega)] at hget
        simpa using hget
      have hst : (String.utf8EncodeChar c)[pos].IsUTF8FirstByte := by
        rw [← hfst]
        exact UInt8.isUTF8FirstByte_getElem_utf8EncodeChar.mpr rfl
      have hzero := UInt8.isUTF8FirstByte_getElem_utf8EncodeChar.mp hst
      omega

theorem occursAt_iff (hpart : part ≠ []) :
    OccursAt part s pos ↔ ∃ front back, s = front ++ part ++ back ∧ byteLen front = pos := by
  constructor
  · intro h
    induction s generalizing pos with
    | nil =>
        have hle := h.length_le
        have hpos := byteLen_pos hpart
        rw [length_drop, length_utf8, length_utf8, byteLen_nil] at hle
        omega
    | cons c s ih =>
        rcases Nat.eq_zero_or_pos pos with rfl | hpos
        · obtain ⟨back, hback⟩ := isPrefix_of_utf8 h
          exact ⟨[], back, hback.symm, rfl⟩
        · rcases lt_or_ge pos c.utf8Size with hlt | hle
          · exact absurd h (not_utf8_prefix_drop hpart hpos hlt)
          · rw [OccursAt, utf8_cons, drop_append, String.length_utf8EncodeChar,
              drop_eq_nil_of_le (by rw [String.length_utf8EncodeChar]; exact hle), nil_append] at h
            obtain ⟨front, back, rfl, hlen⟩ := ih h
            exact ⟨c :: front, back, rfl, by rw [byteLen_cons]; omega⟩
  · rintro ⟨front, back, rfl, rfl⟩
    rw [OccursAt, utf8_append, utf8_append, ← length_utf8, append_assoc, drop_left]
    exact prefix_append ..

end

/-! ## Matches from the left -/

def matchesFrom (pattern : Text) : (skip pos : Nat) → Text → List (Nat × Text)
  | _, _, [] => []
  | skip + 1, pos, c :: s => matchesFrom pattern skip (pos + c.utf8Size) s
  | 0, pos, c :: s =>
      if pattern <+: c :: s then (pos, pattern) :: matchesFrom pattern (pattern.length - 1) (pos + c.utf8Size) s
      else matchesFrom pattern 0 (pos + c.utf8Size) s

def matchIndices (s pattern : Text) : List (Nat × Text) := matchesFrom pattern 0 0 s

def replaceFrom (pattern new : Text) : (skip count : Nat) → Text → Text
  | _, _, [] => []
  | skip + 1, count, _ :: s => replaceFrom pattern new skip count s
  | 0, 0, c :: s => c :: s
  | 0, count + 1, c :: s =>
      if pattern <+: c :: s then new ++ replaceFrom pattern new (pattern.length - 1) count s
      else c :: replaceFrom pattern new 0 (count + 1) s

def replacen (s pattern new : Text) (count : Nat) : Text := replaceFrom pattern new 0 count s

section

variable {pattern new s front back : Text} {skip pos count : Nat}

theorem matchesFrom_append :
    matchesFrom pattern front.length pos (front ++ back) = matchesFrom pattern 0 (pos + byteLen front) back := by
  induction front generalizing pos with
  | nil => rfl
  | cons c front ih =>
      rw [cons_append, length_cons, matchesFrom, ih, byteLen_cons, add_assoc]

theorem replaceFrom_append :
    replaceFrom pattern new front.length count (front ++ back) = replaceFrom pattern new 0 count back := by
  induction front with
  | nil => rfl
  | cons c front ih => rw [cons_append, length_cons, replaceFrom, ih]

theorem replaceFrom_zero : replaceFrom pattern new 0 0 s = s := by
  cases s with
  | nil => rfl
  | cons c s => rfl

theorem exists_of_mem_matchesFrom {found : Nat × Text} (h : found ∈ matchesFrom pattern skip pos s) :
    ∃ front back, s = front ++ pattern ++ back ∧ found.1 = pos + byteLen front := by
  induction s generalizing skip pos with
  | nil => cases skip <;> cases h
  | cons c s ih =>
      have hlater : ∀ skip, found ∈ matchesFrom pattern skip (pos + c.utf8Size) s →
          ∃ front back, c :: s = front ++ pattern ++ back ∧ found.1 = pos + byteLen front := by
        intro skip h
        obtain ⟨front, back, rfl, hpl⟩ := ih h
        exact ⟨c :: front, back, rfl, by rw [hpl, byteLen_cons, add_assoc]⟩
      cases skip with
      | succ skip => exact hlater skip h
      | zero =>
          rw [matchesFrom] at h
          split at h
          next hsts =>
            obtain ⟨back, hback⟩ := hsts
            rcases mem_cons.mp h with rfl | h
            · exact ⟨[], back, hback.symm, rfl⟩
            · exact hlater _ h
          next => exact hlater 0 h

theorem matchesFrom_of_not_infix (h : ¬ pattern <:+: s) : matchesFrom pattern 0 pos s = [] := by
  induction s generalizing pos with
  | nil => rfl
  | cons c s ih =>
      rw [infix_cons_iff, not_or] at h
      rw [matchesFrom, if_neg h.1]
      exact ih h.2

theorem first_match (hpat : pattern ≠ []) (h : pattern <:+: s) : ∃ front back, s = front ++ pattern ++ back ∧
      (∀ front' back', s = front' ++ pattern ++ back' → byteLen front ≤ byteLen front') ∧
      (∀ pos, matchesFrom pattern 0 pos s =
        (pos + byteLen front, pattern) :: matchesFrom pattern 0 (pos + byteLen front + byteLen pattern) back) ∧
      ∀ count, replaceFrom pattern new 0 (count + 1) s = front ++ new ++ replaceFrom pattern new 0 count back := by
  induction s with
  | nil => exact absurd (infix_nil.mp h) hpat
  | cons c s ih =>
      by_cases hsts : pattern <+: c :: s
      · obtain ⟨back, hback⟩ := hsts
        obtain ⟨d, part, rfl⟩ := exists_cons_of_ne_nil hpat
        rw [cons_append] at hback
        obtain ⟨rfl, rfl⟩ := cons.inj hback
        refine ⟨[], back, rfl, fun _ _ _ => Nat.zero_le _, fun pos => ?_, fun count => ?_⟩
        · rw [matchesFrom, if_pos ⟨back, rfl⟩, length_cons, Nat.add_sub_cancel]
          rw [matchesFrom_append, byteLen_nil, add_zero, byteLen_cons, add_assoc]
        · rw [replaceFrom, if_pos ⟨back, rfl⟩, length_cons, Nat.add_sub_cancel, replaceFrom_append]
          rfl
      · obtain ⟨front, back, rfl, hfst, hmatches, hreplace⟩ := ih ((infix_cons_iff.mp h).resolve_left hsts)
        refine ⟨c :: front, back, rfl, fun front' back' heq => ?_, fun pos => ?_, fun count => ?_⟩
        · cases front' with
          | nil => exact absurd ⟨back', heq.symm⟩ hsts
          | cons d front' =>
              obtain ⟨rfl, htail⟩ := cons.inj heq
              have hle := hfst front' back' htail
              rw [byteLen_cons, byteLen_cons]
              omega
        · rw [matchesFrom, if_neg hsts, hmatches, byteLen_cons]
          simp only [add_assoc]
        · rw [replaceFrom, if_neg hsts, hreplace]
          rfl

end

end CodexStudy.Lib.Text
