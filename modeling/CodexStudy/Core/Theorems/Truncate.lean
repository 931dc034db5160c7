import CodexStudy.Core.Compact
import CodexStudy.Lib.ByteOffsets

/-!
# What a truncated text keeps (`utils/string/src/truncate.rs`)

One pass over the characters cuts a text at two byte positions.
-/

namespace CodexStudy.Core

open CodexStudy.Lib CodexStudy.Lib.Text Nat List

def truncateMiddleChars (s : Text) (maxBytes : Nat) : Text := truncateWithByteEstimate s maxBytes false

variable {s q before middle after : Text} {beginningBytes tailStartTarget idx size : Nat}

/-! ## The two cuts -/

/-- The three parts of a text that starts at the byte `idx`, with the bounds at which the pass cuts. -/
structure CutAt (beginningBytes tailStartTarget idx : Nat) (before middle after : Text) : Prop where
  before_le : before ≠ [] → idx + byteLen before ≤ beginningBytes
  next_gt : ∀ c rest, middle ++ after = c :: rest → beginningBytes < idx + byteLen before + c.utf8Size
  after_le : after ≠ [] → tailStartTarget ≤ idx + byteLen before + byteLen middle
  last_lt : ∀ front c, middle = front ++ [c] → idx + byteLen before + byteLen front < tailStartTarget

theorem splitStringFrom_cutAt (idx : Nat) : ∃ before middle after, s = before ++ middle ++ after ∧
      splitStringFrom beginningBytes tailStartTarget idx s = (middle.length, before, after) ∧
      CutAt beginningBytes tailStartTarget idx before middle after := by
  induction s generalizing idx with
  | nil => exact ⟨[], [], [], rfl, rfl, by simp, by simp, by simp, by simp⟩
  | cons ch rest ih =>
      obtain ⟨before, middle, after, hrest, hspl, hcut⟩ := ih (idx + ch.utf8Size)
      have hsize := ch.utf8Size_pos
      by_cases hkept : idx + ch.utf8Size ≤ beginningBytes
      · refine ⟨ch :: before, middle, after, by simp [hrest], by simp [splitStringFrom, hspl, hkept], ?_, ?_, ?_, ?_⟩
        · intro _
          by_cases hnil : before = []
          · simpa [hnil] using hkept
          · simpa [add_assoc] using hcut.before_le hnil
        · simpa [add_assoc] using hcut.next_gt
        · simpa [add_assoc] using hcut.after_le
        · simpa [add_assoc] using hcut.last_lt
      · -- nothing behind this character is in front of the first cut
        have hbef : before = [] := by
          by_contra hne
          have := hcut.before_le hne
          omega
        subst hbef
        by_cases htail : tailStartTarget ≤ idx
        · have hmiddle : middle = [] := by
            rcases eq_nil_or_concat middle with hnil | ⟨front, c, hlast⟩
            · exact hnil
            · have := hcut.last_lt front c (by simpa using hlast)
              omega
          subst hmiddle
          refine ⟨[], [], ch :: after, by simp [hrest], by simp [splitStringFrom, hspl, hkept, htail], by simp, ?_,
            ?_, by simp⟩
          · intro c rest h
            cases h
            simp
            omega
          · simpa using htail
        · refine ⟨[], ch :: middle, after, by simp [hrest], by simp [splitStringFrom, hspl, hkept, htail], by simp, ?_, ?_, ?_⟩
          · intro c rest h
            cases h
            simp
            omega
          · simpa [add_assoc] using hcut.after_le
          · intro front c h
            cases front with
            | nil => simp; omega
            | cons _ front =>
                cases h
                simpa [add_assoc] using hcut.last_lt front c rfl

/-! ## The longest prefix and the longest suffix -/

theorem CutAt.prefix_iff (h : CutAt beginningBytes tailStartTarget 0 before middle after)
    (hq : q <+: before ++ middle ++ after) : byteLen q ≤ beginningBytes ↔ q <+: before := by
  constructor
  · intro hle
    have hbef : before <+: before ++ middle ++ after := by simp
    rcases prefix_or_prefix_of_prefix hq hbef with hshort | ⟨rest, rfl⟩
    · exact hshort
    · cases rest with
      | nil => simp
      | cons c rest =>
          obtain ⟨more, hmore⟩ := hq
          have hnext := h.next_gt c (rest ++ more) (by simpa using hmore.symm)
          simp at hle
          omega
  · intro ⟨rest, hrest⟩
    by_cases hnil : before = []
    · simp_all
    · have hle := h.before_le hnil
      simp [← hrest] at hle
      omega

theorem CutAt.suffix_iff (h : CutAt beginningBytes tailStartTarget 0 before middle after)
    (hle : beginningBytes ≤ tailStartTarget) (htot : tailStartTarget + size = byteLen (before ++ middle ++ after))
    (hq : q <:+ before ++ middle ++ after) : byteLen q ≤ size ↔ q <:+ after := by
  simp at htot
  constructor
  · intro hsize
    rcases suffix_or_suffix_of_suffix hq (suffix_append (before ++ middle) after) with hshort | ⟨rest, rfl⟩
    · exact hshort
    · rcases eq_nil_or_concat rest with rfl | ⟨rest, c, rfl⟩
      · simp
      · have hc := c.utf8Size_pos
        simp at hsize
        -- `c` is the last character that is not in `after`
        rcases eq_nil_or_concat middle with rfl | ⟨front, d, rfl⟩
        · cases before with
          | nil =>
              have := hq.length_le
              simp at this
              omega
          | cons b before =>
              have := h.before_le (by simp)
              simp at *
              omega
        · obtain ⟨more, hmore⟩ := hq
          have hlast := h.last_lt front d (by simp)
          have hcd : c = d := by
            have := congrArg getLast? ((append_left_inj after).mp
              (show (more ++ (rest ++ [c])) ++ after = (before ++ (front ++ [d])) ++ after by simpa using hmore))
            simpa [getLast?_append] using this
          subst hcd
          simp at htot
          omega
  · intro ⟨rest, hrest⟩
    by_cases hnil : after = []
    · simp_all
    · have haft := h.after_le hnil
      simp [← hrest] at htot
      omega

/-! ## Truncation in the middle -/

theorem truncateMiddleChars_keeps (s : Text) (maxBytes : Nat) :
    (byteLen s ≤ maxBytes → truncateMiddleChars s maxBytes = s) ∧
      (0 < maxBytes → maxBytes < byteLen s → ∃ before middle after, s = before ++ middle ++ after ∧
        truncateMiddleChars s maxBytes =
          before ++ ("…" ++ Nat.toDigits 10 middle.length ++ " chars truncated…".toList) ++ after ∧
        (∀ q, q <+: s → (byteLen q ≤ maxBytes / 2 ↔ q <+: before)) ∧
        ∀ q, q <:+ s → (byteLen q ≤ maxBytes - maxBytes / 2 ↔ q <:+ after)) := by
  constructor
  · intro hle
    by_cases hs : s = []
    · simp [hs, truncateMiddleChars, truncateWithByteEstimate]
    · have hpos := byteLen_pos hs
      have hfits : byteCount s ≤ maxBytes := hle
      simp [hs, truncateMiddleChars, truncateWithByteEstimate, hfits]
      omega
  · intro hpos hlt
    obtain ⟨before, middle, after, rfl, hspl, hcut⟩ :=
      @splitStringFrom_cutAt s (maxBytes / 2) (byteLen s - (maxBytes - maxBytes / 2)) 0
    refine ⟨before, middle, after, rfl, ?_, fun q hq => hcut.prefix_iff hq,
      fun q hq => hcut.suffix_iff (by omega) (by omega) hq⟩
    have hlong : ¬byteCount (before ++ middle ++ after) ≤ maxBytes := Nat.not_le_of_lt hlt
    have hne : before ++ middle ++ after ≠ [] := by
      intro hnil
      simp [hnil] at hlt
    unfold truncateMiddleChars truncateWithByteEstimate
    rw [if_neg hne, if_neg (by omega), if_neg hlong]
    simp only [splitBudget, splitString, byteCount] at *
    simp only [byteLen] at hspl
    rw [hspl]
    simp [formatTruncationMarker, removedUnits, Nat.repr]

theorem truncateMiddleChars_keeps_sample : truncateMiddleChars "aé😀b" 8 = "aé😀b" ∧
      ∃ before middle after, "aé😀b".toList = before ++ middle ++ after ∧ truncateMiddleChars "aé😀b" 5 =
          before ++ ("…" ++ toDigits 10 middle.length ++ " chars truncated…".toList) ++ after ∧
        (∀ q, q <+: "aé😀b".toList → (byteLen q ≤ 5 / 2 ↔ q <+: before)) ∧
        ∀ q, q <:+ "aé😀b".toList → (byteLen q ≤ 5 - 5 / 2 ↔ q <:+ after) :=
  ⟨(truncateMiddleChars_keeps "aé😀b" 8).1 (by decide), (truncateMiddleChars_keeps "aé😀b" 5).2 (by decide) (by decide)⟩

end CodexStudy.Core
