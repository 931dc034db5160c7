import Mathlib.Data.List.Basic
import Mathlib.Data.List.Infix
import Mathlib.Data.List.DropRight
import Mathlib.Algebra.Group.Int.Defs
import Mathlib.Algebra.GroupWithZero.Nat

/-!
# Texts

A text is the list of its characters.
-/

namespace CodexStudy.Lib

open List Nat

abbrev Text := List Char

instance : Coe String Text := ⟨String.toList⟩

variable {r w b a : Text} {ls : List Text}

namespace Text

instance lawfulBEq : LawfulBEq Text := inferInstanceAs (LawfulBEq (List Char))

instance (priority := high) decidableForall (p : Char → Prop) [DecidablePred p] (s : Text) :
    Decidable (∀ c ∈ s, p c) := decidableBAll p s

instance (priority := high) decidableExists (p : Char → Prop) [DecidablePred p] (s : Text) :
    Decidable (∃ c ∈ s, p c) := decidableBEx p s

def isWhitespace (c : Char) : Bool :=
  (9 ≤ c.toNat && c.toNat ≤ 13) || c.toNat == 0x20 || c.toNat == 0x85 || c.toNat == 0xA0 ||
    c.toNat == 0x1680 || (0x2000 ≤ c.toNat && c.toNat ≤ 0x200A) || c.toNat == 0x2028 ||
    c.toNat == 0x2029 || c.toNat == 0x202F || c.toNat == 0x205F || c.toNat == 0x3000

variable (s : Text)

def trimStart : Text := s.dropWhile isWhitespace

def trimEnd : Text := s.rdropWhile isWhitespace

def trim : Text := trimEnd (trimStart s)

def stripPrefix? (p s : Text) : Option Text := if p <+: s then some (s.drop p.length) else none

/-- The text without one carriage return at its end. -/
def stripCr : Text := if s.getLast? = some '\r' then s.dropLast else s

def lastLine : List Text := if s = [] then [] else [s]

def lines : List Text :=
  (s.splitOn '\n').dropLast.map stripCr ++ lastLine ((s.splitOn '\n').getLast?.getD [])

/-- The lines of a text with their line breaks. -/
def splitInclusive : List Text :=
  (s.splitOn '\n').dropLast.map (· ++ ['\n']) ++ lastLine ((s.splitOn '\n').getLast?.getD [])

def join (sep : Text) (ls : List Text) : Text := sep.intercalate ls

def splitWhitespace : List Text :=
  (s.splitOnP isWhitespace).filter fun w => !w.isEmpty

/-- The number that a nonempty list of decimal digits stands for. -/
def digits? : Text → Option Nat
  | [] => none
  | ds => if ds.all Char.isDigit then some (ds.foldl (fun n d => 10 * n + (d.toNat - 48)) 0) else none

/-- Read an unsigned number of `w` bits: a sign `+` is allowed and a number that does not fit is refused. -/
def parseUnsigned (w : Nat) (s : Text) : Option Nat :=
  let n? := match s with
    | '+' :: ds => digits? ds
    | ds => digits? ds
  n?.filter (· < 2 ^ w)

/-! ## Prefixes -/

variable {s p l : Text} {c : Char}

theorem stripPrefix?_eq_some : stripPrefix? p s = some r ↔ s = p ++ r := by
  unfold stripPrefix?
  constructor
  · intro h
    split at h
    · rename_i hp
      obtain ⟨t, rfl⟩ := hp
      cases h
      rw [drop_left]
    · cases h
  · rintro rfl
    rw [if_pos (prefix_append p r), drop_left]

theorem stripPrefix?_append (p r : Text) : stripPrefix? p (p ++ r) = some r := stripPrefix?_eq_some.mpr rfl

theorem stripPrefix?_eq_none : stripPrefix? p s = none ↔ ¬ p <+: s := by
  unfold stripPrefix?
  split <;> simp_all

theorem not_prefix_of_take {q : Text} (n : Nat) (hp : n ≤ p.length) (hq : n ≤ q.length) (h : p.take n ≠ q.take n)
    (hs : p <+: s) : ¬ q <+: s := by
  intro hs'
  obtain ⟨r, rfl⟩ := hs
  obtain ⟨r', hr'⟩ := hs'
  apply h
  have htake : (p ++ r).take n = p.take n := take_append_of_le_length hp
  rw [← htake, ← hr', take_append_of_le_length hq]

theorem not_prefix_of_head? (hp : p.head? = some c) (hs : s.head? ≠ some c) : ¬ p <+: s := by
  rintro ⟨r, rfl⟩
  obtain ⟨t, rfl⟩ := head?_eq_some_iff.mp hp
  exact hs rfl

/-! ## Carriage returns -/

theorem stripCr_eq_self (h : '\r' ∉ l) : stripCr l = l := by
  rw [stripCr, if_neg]
  exact fun hlast => h (mem_of_getLast? hlast)

theorem stripCr_cases (s : Text) : stripCr s = s ∨ s = stripCr s ++ ['\r'] := by
  unfold stripCr
  split
  · rename_i h
    right
    obtain ⟨t, rfl⟩ := getLast?_eq_some_iff.mp h
    rw [dropLast_concat]
  · exact .inl rfl

theorem not_mem_stripCr (h : c ∉ s) : c ∉ stripCr s := by
  rcases stripCr_cases s with hs | hs
  · rwa [hs]
  · rw [hs] at h
    exact fun hc => h (mem_append_left _ hc)

theorem stripCr_append (r : Text) (h : '\r' ∉ p) : stripCr (p ++ r) = p ++ stripCr r := by
  rcases eq_nil_or_concat' r with rfl | ⟨r, c, rfl⟩
  · have : stripCr [] = [] := rfl
    rw [this, append_nil, stripCr_eq_self h]
  · rw [← append_assoc]
    unfold stripCr
    simp only [getLast?_concat, dropLast_concat]
    split
    · rfl
    · rw [append_assoc]

theorem stripPrefix?_stripCr (s : Text) (h : '\r' ∉ p) :
    stripPrefix? p (stripCr s) = (stripPrefix? p s).map stripCr := by
  cases hs : stripPrefix? p s with
  | some r =>
      rw [stripPrefix?_eq_some.mp hs, stripCr_append r h]
      exact stripPrefix?_eq_some.mpr rfl
  | none =>
      rw [Option.map_none, Option.eq_none_iff_forall_ne_some]
      intro r hr
      -- Without its carriage return the line starts with `p`, so with it it does too.
      have hr := stripPrefix?_eq_some.mp hr
      rcases stripCr_cases s with hc | hc
      · rw [hc] at hr
        rw [stripPrefix?_eq_some.mpr hr] at hs
        cases hs
      · rw [hr, append_assoc] at hc
        rw [stripPrefix?_eq_some.mpr hc] at hs
        cases hs

theorem head?_stripCr (s : Text) (h : c ≠ '\r') : (stripCr s).head? = some c ↔ s.head? = some c := by
  rcases stripCr_cases s with hs | hs
  · rw [hs]
  · cases ht : stripCr s with
    | nil =>
        rw [ht] at hs
        rw [hs]
        simpa using h.symm
    | cons a t => rw [hs, ht]; rfl

/-! ## Trimming -/

theorem isWhitespace_cr : isWhitespace '\r' = true := by decide

theorem trimStart_append (r : Text) (h : trimStart s ≠ []) : trimStart (s ++ r) = trimStart s ++ r := by
  unfold trimStart at h ⊢
  rw [dropWhile_append, if_neg (by simpa using h)]

theorem trimEnd_append (r : Text) (h : trimEnd s ≠ []) : trimEnd (r ++ s) = r ++ trimEnd s := by
  unfold trimEnd rdropWhile at h ⊢
  rw [reverse_append, dropWhile_append, if_neg (by simpa using h), reverse_append, reverse_reverse]

@[simp] theorem trimStart_trimStart (s : Text) : trimStart (trimStart s) = trimStart s := dropWhile_idempotent _ s

@[simp] theorem trimEnd_trimEnd (s : Text) : trimEnd (trimEnd s) = trimEnd s := rdropWhile_idempotent _ s

theorem trimStart_ne_nil (h : trim s ≠ []) : trimStart s ≠ [] := by
  intro hs
  rw [trim, hs] at h
  exact h rfl

theorem trim_append_whitespace (s : Text) (hw : ∀ c ∈ w, isWhitespace c = true) : trim (s ++ w) = trim s := by
  have hend : ∀ t : Text, trimEnd (t ++ w) = trimEnd t := by
    intro t
    unfold trimEnd rdropWhile
    rw [reverse_append, dropWhile_append, if_pos]
    simpa using hw
  unfold trim
  cases hs : trimStart s with
  | nil =>
      have hnil : trimStart (s ++ w) = [] := by
        rw [trimStart, dropWhile_eq_nil_iff] at hs ⊢
        intro c hc
        rcases mem_append.mp hc with hc | hc
        · exact hs c hc
        · exact hw c hc
      rw [hnil]
  | cons c t => rw [trimStart_append w (by rw [hs]; simp), hs, hend]

@[simp] theorem trim_stripCr (s : Text) : trim (stripCr s) = trim s := by
  rcases stripCr_cases s with h | h
  · rw [h]
  · conv_rhs => rw [h, trim_append_whitespace _ (by simp [isWhitespace_cr])]

theorem trimStart_stripCr (s : Text) : trimStart (stripCr s) = stripCr (trimStart s) := by
  rcases eq_nil_or_concat' s with rfl | ⟨t, c, rfl⟩
  · rfl
  · cases ht : trimStart t with
    | nil =>
        -- Only the last character can be left, and a carriage return is not.
        have hall := dropWhile_eq_nil_iff.mp ht
        have happ : trimStart (t ++ [c]) = trimStart [c] := dropWhile_append_of_pos hall
        rw [happ]
        unfold stripCr
        simp only [getLast?_concat, dropLast_concat, Option.some.injEq]
        split
        · rename_i hc
          subst hc
          rw [ht]; rfl
        · rename_i hc
          rw [happ, if_neg]
          intro hlast
          have hmem := (dropWhile_suffix _).subset (mem_of_getLast? hlast)
          exact hc (mem_singleton.mp hmem).symm
    | cons a u =>
        have hne : trimStart t ≠ [] := by rw [ht]; simp
        rw [trimStart_append _ hne]
        unfold stripCr
        simp only [getLast?_concat, dropLast_concat]
        split
        · rfl
        · rw [trimStart_append _ hne]

@[simp] theorem trim_trimStart (s : Text) : trim (trimStart s) = trim s := by
  rw [trim, trimStart_trimStart, trim]

@[simp] theorem trim_trimEnd (s : Text) : trim (trimEnd s) = trim s := by
  obtain ⟨w, hw, hs⟩ : ∃ w, (∀ c ∈ w, isWhitespace c = true) ∧ s = trimEnd s ++ w := by
    refine ⟨s.rtakeWhile isWhitespace, fun c hc => mem_rtakeWhile_imp hc, ?_⟩
    rw [trimEnd, rdropWhile, rtakeWhile, ← reverse_append, takeWhile_append_dropWhile,
      reverse_reverse]
  conv_rhs => rw [hs, trim_append_whitespace _ hw]

theorem trimEnd_ne_nil (h : trim s ≠ []) : trimEnd s ≠ [] := by
  intro hs
  rw [← trim_trimEnd, hs] at h
  exact h rfl

theorem trimEnd_isPrefix (s : Text) : trimEnd s <+: s := rdropWhile_prefix _ s

theorem trim_sublist (s : Text) : (trim s).Sublist s :=
  (trimEnd_isPrefix _).sublist.trans (dropWhile_suffix _).sublist

theorem head?_trimEnd (h : (trimEnd s).head? = some c) : s.head? = some c := by
  obtain ⟨r, hr⟩ := trimEnd_isPrefix s
  obtain ⟨t, ht⟩ := head?_eq_some_iff.mp h
  rw [← hr, ht]
  rfl

theorem trim_eq_trimEnd (h : s.head? = some c) (hc : isWhitespace c = false) : trim s = trimEnd s := by
  obtain ⟨t, rfl⟩ := head?_eq_some_iff.mp h
  rw [trim, trimStart, dropWhile_cons_of_neg (by simp [hc])]

theorem trimEnd_eq_nil (h : trim s = []) : trimEnd s = [] := by
  rw [trimEnd, rdropWhile_eq_nil_iff]
  rw [trim, trimEnd, rdropWhile_eq_nil_iff] at h
  intro c hc
  rw [← takeWhile_append_dropWhile (p := isWhitespace) (l := s)] at hc
  rcases mem_append.mp hc with hc | hc
  · exact mem_takeWhile_imp hc
  · exact h c hc

theorem trimEnd_append_blank (s : Text) (h : trimEnd r = []) : trimEnd (s ++ r) = trimEnd s := by
  rw [trimEnd, rdropWhile_eq_nil_iff] at h
  unfold trimEnd rdropWhile
  rw [reverse_append, dropWhile_append, if_pos]
  simpa using h

theorem length_trimEnd_lt (h : trimEnd s ≠ s) : (trimEnd s).length < s.length := by
  rcases lt_or_ge (trimEnd s).length s.length with hlt | hge
  · exact hlt
  · exact absurd ((trimEnd_isPrefix s).eq_of_length_le hge) h

/-! ## Lines -/

theorem not_mem_of_mem_splitOn (h : w ∈ s.splitOn c) : c ∉ w := by
  induction s generalizing w with
  | nil =>
      simp only [splitOn_nil, mem_singleton] at h
      simp [h]
  | cons a s ih =>
      rw [splitOn_cons_eq_if_modifyHead] at h
      split at h
      · rcases mem_cons.mp h with rfl | h
        · simp
        · exact ih h
      · rename_i hac
        cases hs : s.splitOn c with
        | nil => exact absurd hs (splitOn_ne_nil c s)
        | cons v vs =>
            rw [hs, modifyHead_cons] at h
            rcases mem_cons.mp h with rfl | h
            · have hv := ih (w := v) (by rw [hs]; simp)
              have hac' : c ≠ a := fun hc => hac (by simp [hc])
              simp [hv, hac']
            · exact ih (by rw [hs]; exact mem_cons_of_mem _ h)

@[simp] theorem lines_nil : lines [] = [] := rfl

theorem lines_append (s : Text) (hl : '\n' ∉ l) : lines (l ++ '\n' :: s) = stripCr l :: lines s := by
  have hne := splitOn_ne_nil '\n' s
  rw [lines, lines, splitOn_append_cons_self, splitOn_eq_singleton hl, singleton_append,
    dropLast_cons_of_ne_nil hne, getLast?_cons_of_ne_nil hne]
  rfl

theorem splitInclusive_append (s : Text) (hl : '\n' ∉ l) :
    splitInclusive (l ++ '\n' :: s) = (l ++ ['\n']) :: splitInclusive s := by
  have hne := splitOn_ne_nil '\n' s
  rw [splitInclusive, splitInclusive, splitOn_append_cons_self, splitOn_eq_singleton hl, singleton_append,
    dropLast_cons_of_ne_nil hne, getLast?_cons_of_ne_nil hne]
  rfl

def ofLines (ls : List Text) : Text := ls.flatMap fun l => l ++ ['\n']

@[simp] theorem ofLines_append (ls ls' : List Text) : ofLines (ls ++ ls') = ofLines ls ++ ofLines ls' :=
  flatMap_append

theorem lines_ofLines (h : ∀ l ∈ ls, '\n' ∉ l ∧ '\r' ∉ l) : lines (ofLines ls) = ls := by
  induction ls with
  | nil => rfl
  | cons l ls ih =>
      obtain ⟨hlf, hcr⟩ := h l mem_cons_self
      rw [ofLines, flatMap_cons, append_assoc, singleton_append, lines_append _ hlf, stripCr_eq_self hcr]
      exact congrArg _ (ih fun l' hl' => h l' (mem_cons_of_mem _ hl'))

theorem not_mem_of_mem_lines (h : l ∈ lines s) : '\n' ∉ l := by
  rcases mem_append.mp h with h | h
  · obtain ⟨l', hl', rfl⟩ := mem_map.mp h
    exact not_mem_stripCr (not_mem_of_mem_splitOn (mem_of_mem_dropLast hl'))
  · unfold lastLine at h
    split at h
    · cases h
    · rw [mem_singleton.mp h, getLast?_eq_some_getLast (splitOn_ne_nil '\n' s)]
      exact not_mem_of_mem_splitOn (getLast_mem _)

theorem lines_ofLines_append (hls : ∀ l ∈ ls, '\n' ∉ l) (hb : '\n' ∉ b) :
    lines (ofLines ls ++ b) = ls.map stripCr ++ lastLine b := by
  induction ls with
  | nil => simp [ofLines, lines, splitOn_eq_singleton hb]
  | cons l ls ih =>
      rw [ofLines, flatMap_cons, append_assoc, append_assoc, singleton_append,
        lines_append _ (hls l mem_cons_self), map_cons, cons_append]
      exact congrArg _ (ih fun l' hl' => hls l' (mem_cons_of_mem _ hl'))

theorem splitInclusive_ofLines_append (hls : ∀ l ∈ ls, '\n' ∉ l) (hb : '\n' ∉ b) :
    splitInclusive (ofLines ls ++ b) = ls.map (· ++ ['\n']) ++ lastLine b := by
  induction ls with
  | nil => simp [ofLines, splitInclusive, splitOn_eq_singleton hb]
  | cons l ls ih =>
      rw [ofLines, flatMap_cons, append_assoc, append_assoc, singleton_append,
        splitInclusive_append _ (hls l mem_cons_self)]
      exact congrArg _ (ih fun l' hl' => hls l' (mem_cons_of_mem _ hl'))

theorem exists_ofLines (s : Text) : ∃ ls b, s = ofLines ls ++ b ∧ (∀ l ∈ ls, '\n' ∉ l) ∧ '\n' ∉ b := by
  induction s with
  | nil => exact ⟨[], [], rfl, by simp, by simp⟩
  | cons c s ih =>
      obtain ⟨ls, b, rfl, hls, hb⟩ := ih
      by_cases hc : c = '\n'
      · subst hc
        refine ⟨[] :: ls, b, rfl, ?_, hb⟩
        intro l hl
        rcases mem_cons.mp hl with rfl | hl
        · simp
        · exact hls l hl
      · have hc' : '\n' ≠ c := fun h => hc h.symm
        cases ls with
        | nil => exact ⟨[], c :: b, rfl, by simp, by simp [hc', hb]⟩
        | cons l ls =>
            refine ⟨(c :: l) :: ls, b, by simp [ofLines], ?_, hb⟩
            intro l' hl'
            rcases mem_cons.mp hl' with rfl | hl'
            · simp [hc', hls l mem_cons_self]
            · exact hls l' (mem_cons_of_mem _ hl')

theorem join_concat (ls : List Text) (b : Text) : join ['\n'] (ls ++ [b]) = ofLines ls ++ b := by
  induction ls with
  | nil => simp [join, ofLines]
  | cons l ls ih =>
      rw [join, cons_append, intercalate_cons_of_ne_nil (by simp)]
      rw [join] at ih
      rw [ih]
      simp [ofLines]

theorem lines_trim_join (ha : trim a ≠ []) (hb : trim b ≠ []) (hlf : ∀ l ∈ a :: ls ++ [b], '\n' ∉ l) :
    lines (trim (join ['\n'] (a :: ls ++ [b]))) = stripCr (trimStart a) :: ls.map stripCr ++ [trimEnd b] := by
  have hb' := trimEnd_ne_nil hb
  have hsub : ∀ c ∈ trimEnd b, c ∈ b := fun c hc => ( rdropWhile_prefix _ b).subset hc
  have hlast : lastLine (trimEnd b) = [trimEnd b] := by rw [lastLine, if_neg hb']
  rw [join_concat, ofLines, flatMap_cons, append_assoc, append_assoc, trim,
    trimStart_append _ (trimStart_ne_nil ha), ← append_assoc, ← append_assoc, trimEnd_append _ hb',
    append_assoc, append_assoc, singleton_append, lines_append]
  · have hls : ∀ l ∈ ls, '\n' ∉ l := fun l hl => hlf l (by simp [hl])
    have hbn : '\n' ∉ trimEnd b := fun hc => hlf b (by simp) (hsub _ hc)
    have := lines_ofLines_append hls hbn
    rw [ofLines] at this
    rw [this, hlast, cons_append]
  · intro hc
    exact hlf a (by simp) ((dropWhile_suffix _).subset hc)

theorem trim_cons_ne_nil (s : Text) (h : isWhitespace c = false) : trim (c :: s) ≠ [] := by
  intro hnil
  rw [trim, trimStart, dropWhile_cons_of_neg (by simp [h]), trimEnd, rdropWhile_eq_nil_iff] at hnil
  have := hnil c mem_cons_self
  rw [h] at this
  cases this

/-! ## Words and numbers -/

theorem splitWhitespace_words (ha : ∀ c ∈ a, isWhitespace c = false) (hb : ∀ c ∈ b, isWhitespace c = false)
    (hne : a ≠ []) (hne' : b ≠ []) : splitWhitespace (a ++ ' ' :: b) = [a, b] := by
  rw [splitWhitespace, splitOnP_append_cons a b (by decide), splitOnP_eq_singleton ha,
    splitOnP_eq_singleton hb]
  simp [hne, hne']

theorem digits?_toDigits (n : Nat) : digits? (toDigits 10 n) = some n := by
  have hall : (toDigits 10 n).all Char.isDigit = true := by
    rw [all_eq_true]
    exact fun c hc => isDigit_of_mem_toDigits (by decide) (by decide) hc
  have hval : ofDigitChars 10 (toDigits 10 n) 0 = n := ofDigitChars_toDigits (by decide) (by decide)
  cases hdigits : toDigits 10 n with
  | nil => exact absurd hdigits toDigits_ne_nil
  | cons d ds =>
      rw [hdigits] at hall hval
      show (if (d :: ds).all Char.isDigit then some _ else none) = some n
      rw [if_pos hall]
      exact congrArg some hval

theorem parseUnsigned_toDigits {w n : Nat} (h : n < 2 ^ w) : parseUnsigned w (toDigits 10 n) = some n := by
  have hdigits := digits?_toDigits n
  unfold parseUnsigned
  split
  · rename_i ds hds
    have hplus : '+'.isDigit = true :=
      isDigit_of_mem_toDigits (n := n) (b := 10) (by decide) (by decide) (hds ▸ mem_cons_self)
    exact absurd hplus (by decide)
  · rw [hdigits]
    simp [h]

end Text

end CodexStudy.Lib
