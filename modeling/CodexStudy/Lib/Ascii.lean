import CodexStudy.Lib.Text

/-!
# ASCII letters

The lower-case form of a text changes its upper-case ASCII letters only.
-/

namespace CodexStudy.Lib.Text

open List

def toAsciiLowercase (s : Text) : Text := s.map Char.toLower

/-- What stands before and after the first occurrence of `sep`. -/
def splitOnce? (sep : Text) : Text → Option (Text × Text)
  | [] => none
  | c :: s =>
      match stripPrefix? sep (c :: s) with
      | some rest => some ([], rest)
      | none => (splitOnce? sep s).map fun (before, after) => (c :: before, after)

def trimEndMatches (c : Char) (s : Text) : Text := s.rdropWhile (· == c)

def isAscii (s : Text) : Prop := ∀ c ∈ s, c.toNat < 128

instance (s : Text) : Decidable (isAscii s) := inferInstanceAs (Decidable (∀ c ∈ s, c.toNat < 128))

/-! ## One character -/

theorem toLower_cases (c : Char) :
    c.toLower = c ∨ (65 ≤ c.toNat ∧ c.toNat ≤ 90 ∧ 97 ≤ c.toLower.toNat ∧ c.toLower.toNat ≤ 122) := by
  unfold Char.toLower
  split
  · rename_i h
    obtain ⟨hlow, hhigh⟩ := h
    right
    have h1 : 65 ≤ c.toNat := hlow
    have h2 : c.toNat ≤ 90 := hhigh
    refine ⟨h1, h2, ?_⟩
    have hval : (c.val + ('a'.val - 'A'.val)).toNat = c.toNat + 32 := by
      have hc : c.val.toNat = c.toNat := rfl
      rw [UInt32.toNat_add, hc]
      have : ('a'.val - 'A'.val).toNat = 32 := by decide
      rw [this]
      omega
    change 97 ≤ (c.val + ('a'.val - 'A'.val)).toNat ∧ (c.val + ('a'.val - 'A'.val)).toNat ≤ 122
    omega
  · exact Or.inl rfl

theorem toLower_eq_iff {c d : Char} (hd : d.toNat < 65 ∨ 90 < d.toNat ∧ d.toNat < 97 ∨ 122 < d.toNat) :
    c.toLower = d ↔ c = d := by
  rcases toLower_cases c with h | ⟨h1, h2, h3, h4⟩
  · rw [h]
  · constructor
    · rintro rfl
      omega
    · rintro rfl
      omega

theorem toLower_toLower (c : Char) : c.toLower.toLower = c.toLower := by
  rcases toLower_cases c with h | ⟨_, _, h3, h4⟩
  · rw [h, h]
  · rcases toLower_cases c.toLower with h | ⟨h5, h6, _, _⟩
    · exact h
    · omega

theorem isAlpha_iff (c : Char) : c.isAlpha = true ↔ (65 ≤ c.toNat ∧ c.toNat ≤ 90) ∨ (97 ≤ c.toNat ∧ c.toNat ≤ 122) := by
  have hupper : c.isUpper = decide (65 ≤ c.toNat ∧ c.toNat ≤ 90) := rfl
  have hlower : c.isLower = (decide (97 ≤ c.toNat) && decide (c.toNat ≤ 122)) := rfl
  rw [show c.isAlpha = (c.isUpper || c.isLower) from rfl, hupper, hlower, Bool.or_eq_true, Bool.and_eq_true,
    decide_eq_true_eq, decide_eq_true_eq, decide_eq_true_eq]

theorem isAlpha_toLower (c : Char) : c.toLower.isAlpha = c.isAlpha := by
  rw [Bool.eq_iff_iff, isAlpha_iff, isAlpha_iff]
  rcases toLower_cases c with h | ⟨h1, h2, h3, h4⟩
  · rw [h]
  · constructor
    · exact fun _ => .inl ⟨h1, h2⟩
    · exact fun _ => .inr ⟨h3, h4⟩

theorem isWhitespace_eq_false {c : Char} (h1 : 65 ≤ c.toNat) (h2 : c.toNat ≤ 122) : isWhitespace c = false := by
  simp only [isWhitespace, Bool.or_eq_false_iff, Bool.and_eq_false_iff, decide_eq_false_iff_not, beq_eq_false_iff_ne]
  omega

theorem isWhitespace_of_isAlpha {c : Char} (h : c.isAlpha = true) : isWhitespace c = false := by
  rcases (isAlpha_iff c).mp h with ⟨h1, h2⟩ | ⟨h1, h2⟩
  · exact isWhitespace_eq_false h1 (by omega)
  · exact isWhitespace_eq_false (by omega) h2

theorem isWhitespace_toLower (c : Char) : isWhitespace c.toLower = isWhitespace c := by
  rcases toLower_cases c with h | ⟨h1, h2, h3, h4⟩
  · rw [h]
  · rw [isWhitespace_eq_false h1 (by omega), isWhitespace_eq_false (by omega) h4]

/-! ## Texts -/

variable {s t : Text} {c : Char}

@[simp] theorem toAsciiLowercase_nil : toAsciiLowercase [] = [] := rfl

@[simp] theorem toAsciiLowercase_cons (c : Char) (s : Text) :
    toAsciiLowercase (c :: s) = c.toLower :: toAsciiLowercase s := rfl

@[simp] theorem toAsciiLowercase_append (s t : Text) :
    toAsciiLowercase (s ++ t) = toAsciiLowercase s ++ toAsciiLowercase t := map_append

@[simp] theorem toAsciiLowercase_toAsciiLowercase (s : Text) :
    toAsciiLowercase (toAsciiLowercase s) = toAsciiLowercase s := by
  unfold toAsciiLowercase
  rw [map_map]
  exact map_congr_left fun c _ => toLower_toLower c

@[simp] theorem toAsciiLowercase_eq_nil : toAsciiLowercase s = [] ↔ s = [] := map_eq_nil_iff

theorem mem_toAsciiLowercase (hc : c.toNat < 65 ∨ 90 < c.toNat ∧ c.toNat < 97 ∨ 122 < c.toNat) :
    c ∈ toAsciiLowercase s ↔ c ∈ s := by
  unfold toAsciiLowercase
  rw [mem_map]
  constructor
  · rintro ⟨d, hd, heq⟩
    rwa [← (toLower_eq_iff hc).mp heq]
  · intro h
    exact ⟨c, h, (toLower_eq_iff hc).mpr rfl⟩

variable {p : Char → Bool} {before after : Text}

theorem dropWhile_toAsciiLowercase (hp : ∀ c, p c.toLower = p c) (s : Text) :
    (toAsciiLowercase s).dropWhile p = toAsciiLowercase (s.dropWhile p) := by
  unfold toAsciiLowercase
  rw [dropWhile_map]
  exact congrArg _ (congrFun (congrArg _ (funext hp)) s)

theorem takeWhile_toAsciiLowercase (hp : ∀ c, p c.toLower = p c) (s : Text) :
    (toAsciiLowercase s).takeWhile p = toAsciiLowercase (s.takeWhile p) := by
  unfold toAsciiLowercase
  rw [takeWhile_map]
  exact congrArg _ (congrFun (congrArg _ (funext hp)) s)

theorem rdropWhile_toAsciiLowercase (hp : ∀ c, p c.toLower = p c) (s : Text) :
    (toAsciiLowercase s).rdropWhile p = toAsciiLowercase (s.rdropWhile p) := by
  have hrev : (toAsciiLowercase s).reverse = toAsciiLowercase s.reverse := map_reverse.symm
  unfold rdropWhile
  rw [hrev, dropWhile_toAsciiLowercase hp]
  exact map_reverse.symm

theorem trim_toAsciiLowercase (s : Text) : trim (toAsciiLowercase s) = toAsciiLowercase (trim s) := by
  unfold trim trimStart trimEnd
  rw [dropWhile_toAsciiLowercase isWhitespace_toLower, rdropWhile_toAsciiLowercase isWhitespace_toLower]

theorem trimEndMatches_toAsciiLowercase (hc : c.toNat < 65 ∨ 90 < c.toNat ∧ c.toNat < 97 ∨ 122 < c.toNat) (s : Text) :
    trimEndMatches c (toAsciiLowercase s) = toAsciiLowercase (trimEndMatches c s) := by
  refine rdropWhile_toAsciiLowercase (fun d => ?_) s
  rw [Bool.eq_iff_iff, beq_iff_eq, beq_iff_eq, toLower_eq_iff hc]

theorem stripPrefix?_toAsciiLowercase {p : Text} (hp : ∀ c ∈ p, c.toNat < 65 ∨ 90 < c.toNat ∧ c.toNat < 97 ∨ 122 < c.toNat)
    (s : Text) : stripPrefix? p (toAsciiLowercase s) = (stripPrefix? p s).map toAsciiLowercase := by
  have hpre : p <+: toAsciiLowercase s ↔ p <+: s := by
    induction p generalizing s with
    | nil => simp
    | cons c p ih =>
        cases s with
        | nil => simp
        | cons d s =>
            rw [toAsciiLowercase_cons, cons_prefix_cons, cons_prefix_cons,
              ih (fun c hc => hp c (mem_cons_of_mem _ hc)), eq_comm,
              toLower_eq_iff (hp c mem_cons_self), eq_comm]
  unfold stripPrefix?
  by_cases h : p <+: s
  · rw [if_pos h, if_pos (hpre.mpr h)]
    exact congrArg some (map_drop).symm
  · rw [if_neg h, if_neg fun h' => h (hpre.mp h')]
    rfl

/-! ## Texts without white space -/

theorem trim_eq_self (h : ∀ c ∈ s, isWhitespace c = false) : trim s = s := by
  have hst : trimStart s = s := by
    unfold trimStart
    cases s with
    | nil => rfl
    | cons c s => rw [dropWhile_cons_of_neg (by simp [h c mem_cons_self])]
  unfold trim
  rw [hst]
  unfold trimEnd
  rcases eq_nil_or_concat' s with rfl | ⟨s, c, rfl⟩
  · rfl
  · exact rdropWhile_concat_neg _ _ _ (by simp [h c (by simp)])

@[simp] theorem trim_trim (s : Text) : trim (trim s) = trim s := by
  -- The trimmed text still starts with the character that the text without leading white space starts with.
  unfold trim
  cases hs : trimStart s with
  | nil => rfl
  | cons c t =>
      have hc : isWhitespace c = false := by
        have := head?_dropWhile_not isWhitespace s
        unfold trimStart at hs
        rw [hs] at this
        simpa using this
      have hhead : ∃ u, trimEnd (c :: t) = c :: u := by
        have hpre := rdropWhile_prefix isWhitespace (c :: t)
        have hne : trimEnd (c :: t) ≠ [] := by
          intro hnil
          have := rdropWhile_eq_nil_iff.mp hnil c mem_cons_self
          simp [hc] at this
        unfold trimEnd at hne ⊢
        obtain ⟨d, u, hu⟩ := exists_cons_of_ne_nil hne
        rw [hu, cons_prefix_cons] at hpre
        exact ⟨u, by rw [hu, hpre.1]⟩
      obtain ⟨u, hu⟩ := hhead
      have hst : trimStart (c :: u) = c :: u := dropWhile_cons_of_neg (by simp [hc])
      rw [hu, hst, ← hu, trimEnd_trimEnd]

theorem splitOnce?_eq_none (h : c ∉ s) (r : Text) : splitOnce? (c :: r) s = none := by
  induction s with
  | nil => rfl
  | cons d s ih =>
      obtain ⟨hd, hs⟩ := not_or.mp (mt mem_cons.mpr h)
      have hnone : stripPrefix? (c :: r) (d :: s) = none := by
        rw [stripPrefix?_eq_none, cons_prefix_cons]
        exact fun hpre => hd hpre.1
      rw [splitOnce?, hnone, ih hs]
      rfl

theorem splitOnce?_eq_some {sep : Text} (h : splitOnce? sep s = some (before, after)) :
    s = before ++ (sep ++ after) := by
  induction s generalizing before with
  | nil => cases h
  | cons c s ih =>
      unfold splitOnce? at h
      cases hstrip : stripPrefix? sep (c :: s) with
      | some rest =>
          rw [hstrip] at h
          cases h
          rw [nil_append]
          exact stripPrefix?_eq_some.mp hstrip
      | none =>
          rw [hstrip] at h
          obtain ⟨⟨before', after'⟩, hrest, heq⟩ := Option.map_eq_some_iff.mp h
          cases heq
          exact congrArg (c :: ·) (ih hrest)

theorem not_mem_of_splitOnce? (h : splitOnce? [c] s = some (before, after)) : c ∉ before := by
  induction s generalizing before with
  | nil => cases h
  | cons d s ih =>
      unfold splitOnce? at h
      cases hstrip : stripPrefix? [c] (d :: s) with
      | some rest =>
          rw [hstrip] at h
          cases h
          exact not_mem_nil
      | none =>
          rw [hstrip] at h
          obtain ⟨⟨before', after'⟩, hrest, heq⟩ := Option.map_eq_some_iff.mp h
          cases heq
          rintro (hd | ⟨_, hmem⟩)
          · exact stripPrefix?_eq_none.mp hstrip ⟨s, rfl⟩
          · exact ih hrest hmem

theorem splitOnce?_append (after : Text) (h : c ∉ before) :
    splitOnce? [c] (before ++ c :: after) = some (before, after) := by
  induction before with
  | nil =>
      have hstrip : stripPrefix? [c] (c :: after) = some after := stripPrefix?_append [c] after
      rw [nil_append, splitOnce?, hstrip]
  | cons d before ih =>
      obtain ⟨hd, hbef⟩ := not_or.mp (mt mem_cons.mpr h)
      have hstrip : stripPrefix? [c] (d :: (before ++ c :: after)) = none := by
        rw [stripPrefix?_eq_none, cons_prefix_cons]
        exact fun hpre => hd hpre.1
      rw [cons_append, splitOnce?, hstrip, ih hbef]
      rfl

end CodexStudy.Lib.Text
