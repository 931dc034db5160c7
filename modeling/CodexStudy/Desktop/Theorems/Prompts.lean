import CodexStudy.Desktop.Prompts

/-!
# Saved prompts read back

A quote is escaped when a prompt is saved, and is not unescaped when it is read.
-/

namespace CodexStudy.Desktop

open CodexStudy.Lib CodexStudy.Lib.Text List Text

variable {text key rest : Text} {value description argumentHint : Option Text} {front : Frontmatter} {segments : List Text}

theorem escapeQuotes_cons (c : Char) (text : Text) :
    escapeQuotes (c :: text) = (if c = '"' then ['\\', '"'] else [c]) ++ escapeQuotes text := rfl

theorem length_escapeQuotes : (escapeQuotes text).length = text.length + text.count '"' := by
  induction text with
  | nil => rfl
  | cons c text ih =>
      rw [escapeQuotes_cons]
      by_cases hc : c = '"'
      · simp [hc, ih]
        omega
      · simp [hc, ih]
        omega

theorem escapeQuotes_eq : escapeQuotes text = text ↔ '"' ∉ text := by
  constructor
  · intro h
    have hlen := @length_escapeQuotes text
    rw [h] at hlen
    rw [← count_eq_zero]
    omega
  · intro h
    induction text with
    | nil => rfl
    | cons c text ih =>
        simp at h
        simp [escapeQuotes_cons, Ne.symm h.1, ih h.2]

theorem not_mem_escapeQuotes (h : '\n' ∉ text) : '\n' ∉ escapeQuotes text := by
  simp only [escapeQuotes, mem_flatMap, not_exists, not_and]
  intro c hc
  by_cases hquote : c = '"'
  · simp [hquote]
  · have hne : c ≠ '\n' := fun heq => h (heq ▸ hc)
    simp [hquote, Ne.symm hne]

theorem readSegments_entry (hkey : key = "description".toList ∨ key = "argument-hint".toList) :
    front.readSegments ((key ++ ": \"" ++ text ++ "\"\n") :: segments) =
      Frontmatter.readSegments
        { (if key = "description".toList then { front with description := some text }
            else { front with argumentHint := some text }) with
          consumed := front.consumed + (key ++ ": \"" ++ text ++ "\"\n").length } segments := by
  have hquote : isWhitespace '"' = false := by decide
  have hval : Text.trim (' ' :: ('"' :: text ++ ['"'])) = '"' :: text ++ ['"'] := by
    have hbl : Text.trimStart (' ' :: ('"' :: text ++ ['"'])) = '"' :: text ++ ['"'] := rfl
    rw [Text.trim, hbl, trimEnd, List.rdropWhile_concat_neg _ _ _ (by simp [hquote])]
  have hunquoted : Frontmatter.unquoted ('"' :: text ++ ['"']) = text := by
    have hlast : ('"' :: text ++ ['"']).getLast? = some '"' := getLast?_concat
    rw [Frontmatter.unquoted, if_pos ⟨by simp, .inl ⟨rfl, hlast⟩⟩]
    exact dropLast_concat
  have hline : (key ++ ": \"" ++ text ++ "\"\n").rdropWhile (fun c => c = '\r' ∨ c = '\n') =
      key ++ ':' :: ' ' :: ('"' :: text ++ ['"']) := by
    rw [show key ++ ": \"" ++ text ++ "\"\n" = key ++ ": \"" ++ text ++ ['"'] ++ ['\n'] by simp,
      List.rdropWhile_concat_pos _ _ _ (by decide), List.rdropWhile_concat_neg _ _ _ (by decide)]
    simp
  obtain ⟨c, k, hck, hbl, hdash, hhash⟩ : ∃ c k, key = c :: k ∧ isWhitespace c = false ∧ c ≠ '-' ∧ c ≠ '#' := by
    rcases hkey with rfl | rfl
    · exact ⟨'d', _, rfl, by decide⟩
    · exact ⟨'a', _, rfl, by decide⟩
  have htrim : Text.trim (key ++ ':' :: ' ' :: ('"' :: text ++ ['"'])) = key ++ ':' :: ' ' :: ('"' :: text ++ ['"']) := by
    rw [trim_eq_trimEnd (c := c) (by simp [hck]) hbl, trimEnd,
      show key ++ ':' :: ' ' :: ('"' :: text ++ ['"']) = key ++ ':' :: ' ' :: '"' :: text ++ ['"'] by simp,
      List.rdropWhile_concat_neg _ _ _ (by simp [hquote])]
  have hent : front.readEntry (key ++ ':' :: ' ' :: ('"' :: text ++ ['"'])) =
      if key = "description".toList then { front with description := some text }
      else { front with argumentHint := some text } := by
    have hspl : splitOnce? ":" (key ++ ':' :: ' ' :: ('"' :: text ++ ['"'])) =
        some (key, ' ' :: ('"' :: text ++ ['"'])) := by rcases hkey with rfl | rfl <;> rfl
    have hlower : toAsciiLowercase key.trim = key := by rcases hkey with rfl | rfl <;> decide
    unfold Frontmatter.readEntry
    rw [hspl]
    simp only [hval, hunquoted, hlower]
    split
    · rfl
    · rw [if_pos (.inl (hkey.resolve_left ‹_›))]
  rw [Frontmatter.readSegments]
  simp only [hline, htrim]
  rw [if_neg (by simp [hck, hdash]), if_neg (by simp [hck, hhash]), hent]

theorem not_mem_shown (hlns : ∀ text ∈ value, '\n' ∉ text) : ∀ text ∈ shown value, '\n' ∉ text := by
  intro text htext hmem
  simp [shown, Option.filter_eq_some_iff] at htext
  obtain ⟨⟨written, hwr, rfl⟩, -⟩ := htext
  exact hlns written hwr ((trim_sublist written).subset hmem)

theorem splitInclusive_entry (hlns : ∀ text ∈ value, '\n' ∉ text) (hkey : '\n' ∉ key) {trimmed : Text}
    (hshn : shown value = some trimmed) :
    splitInclusive (entry key value ++ rest) = entry key value :: splitInclusive rest := by
  have hbody : '\n' ∉ key ++ ": \"".toList ++ escapeQuotes trimmed ++ ['"'] := by
    have := not_mem_escapeQuotes (not_mem_shown hlns trimmed hshn)
    simp [hkey, this]
  have := splitInclusive_append rest hbody
  simpa [entry, hshn] using this

theorem readSegments_description (hlns : ∀ text ∈ description, '\n' ∉ text) (hfro : front.description = none) :
    front.readSegments (splitInclusive (entry "description" description ++ rest)) =
      Frontmatter.readSegments
        { front with
          description := (shown description).map escapeQuotes
          consumed := front.consumed + (entry "description" description).length } (splitInclusive rest) := by
  cases hshn : shown description with
  | none =>
      obtain ⟨_, _, _, _⟩ := front
      cases hfro
      simp [entry, hshn]
  | some trimmed =>
      rw [splitInclusive_entry hlns (by decide) hshn]
      simp only [entry, hshn]
      rw [readSegments_entry (.inl rfl)]
      rfl

theorem readSegments_argumentHint (hlns : ∀ text ∈ argumentHint, '\n' ∉ text) (hfro : front.argumentHint = none) :
    front.readSegments (splitInclusive (entry "argument-hint" argumentHint ++ rest)) =
      Frontmatter.readSegments
        { front with
          argumentHint := (shown argumentHint).map escapeQuotes
          consumed := front.consumed + (entry "argument-hint" argumentHint).length } (splitInclusive rest) := by
  cases hshn : shown argumentHint with
  | none =>
      obtain ⟨_, _, _, _⟩ := front
      cases hfro
      simp [entry, hshn]
  | some trimmed =>
      rw [splitInclusive_entry hlns (by decide) hshn]
      simp only [entry, hshn]
      rw [readSegments_entry (.inr rfl)]
      rfl

theorem parse_build (hdescription : ∀ text ∈ description, '\n' ∉ text) (hhint : ∀ text ∈ argumentHint, '\n' ∉ text)
    (hmeta : ¬(shown description = none ∧ shown argumentHint = none)) (body : Text) :
    parseFrontmatter (buildPromptContents description argumentHint body) =
      ((shown description).map escapeQuotes, (shown argumentHint).map escapeQuotes, body) := by
  have hdashes : ∀ rest : Text, splitInclusive ("---\n" ++ rest) = "---\n".toList :: splitInclusive rest := fun rest =>
    splitInclusive_append rest (l := "---") (by decide)
  have hfst : trim ("---\n".toList.rdropWhile fun c => c = '\r' ∨ c = '\n') = "---".toList := by decide
  rw [buildPromptContents, if_neg hmeta, append_assoc, append_assoc, append_assoc]
  unfold parseFrontmatter
  rw [hdashes]
  simp only [hfst, ne_eq, not_true_eq_false, if_false]
  rw [readSegments_description hdescription rfl, readSegments_argumentHint hhint rfl, hdashes]
  simp only [Frontmatter.readSegments, hfst, if_true]
  rw [← append_assoc, ← append_assoc, ← append_assoc, drop_left']
  simp
  omega

/-! ## Any number of edits -/

/-- The description and the hint shown after a prompt was saved with some bodies, each time as it was read. -/
def savedMeta (description argumentHint : Option Text) : List Text → Option Text × Option Text
  | [] => (shown description, shown argumentHint)
  | body :: bodies =>
      let (description, argumentHint, _) := parseFrontmatter (buildPromptContents description argumentHint body)
      savedMeta description argumentHint bodies

theorem shown_shown (value : Option Text) : shown (shown value) = shown value := by
  have htrim : ∀ text : Text, trim (trim text) = trim text := fun text =>
    (trim_trimEnd (trimStart text)).trans (trim_trimStart text)
  cases value with
  | none => rfl
  | some text => by_cases hbl : trim text = [] <;> simp [shown, hbl, Option.filter, htrim]

theorem map_escapeQuotes_eq : (shown value).map escapeQuotes = shown value ↔ ∀ text ∈ shown value, '"' ∉ text := by
  cases shown value with
  | none => simp
  | some text => simp [escapeQuotes_eq]

/-- A saved prompt reads back, however often it is saved, exactly if description and hint have no quote. -/
theorem parse_build_iff (description argumentHint : Option Text) (hdescription : ∀ text ∈ description, '\n' ∉ text)
    (hhint : ∀ text ∈ argumentHint, '\n' ∉ text) (hmeta : ¬(shown description = none ∧ shown argumentHint = none)) :
    ((∀ body, parseFrontmatter (buildPromptContents description argumentHint body) =
        (shown description, shown argumentHint, body)) ∧
      ∀ bodies, savedMeta description argumentHint bodies = (shown description, shown argumentHint)) ↔
    (∀ text ∈ shown description, '"' ∉ text) ∧ ∀ text ∈ shown argumentHint, '"' ∉ text := by
  have hread := fun body => parse_build hdescription hhint hmeta body
  rw [← map_escapeQuotes_eq, ← map_escapeQuotes_eq]
  constructor
  · intro ⟨h, _⟩
    have hbody := (hread []).symm.trans (h [])
    simp only [Prod.mk.injEq] at hbody
    exact ⟨hbody.1, hbody.2.1⟩
  · intro ⟨hd, hh⟩
    refine ⟨fun body => by rw [hread, hd, hh], fun bodies => ?_⟩
    have hsav : ∀ bodies, savedMeta (shown description) (shown argumentHint) bodies =
        (shown description, shown argumentHint) := by
      intro bodies
      induction bodies with
      | nil => simp [savedMeta, shown_shown]
      | cons body bodies ih =>
          have hagain := @parse_build (shown description) (shown argumentHint) (not_mem_shown hdescription)
            (not_mem_shown hhint) (by simpa [shown_shown] using hmeta) body
          simp only [shown_shown, hd, hh] at hagain
          simp [savedMeta, hagain, ih]
    cases bodies with
    | nil => rfl
    | cons body bodies => simp [savedMeta, hread, hd, hh, hsav]

theorem parse_build_iff_sample :
    ((∀ body, parseFrontmatter (buildPromptContents (some " a: 'b' #") none body) =
        (shown (some " a: 'b' #"), shown none, body)) ∧
      ∀ bodies, savedMeta (some " a: 'b' #") none bodies = (shown (some " a: 'b' #"), shown none)) ↔
    (∀ text ∈ shown (some " a: 'b' #"), '"' ∉ text) ∧ ∀ text ∈ shown none, '"' ∉ text :=
  parse_build_iff _ _ (by simp) (by simp) (by decide)

/-- A quote comes back escaped, and the next save escapes it again. -/
theorem quote_is_escaped :
    (parseFrontmatter (buildPromptContents (some "say \"hi\"") none "body")).1 = some "say \\\"hi\\\"".toList ∧
      shown (some "say \"hi\"") ≠ some "say \\\"hi\\\"".toList ∧
      (savedMeta (some "say \"hi\"") none ["body", "body"]).1 = some "say \\\\\"hi\\\\\"".toList := by
  decide +kernel

end CodexStudy.Desktop
