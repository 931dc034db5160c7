import CodexStudy.NewCore.Diff

/-!
# The diff that git prints

The unified diff of a list of files as `git` prints it, and how the parser reads its lines.
-/

namespace CodexStudy.NewCore

open CodexStudy.Lib Text List Nat Diff.Parser

/-! ## Hunks -/

inductive HunkLine where
  | context (text : Text)
  | removed (text : Text)
  | added (text : Text)
  | noNewline

def HunkLine.render : HunkLine → Text
  | context text => ' ' :: text
  | removed text => '-' :: text
  | added text => '+' :: text
  | noNewline => "\\ No newline at end of file"

def HunkLine.old? : HunkLine → Option Text
  | context text => some text
  | removed text => some text
  | _ => none

def HunkLine.new? : HunkLine → Option Text
  | context text => some text
  | added text => some text
  | _ => none

def HunkLine.removed? : HunkLine → Option Text
  | removed text => some text
  | _ => none

def HunkLine.added? : HunkLine → Option Text
  | added text => some text
  | _ => none

def renderRange (start count : Nat) : Text :=
  toDigits 10 start ++ if count = 1 then [] else ',' :: toDigits 10 count

/-- A hunk as it is printed: two ranges, the text behind them, and the lines. -/
structure GitHunk where
  oldStart : Nat
  oldLines : Nat
  newStart : Nat
  newLines : Nat
  heading : Text
  lines : List HunkLine
  fits : oldStart < 2 ^ 64 ∧ oldLines < 2 ^ 64 ∧ newStart < 2 ^ 64 ∧ newLines < 2 ^ 64
  heading_oneLine : '\n' ∉ heading
  lines_oneLine : ∀ line ∈ lines, '\n' ∉ line.render

namespace GitHunk

def ranges (hunk : GitHunk) : Text :=
  ('-' :: renderRange hunk.oldStart hunk.oldLines) ++ ' ' :: '+' :: renderRange hunk.newStart hunk.newLines

def header (hunk : GitHunk) : Text := "@@ " ++ (hunk.ranges ++ (" @@" ++ hunk.heading))

def render (hunk : GitHunk) : List Text := hunk.header :: hunk.lines.map HunkLine.render

def removals (hunk : GitHunk) : List Text := hunk.lines.filterMap HunkLine.removed?

def additions (hunk : GitHunk) : List Text := hunk.lines.filterMap HunkLine.added?

end GitHunk

/-! ## Files -/

def needsQuote (c : Char) : Bool := c.toNat < 0x20 || c == '"' || c == '\\' || 0x7F ≤ c.toNat

def octalByte (b : UInt8) : Text :=
  ['\\', digitChar (b.toNat / 64), digitChar (b.toNat / 8 % 8), digitChar (b.toNat % 8)]

def quoteChar (c : Char) : Text :=
  if c = '"' then ['\\', '"']
  else if c = '\\' then ['\\', '\\']
  else if c.toNat = 7 then ['\\', 'a']
  else if c.toNat = 8 then ['\\', 'b']
  else if c = '\t' then ['\\', 't']
  else if c = '\n' then ['\\', 'n']
  else if c.toNat = 11 then ['\\', 'v']
  else if c.toNat = 12 then ['\\', 'f']
  else if c = '\r' then ['\\', 'r']
  else if needsQuote c then (String.utf8EncodeChar c).flatMap octalByte
  else [c]

def quotePath (path : Text) : Text :=
  if path.any needsQuote then '"' :: path.flatMap quoteChar ++ ['"'] else path

/-- A file of the diff: the lines between its name and the first hunk (mode, hashes, binary), and the hunks. -/
structure GitFile where
  path : Text
  headers : List Text
  hunks : List GitHunk
  path_noSpace : ∀ c ∈ path, isWhitespace c = false
  headers_plain : ∀ line ∈ headers, '\n' ∉ line ∧ ¬ "diff --git " <+: line ∧ ¬ "@@ " <+: line

namespace GitFile

def nameLine (file : GitFile) : Text :=
  "diff --git " ++ (quotePath ('a' :: '/' :: file.path) ++ ' ' :: quotePath ('b' :: '/' :: file.path))

def render (file : GitFile) : List Text := file.nameLine :: (file.headers ++ file.hunks.flatMap GitHunk.render)

end GitFile

def renderDiff (files : List GitFile) : Text := ofLines (files.flatMap GitFile.render)

/-! ## What is read of a hunk -/

/-- The texts of the lines as the parser keeps them: without a carriage return at the end, and none that is
empty. -/
def keptTexts (texts : List Text) : List Text := (texts.map stripCr).filter fun text => !text.isEmpty

variable {c : Char} {start count : Nat} {path : Text}

theorem toDigits_ne {n : Nat} (hc : c.isDigit = false) : c ∉ toDigits 10 n := by
  intro hmem
  rw [isDigit_of_mem_toDigits (by decide) (by decide) hmem] at hc
  cases hc

theorem renderRange_mem (hc : c ∈ renderRange start count) :
    c.isDigit = true ∨ c = ',' := by
  rcases mem_append.mp hc with hc | hc
  · exact .inl (isDigit_of_mem_toDigits (by decide) (by decide) hc)
  · split at hc
    · cases hc
    · rcases mem_cons.mp hc with rfl | hc
      · exact .inr rfl
      · exact .inl (isDigit_of_mem_toDigits (by decide) (by decide) hc)

theorem parseRange_renderRange (hst : start < 2 ^ 64) (hcnt : count < 2 ^ 64) :
    parseRange (renderRange start count) = some (start, count) := by
  have hcomma : ',' ∉ toDigits 10 start := toDigits_ne (by decide)
  by_cases hone : count = 1
  · have hrange : renderRange start count = toDigits 10 start := by simp [renderRange, hone]
    have htake : (toDigits 10 start).takeWhile (· ≠ ',') = toDigits 10 start := by
      rw [takeWhile_eq_self_iff]
      intro c hc
      simpa using fun h : c = ',' => hcomma (h ▸ hc)
    rw [hrange, parseRange, htake, parseUnsigned_toDigits hst]
    simp [hcomma, hone]
  · have hrange : renderRange start count = toDigits 10 start ++ ',' :: toDigits 10 count := by
      simp [renderRange, hone]
    have hall : ∀ c ∈ toDigits 10 start, decide (c ≠ ',') = true := by
      intro c hc
      simpa using fun h : c = ',' => hcomma (h ▸ hc)
    have htake : (toDigits 10 start ++ ',' :: toDigits 10 count).takeWhile (· ≠ ',') =
        toDigits 10 start := by
      rw [takeWhile_append_of_pos hall]
      simp
    have hdrop : (toDigits 10 start ++ ',' :: toDigits 10 count).dropWhile (· ≠ ',') =
        ',' :: toDigits 10 count := by
      rw [dropWhile_append_of_pos hall]
      simp
    rw [hrange, parseRange, htake, hdrop, parseUnsigned_toDigits hst]
    simp [parseUnsigned_toDigits hcnt]

theorem beforeFirst_append {x : Text} (hx : '@' ∉ x) (y : Text) : beforeFirst " @@" (x ++ (" @@" ++ y)) = x := by
  induction x with
  | nil =>
      rw [nil_append]
      show beforeFirst [' ', '@', '@'] (' ' :: '@' :: '@' :: y) = []
      rw [beforeFirst, if_pos]
      exact ⟨y, rfl⟩
  | cons c x ih =>
      have hc : '@' ≠ c := fun h => hx (h ▸ mem_cons_self)
      have hx' : '@' ∉ x := fun h => hx (mem_cons_of_mem _ h)
      rw [cons_append, beforeFirst, if_neg, ih hx']
      rintro ⟨r, hr⟩
      cases x with
      | nil => simp at hr
      | cons d x =>
          have hd : '@' ≠ d := fun h => hx' (h ▸ mem_cons_self)
          simp at hr
          exact hd hr.2.1

section

variable (hunk : GitHunk)

theorem ranges_mem (hc : c ∈ hunk.ranges) : c.isDigit = true ∨ c ∈ [',', '-', '+', ' '] := by
  unfold GitHunk.ranges at hc
  have hrange : ∀ start count, c ∈ renderRange start count → c.isDigit = true ∨ c ∈ [',', '-', '+', ' '] := by
    intro start count h
    rcases renderRange_mem h with h | rfl
    · exact .inl h
    · exact .inr (by simp)
  simp only [mem_append, mem_cons] at hc
  rcases hc with (rfl | hc) | rfl | rfl | hc
  · exact .inr (by simp)
  · exact hrange _ _ hc
  · exact .inr (by simp)
  · exact .inr (by simp)
  · exact hrange _ _ hc

theorem isWhitespace_of_isDigit (hc : c.isDigit = true) : isWhitespace c = false := by
  simp only [Char.isDigit, Bool.and_eq_true, decide_eq_true_eq, UInt32.le_iff_toNat_le] at hc
  have h₁ : 48 ≤ c.toNat := hc.1
  have h₂ : c.toNat ≤ 57 := hc.2
  simp only [isWhitespace, Bool.or_eq_false_iff, Bool.and_eq_false_iff, decide_eq_false_iff_not, beq_eq_false_iff_ne]
  omega

theorem ranges_words : hunk.ranges.splitWhitespace =
    ['-' :: renderRange hunk.oldStart hunk.oldLines, '+' :: renderRange hunk.newStart hunk.newLines] := by
  have hword : ∀ (mark : Char) (start count : Nat), isWhitespace mark = false →
      ∀ c ∈ mark :: renderRange start count, isWhitespace c = false := by
    intro mark start count hmark c hc
    rcases mem_cons.mp hc with rfl | hc
    · exact hmark
    · rcases renderRange_mem hc with hc | rfl
      · exact isWhitespace_of_isDigit hc
      · decide
  exact splitWhitespace_words (hword _ _ _ (by decide)) (hword _ _ _ (by decide)) (cons_ne_nil _ _)
    (cons_ne_nil _ _)

theorem ranges_no_at : '@' ∉ hunk.ranges := by
  intro hmem
  rcases ranges_mem hunk hmem with h | h
  · exact absurd h (by decide)
  · exact absurd h (by decide)

theorem parseHunkHeader_ranges (rest : Text) : Diff.parseHunkHeader ("@@ " ++ (hunk.ranges ++ (" @@" ++ rest))) =
      some { header := "@@ " ++ (hunk.ranges ++ (" @@" ++ rest)),
             oldStart := hunk.oldStart, oldLines := hunk.oldLines, newStart := hunk.newStart, newLines := hunk.newLines,
             preview := ["@@ " ++ (hunk.ranges ++ (" @@" ++ rest))], removals := [], additions := [] } := by
  obtain ⟨h₁, h₂, h₃, h₄⟩ := hunk.fits
  rw [Diff.parseHunkHeader, stripPrefix?_append]
  simp only [Option.bind_eq_bind, Option.bind_some]
  rw [beforeFirst_append (ranges_no_at hunk), ranges_words]
  have hminus : ∀ r : Text, stripPrefix? ['-'] ('-' :: r) = some r := fun r => stripPrefix?_append ['-'] r
  have hplus : ∀ r : Text, stripPrefix? ['+'] ('+' :: r) = some r := fun r => stripPrefix?_append ['+'] r
  simp only [hminus, hplus, parseRange_renderRange h₁ h₂, parseRange_renderRange h₃ h₄, Option.bind_some, Option.pure_def]

theorem stripCr_header : stripCr hunk.header = "@@ " ++ (hunk.ranges ++ (" @@" ++ stripCr hunk.heading)) := by
  have hcr : '\r' ∉ hunk.ranges := by
    intro hmem
    rcases ranges_mem hunk hmem with h | h
    · exact absurd h (by decide)
    · exact absurd h (by decide)
  rw [GitHunk.header, stripCr_append _ (by decide), stripCr_append _ hcr, stripCr_append _ (by decide)]

end

structure Reads (hunk : GitHunk) (parsed : Diff.ParsedHunk) : Prop where
  ranges : parsed.oldStart = hunk.oldStart ∧ parsed.oldLines = hunk.oldLines ∧ parsed.newStart = hunk.newStart ∧
    parsed.newLines = hunk.newLines
  removals : parsed.removals = keptTexts hunk.removals
  additions : parsed.additions = keptTexts hunk.additions

theorem line_of_hunkLine (st : Diff.Parser) (line : HunkLine) : st.line (stripCr line.render) =
      { st with currentHunk := st.currentHunk.map fun hunk => hunk.take (stripCr line.render) } := by
  have hhead : ∀ c : Char, c ≠ '\r' → c ∈ ['d', 'B', '@'] → (stripCr line.render).head? ≠ some c := by
    intro c hcr hc h
    rw [head?_stripCr _ hcr] at h
    cases line with
    | context text => cases h; exact absurd hc (by decide)
    | removed text => cases h; exact absurd hc (by decide)
    | added text => cases h; exact absurd hc (by decide)
    | noNewline => cases h; exact absurd hc (by decide)
  have hfile : ¬ "diff --git " <+: stripCr line.render :=
    not_prefix_of_head? rfl (hhead 'd' (by decide) (by decide))
  have hbinary : ¬ "Binary files " <+: stripCr line.render :=
    not_prefix_of_head? rfl (hhead 'B' (by decide) (by decide))
  have hhunk : ¬ "@@ " <+: stripCr line.render :=
    not_prefix_of_head? rfl (hhead '@' (by decide) (by decide))
  rw [Diff.Parser.line, if_neg hfile, if_neg hbinary, if_neg hhunk]

theorem foldl_hunkLines (lines : List HunkLine) (st : Diff.Parser) :
    (lines.map fun line => stripCr line.render).foldl Diff.Parser.line st =
      { st with currentHunk := st.currentHunk.map fun hunk =>
          (lines.map fun line => stripCr line.render).foldl Diff.ParsedHunk.take hunk } := by
  induction lines generalizing st with
  | nil => cases hhunk : st.currentHunk <;> simp [← hhunk]
  | cons line lines ih =>
      rw [map_cons, foldl_cons, line_of_hunkLine, ih]
      simp [Option.map_map, Function.comp_def]

theorem take_hunkLine (hunk : Diff.ParsedHunk) (line : HunkLine) :
    let next := hunk.take (stripCr line.render)
    (next.oldStart = hunk.oldStart ∧ next.oldLines = hunk.oldLines ∧ next.newStart = hunk.newStart ∧
      next.newLines = hunk.newLines) ∧
    next.removals = hunk.removals ++ keptTexts line.removed?.toList ∧
    next.additions = hunk.additions ++ keptTexts line.added?.toList := by
  have hmark : ∀ (c : Char) (text : Text), c ≠ '\r' → stripCr (c :: text) = c :: stripCr text :=
    fun c text hc => stripCr_append (p := [c]) text (by simpa using hc.symm)
  cases line with
  | context text =>
      have hline : stripCr (HunkLine.context text).render = ' ' :: stripCr text := hmark ' ' text (by decide)
      rw [hline]
      cases stripCr text with
      | nil => simp [hunk.take_mark, HunkLine.removed?, HunkLine.added?, keptTexts]
      | cons c rest => simp [hunk.take_context, HunkLine.removed?, HunkLine.added?, keptTexts]
  | removed text =>
      have hline : stripCr (HunkLine.removed text).render = '-' :: stripCr text := hmark '-' text (by decide)
      rw [hline]
      cases htext : stripCr text with
      | nil => simp [hunk.take_mark, HunkLine.removed?, HunkLine.added?, keptTexts, htext]
      | cons c rest => simp [hunk.take_removed, HunkLine.removed?, HunkLine.added?, keptTexts, htext]
  | added text =>
      have hline : stripCr (HunkLine.added text).render = '+' :: stripCr text := hmark '+' text (by decide)
      rw [hline]
      cases htext : stripCr text with
      | nil => simp [hunk.take_mark, HunkLine.removed?, HunkLine.added?, keptTexts, htext]
      | cons c rest => simp [hunk.take_added, HunkLine.removed?, HunkLine.added?, keptTexts, htext]
  | noNewline =>
      have hline : stripCr HunkLine.noNewline.render = "\\ No newline at end of file" := by decide
      have htake : hunk.take "\\ No newline at end of file" = hunk := rfl
      rw [hline, htake]
      simp [HunkLine.removed?, HunkLine.added?, keptTexts]

theorem foldl_take (lines : List HunkLine) (hunk : Diff.ParsedHunk) :
    let last := (lines.map fun line => stripCr line.render).foldl Diff.ParsedHunk.take hunk
    (last.oldStart = hunk.oldStart ∧ last.oldLines = hunk.oldLines ∧ last.newStart = hunk.newStart ∧
      last.newLines = hunk.newLines) ∧
    last.removals = hunk.removals ++ keptTexts (lines.filterMap HunkLine.removed?) ∧
    last.additions = hunk.additions ++ keptTexts (lines.filterMap HunkLine.added?) := by
  have happ : ∀ (text? : Option Text) (texts : List Text),
      keptTexts text?.toList ++ keptTexts texts = keptTexts (text?.toList ++ texts) := by
    intro text? texts
    simp [keptTexts]
  induction lines generalizing hunk with
  | nil => simp [keptTexts]
  | cons line lines ih =>
      obtain ⟨⟨h₁, h₂, h₃, h₄⟩, hremovals, hadditions⟩ := take_hunkLine hunk line
      obtain ⟨⟨h₁', h₂', h₃', h₄'⟩, hremovals', hadditions'⟩ := ih (hunk.take (stripCr line.render))
      refine ⟨⟨h₁'.trans h₁, h₂'.trans h₂, h₃'.trans h₃, h₄'.trans h₄⟩, ?_, ?_⟩
      · rw [map_cons, foldl_cons, hremovals', hremovals, append_assoc, happ]
        cases hline : line.removed? <;> simp [hline]
      · rw [map_cons, foldl_cons, hadditions', hadditions, append_assoc, happ]
        cases hline : line.added? <;> simp [hline]

/-! ## What is read of a file -/

theorem foldl_hunk (hunk : GitHunk) (st : Diff.Parser) : ∃ parsed, Reads hunk parsed ∧
    (hunk.render.map stripCr).foldl line st = { st with current := st.file, currentHunk := some parsed } := by
  have hheader : st.line (stripCr hunk.header) =
      { st with current := st.file, currentHunk := Diff.parseHunkHeader (stripCr hunk.header) } := by
    have hhunk : "@@ " <+: stripCr hunk.header := by
      rw [stripCr_header]
      exact prefix_append _ _
    have hfile : ¬ "diff --git " <+: stripCr hunk.header :=
      not_prefix_of_take 1 (by decide) (by decide) (by decide) hhunk
    have hbinary : ¬ "Binary files " <+: stripCr hunk.header :=
      not_prefix_of_take 1 (by decide) (by decide) (by decide) hhunk
    rw [line, if_neg hfile, if_neg hbinary, if_pos hhunk]
  rw [GitHunk.render, map_cons, foldl_cons, hheader, map_map]
  rw [stripCr_header, parseHunkHeader_ranges]
  refine ⟨_, ?_, foldl_hunkLines hunk.lines _⟩
  obtain ⟨hranges, hremovals, hadditions⟩ := foldl_take hunk.lines _
  exact ⟨hranges, hremovals.trans (nil_append _), hadditions.trans (nil_append _)⟩

theorem foldl_hunks (hunks : List GitHunk) (st : Diff.Parser) : ∃ parseds st', List.Forall₂ Reads hunks parseds ∧
    ((hunks.flatMap GitHunk.render).map stripCr).foldl line st = st' ∧
    st'.files = st.files ∧ st'.currentPath = st.currentPath ∧ st'.file.hunks = st.file.hunks ++ parseds ∧
    (st'.currentHunk.isSome ↔ st.currentHunk.isSome ∨ hunks ≠ []) := by
  induction hunks generalizing st with
  | nil => exact ⟨[], st, .nil, rfl, rfl, rfl, (append_nil _).symm, by simp⟩
  | cons hunk hunks ih =>
      obtain ⟨parsed, hrds, hhunk⟩ := foldl_hunk hunk st
      obtain ⟨parseds, st', hparseds, hfold, hfs, hpath, hfile, hsome⟩ :=
        ih { st with current := st.file, currentHunk := some parsed }
      refine ⟨parsed :: parseds, st', .cons hrds hparseds, ?_, hfs, hpath, ?_, ?_⟩
      · rw [flatMap_cons, map_append, foldl_append, hhunk, hfold]
      · rw [hfile]
        simp [file]
      · rw [hsome]
        simp

theorem foldl_headers {headers : List Text}
    (hpl : ∀ line ∈ headers, ¬ "diff --git " <+: line ∧ ¬ "@@ " <+: line) (st : Diff.Parser)
    (hhunk : st.currentHunk = none) : ∃ isBinary, (headers.map stripCr).foldl line st =
      { st with current := { st.current with isBinary } } := by
  induction headers generalizing st with
  | nil => exact ⟨st.current.isBinary, rfl⟩
  | cons line headers ih =>
      obtain ⟨hfile, hat⟩ := hpl line mem_cons_self
      have hstrip : ∀ p : Text, ¬ p <+: line → ¬ p <+: stripCr line := by
        intro p hp hpre
        rcases stripCr_cases line with hline | hline
        · rw [hline] at hpre
          exact hp hpre
        · rw [hline] at hp
          exact hp (hpre.trans (prefix_append _ _))
      have hrest := fun l hl => hpl l (mem_cons_of_mem _ hl)
      rw [map_cons, foldl_cons, Diff.Parser.line, if_neg (hstrip _ hfile)]
      split
      · obtain ⟨isBinary, hfold⟩ := ih hrest { st with current := { st.current with isBinary := true } } hhunk
        exact ⟨isBinary, hfold⟩
      · rw [if_neg (hstrip _ hat), hhunk]
        obtain ⟨isBinary, hfold⟩ := ih hrest { st with currentHunk := none } rfl
        refine ⟨isBinary, hfold.trans ?_⟩
        rw [← hhunk]

/-! ## The name of a file -/

/-- The path is printed as it is. -/
def GitFile.Plain (file : GitFile) : Prop := ∀ c ∈ file.path, needsQuote c = false

instance (file : GitFile) : Decidable file.Plain := inferInstanceAs (Decidable (∀ c ∈ file.path, _))

theorem isWhitespace_digitChar (n : Nat) (h : n < 10) : isWhitespace (digitChar n) = false := by
  revert n
  decide

theorem quoteChar_noSpace (hc : isWhitespace c = false) : ∀ d ∈ quoteChar c, isWhitespace d = false := by
  intro d hd
  unfold quoteChar at hd
  split_ifs at hd with h₁ h₂ h₃ h₄ h₅ h₆ h₇ h₈ h₉ h₁₀
  · revert d; decide
  · revert d; decide
  · revert d; decide
  · revert d; decide
  · revert d; decide
  · revert d; decide
  · revert d; decide
  · revert d; decide
  · revert d; decide
  · obtain ⟨b, -, hd⟩ := mem_flatMap.mp hd
    simp only [octalByte, mem_cons, not_mem_nil, or_false] at hd
    have hb := b.toNat_lt
    rcases hd with rfl | rfl | rfl | rfl
    · decide
    · exact isWhitespace_digitChar _ (by omega)
    · exact isWhitespace_digitChar _ (by omega)
    · exact isWhitespace_digitChar _ (by omega)
  · rw [mem_singleton.mp hd]
    exact hc

theorem quotePath_noSpace (h : ∀ c ∈ path, isWhitespace c = false) :
    ∀ c ∈ quotePath path, isWhitespace c = false := by
  intro c hc
  unfold quotePath at hc
  split at hc
  · simp only [cons_append, mem_cons, mem_append, mem_flatMap, not_mem_nil, or_false] at hc
    rcases hc with rfl | ⟨d, hd, hc⟩ | rfl
    · decide
    · exact quoteChar_noSpace (h d hd) c hc
    · decide
  · exact h c hc

theorem quotePath_ne_nil (h : path ≠ []) : quotePath path ≠ [] := by
  unfold quotePath
  split
  · simp
  · exact h

section

variable (file : GitFile)

theorem sidePath_noSpace (side : Char) (hside : isWhitespace side = false) :
    ∀ c ∈ quotePath (side :: '/' :: file.path), isWhitespace c = false := by
  refine quotePath_noSpace fun c hc => ?_
  simp only [mem_cons] at hc
  rcases hc with rfl | rfl | hc
  · exact hside
  · decide
  · exact file.path_noSpace c hc

theorem nameLine_oneLine (hc : c = '\n' ∨ c = '\r') : c ∉ file.nameLine := by
  have hspace : isWhitespace c = true := by
    rcases hc with rfl | rfl
    · decide
    · decide
  have hside : ∀ side : Char, isWhitespace side = false → c ∉ quotePath (side :: '/' :: file.path) := by
    intro side hside hmem
    rw [sidePath_noSpace file side hside c hmem] at hspace
    cases hspace
  intro hmem
  unfold GitFile.nameLine at hmem
  rcases mem_append.mp hmem with hmem | hmem
  · rcases hc with rfl | rfl
    · exact absurd hmem (by decide)
    · exact absurd hmem (by decide)
  · rcases mem_append.mp hmem with hmem | hmem
    · exact hside 'a' (by decide) hmem
    · rcases mem_cons.mp hmem with hmem | hmem
      · rcases hc with rfl | rfl
        · exact absurd hmem (by decide)
        · exact absurd hmem (by decide)
      · exact hside 'b' (by decide) hmem

theorem parseDiffGitPath_words {rest a b : Text} (h : rest.splitWhitespace = [a, b]) :
    parseDiffGitPath ("diff --git " ++ rest) = (stripPrefix? "a/" a).bind fun aPath =>
      (stripPrefix? "b/" b).bind fun bPath =>
        some (if aPath = "/dev/null" then bPath else aPath) := by
  unfold parseDiffGitPath
  rw [stripPrefix?_append]
  simp only [Option.bind_eq_bind, Option.bind_some, h, Option.pure_def]

theorem parseDiffGitPath_nameLine :
    parseDiffGitPath file.nameLine = if file.Plain then some file.path else none := by
  have hwords : (quotePath ('a' :: '/' :: file.path) ++ ' ' :: quotePath ('b' :: '/' :: file.path)).splitWhitespace =
      [quotePath ('a' :: '/' :: file.path), quotePath ('b' :: '/' :: file.path)] :=
    splitWhitespace_words (sidePath_noSpace file 'a' (by decide)) (sidePath_noSpace file 'b' (by decide))
      (quotePath_ne_nil (by simp)) (quotePath_ne_nil (by simp))
  refine (parseDiffGitPath_words hwords).trans ?_
  by_cases hpl : file.Plain
  · have hside : ∀ side : Char, needsQuote side = false → quotePath (side :: '/' :: file.path) = side :: '/' :: file.path := by
      intro side hside
      rw [quotePath, if_neg]
      rw [Bool.not_eq_true, any_eq_false]
      intro c hc
      rcases mem_cons.mp hc with rfl | hc
      · simp [hside]
      · rcases mem_cons.mp hc with rfl | hc
        · decide
        · simp [hpl c hc]
    have ha := hside 'a' (by decide)
    have hb := hside 'b' (by decide)
    rw [if_pos hpl]
    have hstripA : stripPrefix? "a/" ('a' :: '/' :: file.path) = some file.path :=
      stripPrefix?_eq_some.mpr rfl
    have hstripB : stripPrefix? "b/" ('b' :: '/' :: file.path) = some file.path :=
      stripPrefix?_eq_some.mpr rfl
    rw [ha, hb, hstripA, hstripB, Option.bind_some, Option.bind_some, ite_self]
  · have hquote : ∃ rest, quotePath ('a' :: '/' :: file.path) = '"' :: rest := by
      unfold GitFile.Plain at hpl
      push Not at hpl
      obtain ⟨c, hc, hneeds⟩ := hpl
      refine ⟨('a' :: '/' :: file.path).flatMap quoteChar ++ ['"'], ?_⟩
      rw [quotePath, if_pos]
      · rfl
      · exact any_eq_true.mpr ⟨c, mem_cons_of_mem _ (mem_cons_of_mem _ hc), by simpa using hneeds⟩
    obtain ⟨rest, hrest⟩ := hquote
    have hstrip : stripPrefix? "a/" ('"' :: rest) = none := by
      rw [stripPrefix?_eq_none]
      exact not_prefix_of_head? (c := 'a') rfl (by simp)
    rw [if_neg hpl, hrest]
    rw [hstrip, Option.bind_none]

end

end CodexStudy.NewCore
