import CodexStudy.ApplyPatch.Theorems.Streaming

/-!
# Round trip

The hunks of the grammar are read back from their text by both parsers.
-/

namespace CodexStudy.ApplyPatch

open CodexStudy.Lib List Text

variable (hunks : List GrammarHunk) (ended : Bool)

/-! ## The grammar of patches -/

abbrev LineText := { t : Text // '\n' ∉ t ∧ t.getLast? ≠ some '\r' }

/-- A path or a context: it is not empty, stands on one line, and has no space around it. -/
abbrev NameText := { t : Text // t ≠ [] ∧ '\n' ∉ t ∧ t.trim = t }

inductive LineMark where
  | context
  | removed
  | added
  deriving DecidableEq

def LineMark.char : LineMark → Char
  | context => ' '
  | removed => '-'
  | added => '+'

structure GrammarChunk where
  changeContext : Option NameText
  lines : List (LineMark × LineText)
  nonempty : lines ≠ []
  isEndOfFile : Bool

inductive GrammarHunk where
  | addFile (path : NameText) (lines : List LineText)
  | deleteFile (path : NameText)
  | updateFile (path : NameText) (movePath : Option NameText) (chunks : List GrammarChunk) (nonempty : chunks ≠ [])

/-! ## What a hunk stands for -/

variable (lines : List (LineMark × LineText))

def oldLines : List Text :=
  (lines.filter fun l => l.1 ≠ .added).map fun l => l.2.1

def newLines : List Text :=
  (lines.filter fun l => l.1 ≠ .removed).map fun l => l.2.1

def GrammarChunk.chunk (c : GrammarChunk) : UpdateFileChunk :=
  { changeContext := c.changeContext.map Subtype.val
    oldLines := ApplyPatch.oldLines c.lines
    newLines := ApplyPatch.newLines c.lines
    isEndOfFile := c.isEndOfFile }

def GrammarHunk.hunk : GrammarHunk → Hunk
  | addFile path lines => .addFile path.1 (ofLines (lines.map Subtype.val))
  | deleteFile path => .deleteFile path.1
  | updateFile path movePath chunks _ => .updateFile path.1 (movePath.map Subtype.val) (chunks.map GrammarChunk.chunk)

/-! ## How a hunk is written -/

def contextLine : Option NameText → Text
  | none => emptyChangeContextMarker
  | some c => changeContextMarker ++ c.1

def markedLine (l : LineMark × LineText) : Text := l.1.char :: l.2.1

def GrammarChunk.render (c : GrammarChunk) : List Text :=
  contextLine c.changeContext :: c.lines.map markedLine ++ if c.isEndOfFile then [eofMarker] else []

def GrammarHunk.render : GrammarHunk → List Text
  | addFile path lines => (addFileMarker ++ path.1) :: lines.map fun l => '+' :: l.1
  | deleteFile path => [deleteFileMarker ++ path.1]
  | updateFile path movePath chunks _ =>
      (updateFileMarker ++ path.1) :: (movePath.map fun m => moveToMarker ++ m.1).toList ++
        chunks.flatMap GrammarChunk.render

/-- The text of a patch; the line feed after its last line is optional. -/
def renderPatch : Text :=
  join ['\n'] (beginPatchMarker :: hunks.flatMap GrammarHunk.render ++ [endPatchMarker]) ++
    if ended then ['\n'] else []

/-! ## Names and marked lines -/

variable {c : Char} {k skip : Nat} {chunk : UpdateFileChunk} {ls : List Text} {isFirst : Bool}

section

variable (p : Text) (t : NameText)

theorem trimEnd_name : trimEnd t.1 = t.1 := by
  obtain ⟨t, -, -, htrim⟩ := t
  have h : trimEnd (trim t) = trim t := trimEnd_trimEnd _
  rwa [htrim] at h

theorem trimEnd_append_name : trimEnd (p ++ t.1) = p ++ t.1 := by
  rw [trimEnd_append p (by rw [trimEnd_name]; exact t.2.1), trimEnd_name]

theorem trim_marker_name {p : Text} (hp : p.head? = some c) (hc : isWhitespace c = false) :
    trim (p ++ t.1) = p ++ t.1 := by
  have hhead : (p ++ t.1).head? = some c := by
    obtain ⟨q, rfl⟩ := head?_eq_some_iff.mp hp
    rfl
  rw [trim_eq_trimEnd hhead hc, trimEnd_append_name]

theorem stripCr_append_name : stripCr (p ++ t.1) = p ++ t.1 := by
  rcases stripCr_cases (p ++ t.1) with h | h
  · exact h
  · have htrim := trimEnd_append_name p t
    rw [h, trimEnd_append_blank _ (by decide)] at htrim
    have hlen := (trimEnd_isPrefix (p ++ t.1).stripCr).length_le
    rw [htrim, length_append] at hlen
    exact absurd hlen (by simp)

end

theorem stripCr_markedLine (c : Char) (t : LineText) (hc : c ≠ '\r') : stripCr (c :: t.1) = c :: t.1 := by
  rw [stripCr, if_neg]
  intro h
  cases ht : t.1 with
  | nil =>
      rw [ht] at h
      cases h
      exact hc rfl
  | cons d ds =>
      rw [ht, getLast?_cons_cons, ← ht] at h
      exact t.2.2 h

/-! ## The lines of the text -/

variable {p : Text} {n : Nat} {rest : List Text}

theorem not_mem_append_name (hp : '\n' ∉ p) (t : NameText) : '\n' ∉ p ++ t.1 := by
  simp [hp, t.2.2.1]

/-- A line of the text is read as it is written. -/
def Verbatim (l : Text) : Prop := '\n' ∉ l ∧ l.stripCr = l

theorem verbatim_append_name (hp : '\n' ∉ p) (t : NameText) : Verbatim (p ++ t.1) :=
  ⟨not_mem_append_name hp t, stripCr_append_name p t⟩

theorem verbatim_markedLine (hlf : '\n' ≠ c) (hcr : c ≠ '\r') (t : LineText) : Verbatim (c :: t.1) :=
  ⟨by simp [hlf, t.2.1], stripCr_markedLine c t hcr⟩

theorem GrammarChunk.verbatim (c : GrammarChunk) : ∀ l ∈ c.render, Verbatim l := by
  intro l hl
  rcases mem_append.mp hl with hl | hl
  · rcases mem_cons.mp hl with rfl | hl
    · cases hc : c.changeContext with
      | none => exact ⟨by decide, by decide⟩
      | some context => exact verbatim_append_name (by decide) context
    · obtain ⟨⟨mark, t⟩, -, rfl⟩ := mem_map.mp hl
      have hmark : '\n' ≠ mark.char ∧ mark.char ≠ '\r' := by
        cases mark <;> decide
      exact verbatim_markedLine hmark.1 hmark.2 t
  · split at hl
    · rw [mem_singleton.mp hl]
      exact ⟨by decide, by decide⟩
    · cases hl

theorem GrammarHunk.verbatim (h : GrammarHunk) : ∀ l ∈ h.render, Verbatim l := by
  intro l hl
  cases h with
  | addFile path lines =>
      rcases mem_cons.mp hl with rfl | hl
      · exact verbatim_append_name (by decide) path
      · obtain ⟨t, -, rfl⟩ := mem_map.mp hl
        exact verbatim_markedLine (by decide) (by decide) t
  | deleteFile path =>
      rw [mem_singleton.mp hl]
      exact verbatim_append_name (by decide) path
  | updateFile path movePath chunks hne =>
      rcases mem_append.mp hl with hl | hl
      · rcases mem_cons.mp hl with rfl | hl
        · exact verbatim_append_name (by decide) path
        · obtain ⟨m, -, rfl⟩ := Option.map_eq_some_iff.mp (Option.mem_toList.mp hl)
          exact verbatim_append_name (by decide) m
      · obtain ⟨c, -, hl⟩ := mem_flatMap.mp hl
        exact c.verbatim l hl

/-! ## What the parser makes of the lines -/

def EndsChunk (rest : List Text) : Prop := ∀ l, rest.head? = some l → readChunkLine l = none ∧ l ≠ eofMarker

def LineMark.change (mark : LineMark) (t : Text) (chunk : UpdateFileChunk) : UpdateFileChunk :=
  match mark with
  | .context => { chunk with oldLines := chunk.oldLines ++ [t], newLines := chunk.newLines ++ [t] }
  | .removed => { chunk with oldLines := chunk.oldLines ++ [t] }
  | .added => { chunk with newLines := chunk.newLines ++ [t] }

theorem readChunkLine_markedLine (mark : LineMark) (t : LineText) :
    readChunkLine (markedLine (mark, t)) = some (mark.change t.1) := by
  cases mark with
  | context => rfl
  | removed => rfl
  | added => rfl

theorem markedLine_ne_eofMarker (l : LineMark × LineText) : markedLine l ≠ eofMarker := by
  intro h
  have hread := readChunkLine_markedLine l.1 l.2
  rw [h, readChunkLine_eofMarker] at hread
  cases hread

theorem foldl_change (chunk : UpdateFileChunk) :
    lines.foldl (fun chunk l => l.1.change l.2.1 chunk) chunk =
      { chunk with oldLines := chunk.oldLines ++ oldLines lines, newLines := chunk.newLines ++ newLines lines } := by
  induction lines generalizing chunk with
  | nil => simp [oldLines, newLines]
  | cons l lines ih =>
      obtain ⟨mark, t⟩ := l
      rw [foldl_cons, ih]
      cases mark with
      | context => simp [LineMark.change, oldLines, newLines]
      | removed => simp [LineMark.change, oldLines, newLines]
      | added => simp [LineMark.change, oldLines, newLines]

theorem parseChunkLines_marked {lines : List (LineMark × LineText)}
    (rest : List Text) : parseChunkLines n (lines.map markedLine ++ rest) k chunk =
      parseChunkLines n rest (k + lines.length) (lines.foldl (fun chunk l => l.1.change l.2.1 chunk) chunk) := by
  induction lines generalizing k chunk with
  | nil => rfl
  | cons l lines ih =>
      have hlen : k + (lines.length + 1) = k + 1 + lines.length := by omega
      rw [map_cons, cons_append, parseChunkLines_cons (markedLine_ne_eofMarker l),
        readChunkLine_markedLine l.1 l.2, length_cons, hlen, foldl_cons]
      exact ih

theorem parseChunkLines_rest (hrest : EndsChunk rest)
    (hk : 0 < k) : parseChunkLines n rest k chunk = .ok (chunk, k) := by
  cases rest with
  | nil => rfl
  | cons l rest =>
      obtain ⟨hread, heof⟩ := hrest l rfl
      rw [parseChunkLines_cons heof, hread]
      dsimp only
      rw [if_neg (by omega)]

theorem parseChunkLines_render (c : GrammarChunk) (hrest : EndsChunk rest) :
    parseChunkLines n (c.render.tail ++ rest) 0 (emptyChunk (c.changeContext.map Subtype.val)) =
      .ok (c.chunk, c.render.tail.length) := by
  obtain ⟨context, lines, hne, eof⟩ := c
  have hlns : 0 < lines.length := length_pos_iff.mpr hne
  cases eof with
  | false =>
      simp only [GrammarChunk.render, Bool.false_eq_true, if_false, append_nil, tail_cons, length_map]
      rw [parseChunkLines_marked, foldl_change, parseChunkLines_rest hrest (by omega), Nat.zero_add]
      rfl
  | true =>
      simp only [GrammarChunk.render, if_true, cons_append, tail_cons, append_assoc, length_append,
        length_map]
      rw [parseChunkLines_marked, foldl_change, parseChunkLines.eq_def]
      dsimp only
      rw [if_pos rfl, if_neg (by omega), Nat.zero_add]
      rfl

theorem parseUpdateFileChunk_render (n : Nat) (isFirst : Bool) (c : GrammarChunk) (hrest : EndsChunk rest) :
    parseUpdateFileChunk (c.render ++ rest) n isFirst = .ok (c.chunk, c.render.length) := by
  have hctx : parseChangeContext (contextLine c.changeContext) n isFirst =
      .ok (c.changeContext.map Subtype.val, 1) := by
    unfold parseChangeContext
    cases c.changeContext with
    | none => rw [contextLine, if_pos rfl]; rfl
    | some context =>
        rw [contextLine, if_neg, stripPrefix?_append]
        · rfl
        · intro h
          have := congrArg length h
          simp [changeContextMarker, emptyChangeContextMarker] at this
  have hrender : c.render = contextLine c.changeContext :: c.render.tail := rfl
  have htail : 0 < c.render.tail.length := by
    have := length_pos_iff.mpr c.nonempty
    simp [GrammarChunk.render]
    omega
  rw [hrender, cons_append, parseUpdateFileChunk]
  refine except_bind_eq_ok.mpr ⟨_, hctx, ?_⟩
  dsimp only
  rw [if_neg (by simp only [length_cons, length_append]; omega), drop_one, tail_cons]
  exact except_bind_eq_ok.mpr ⟨_, parseChunkLines_render c hrest, rfl⟩

theorem parseChunks_skip :
    parseChunks skip ls n isFirst = parseChunks 0 (ls.drop skip) n isFirst := by
  induction ls generalizing skip with
  | nil => cases skip <;> rfl
  | cons l ls ih =>
      cases skip with
      | zero => rfl
      | succ skip =>
          rw [parseChunks]
          exact ih

theorem parseHunks_skip : parseHunks skip ls n = parseHunks 0 (ls.drop skip) n := by
  induction ls generalizing skip with
  | nil => cases skip <;> rfl
  | cons l ls ih =>
      cases skip with
      | zero => rfl
      | succ skip =>
          rw [parseHunks]
          exact ih

def EndsHunk (rest : List Text) : Prop := ∀ l, rest.head? = some l → l.head? = some '*' ∧ l ≠ eofMarker

theorem EndsHunk.endsChunk (h : EndsHunk rest) : EndsChunk rest := by
  intro l hl
  obtain ⟨hstar, heof⟩ := h l hl
  obtain ⟨cs, rfl⟩ := head?_eq_some_iff.mp hstar
  exact ⟨rfl, heof⟩

theorem contextLine_head? (context : Option NameText) : (contextLine context).head? = some '@' := by
  cases context with
  | none => rfl
  | some c => rfl

theorem endsChunk_chunks (hrest : EndsHunk rest) (chunks : List GrammarChunk) :
    EndsChunk (chunks.flatMap GrammarChunk.render ++ rest) := by
  cases chunks with
  | nil => exact hrest.endsChunk
  | cons c chunks =>
      intro l hl
      cases hl
      obtain ⟨cs, hcs⟩ := head?_eq_some_iff.mp (contextLine_head? c.changeContext)
      rw [hcs]
      refine ⟨rfl, ?_⟩
      intro h
      cases h

theorem parseChunks_render (chunks : List GrammarChunk) (hrest : EndsHunk rest) :
    parseChunks 0 (chunks.flatMap GrammarChunk.render ++ rest) n isFirst =
      .ok (chunks.map GrammarChunk.chunk, (chunks.flatMap GrammarChunk.render).length) := by
  induction chunks generalizing n isFirst with
  | nil =>
      cases rest with
      | nil => rfl
      | cons l rest =>
          obtain ⟨hstar, -⟩ := hrest l rfl
          have hbl : l.trim ≠ [] := by
            obtain ⟨cs, rfl⟩ := head?_eq_some_iff.mp hstar
            exact trim_cons_ne_nil cs (by decide)
          rw [flatMap_nil, nil_append, parseChunks, if_neg hbl, if_pos hstar]
          rfl
  | cons c chunks ih =>
      have hck := parseUpdateFileChunk_render n isFirst c (endsChunk_chunks hrest chunks)
      have hrender : c.render = contextLine c.changeContext :: c.render.tail := rfl
      have hhead := contextLine_head? c.changeContext
      have hbl : (contextLine c.changeContext).trim ≠ [] := by
        obtain ⟨cs, hcs⟩ := head?_eq_some_iff.mp hhead
        rw [hcs]
        exact trim_cons_ne_nil cs (by decide)
      rw [flatMap_cons, append_assoc]
      rw [hrender, cons_append] at hck ⊢
      rw [parseChunks, if_neg hbl, if_neg (by rw [hhead]; decide), hck]
      refine except_bind_eq_ok.mpr ⟨_, rfl, ?_⟩
      dsimp only
      rw [parseChunks_skip, length_cons, Nat.add_sub_cancel, drop_left]
      refine except_bind_eq_ok.mpr ⟨_, ih, ?_⟩
      simp only [map_cons, length_append, length_cons, Nat.add_comm]
      rfl

def GrammarHunk.headerLine : GrammarHunk → Text
  | addFile path _ => addFileMarker ++ path.1
  | deleteFile path => deleteFileMarker ++ path.1
  | updateFile path _ _ _ => updateFileMarker ++ path.1

theorem GrammarHunk.render_eq (h : GrammarHunk) : h.render = h.headerLine :: h.render.tail := by
  cases h with
  | addFile path lines => rfl
  | deleteFile path => rfl
  | updateFile path movePath chunks hne => rfl

theorem GrammarHunk.headerLine_head? (h : GrammarHunk) : h.headerLine.head? = some '*' := by
  cases h with
  | addFile path lines => rfl
  | deleteFile path => rfl
  | updateFile path movePath chunks hne => rfl

theorem GrammarHunk.not_prefix_headerLine (h : GrammarHunk) (hp : 5 ≤ p.length) (hadd : p.take 5 ≠ addFileMarker.take 5)
    (hdel : p.take 5 ≠ deleteFileMarker.take 5) (hupd : p.take 5 ≠ updateFileMarker.take 5) : ¬ p <+: h.headerLine := by
  intro hpre
  cases h with
  | addFile path lines => exact not_prefix_of_take 5 hp (by decide) hadd hpre (prefix_append _ _)
  | deleteFile path => exact not_prefix_of_take 5 hp (by decide) hdel hpre (prefix_append _ _)
  | updateFile path movePath chunks hne =>
      exact not_prefix_of_take 5 hp (by decide) hupd hpre (prefix_append _ _)

theorem endsHunk_hunks : EndsHunk (hunks.flatMap GrammarHunk.render) := by
  cases hunks with
  | nil => intro l hl; cases hl
  | cons h hunks =>
      intro l hl
      rw [flatMap_cons, h.render_eq, cons_append] at hl
      cases hl
      refine ⟨h.headerLine_head?, ?_⟩
      intro heq
      exact h.not_prefix_headerLine (p := eofMarker) (by decide) (by decide) (by decide) (by decide)
        (by rw [heq])

theorem parseOneHunk_render (h : GrammarHunk) (hrest : EndsHunk rest) :
    parseOneHunk h.headerLine (h.render.tail ++ rest) n = .ok (h.hunk, h.render.length) := by
  have hno : ∀ p q : Text, ∀ t : NameText, 5 ≤ p.length → 5 ≤ q.length → p.take 5 ≠ q.take 5 →
      stripPrefix? q (p ++ t.1) = none := by
    intro p q t hp hq hne
    rw [stripPrefix?_eq_none]
    exact not_prefix_of_take 5 hp hq hne (prefix_append p t.1)
  cases h with
  | addFile path lines =>
      have htrim := trim_marker_name path (p := addFileMarker) rfl (by decide)
      have htake : ((lines.map fun l : LineText => '+' :: l.1) ++ rest).takeWhile (fun l => l.head? == some '+') =
          lines.map fun l : LineText => '+' :: l.1 := by
        have hplus : ∀ l ∈ lines.map fun l : LineText => '+' :: l.1, (l.head? == some '+') = true := by
          intro l hl
          obtain ⟨t, -, rfl⟩ := mem_map.mp hl
          rfl
        rw [takeWhile_append_of_pos hplus]
        cases rest with
        | nil => simp
        | cons l rest =>
            obtain ⟨hstar, -⟩ := hrest l rfl
            simp [hstar]
      simp only [parseOneHunk, GrammarHunk.headerLine, htrim, stripPrefix?_append, GrammarHunk.render,
        tail_cons, htake, length_cons, length_map, map_map]
      rw [Nat.add_comm]
      rfl
  | deleteFile path =>
      have htrim := trim_marker_name path (p := deleteFileMarker) rfl (by decide)
      simp only [parseOneHunk, GrammarHunk.headerLine, htrim, stripPrefix?_append,
        hno deleteFileMarker addFileMarker path (by decide) (by decide) (by decide)]
      rfl
  | updateFile path movePath chunks hne =>
      have htrim := trim_marker_name path (p := updateFileMarker) rfl (by decide)
      have hmove : parseMovePath ((GrammarHunk.updateFile path movePath chunks hne).render.tail ++ rest) =
          (movePath.map Subtype.val, chunks.flatMap GrammarChunk.render ++ rest) := by
        cases movePath with
        | some m => simp [GrammarHunk.render, parseMovePath, stripPrefix?_append]
        | none =>
            obtain ⟨c, chunks, rfl⟩ := exists_cons_of_ne_nil hne
            have hnone : stripPrefix? moveToMarker (contextLine c.changeContext) = none := by
              rw [stripPrefix?_eq_none]
              exact not_prefix_of_head? (c := '*') rfl (by rw [contextLine_head?]; decide)
            simp [GrammarHunk.render, GrammarChunk.render, parseMovePath, hnone]
      have hne' : chunks.map GrammarChunk.chunk ≠ [] := by simpa using hne
      simp only [parseOneHunk, GrammarHunk.headerLine, htrim, stripPrefix?_append,
        hno updateFileMarker addFileMarker path (by decide) (by decide) (by decide),
        hno updateFileMarker deleteFileMarker path (by decide) (by decide) (by decide), hmove]
      refine except_bind_eq_ok.mpr ⟨_, parseChunks_render chunks hrest, ?_⟩
      dsimp only
      rw [if_neg hne']
      cases movePath with
      | none =>
          simp only [GrammarHunk.render, Option.map_none, Option.toList_none, cons_append, nil_append,
            tail_cons, Nat.sub_self, length_cons]
          rw [Nat.add_comm]
          rfl
      | some m =>
          have hlen : ∀ k, 1 + (k + 1 - k) + (chunks.flatMap GrammarChunk.render).length =
              (chunks.flatMap GrammarChunk.render).length + 1 + 1 := by intro k; omega
          simp only [GrammarHunk.render, Option.map_some, Option.toList_some, cons_append, nil_append,
            tail_cons, length_cons, hlen]
          rfl

theorem parseHunks_render :
    parseHunks 0 (hunks.flatMap GrammarHunk.render) n = .ok (hunks.map GrammarHunk.hunk) := by
  induction hunks generalizing n with
  | nil => rfl
  | cons h hunks ih =>
      have hlen : h.render.length - 1 = h.render.tail.length := by rw [length_tail]
      rw [flatMap_cons, h.render_eq, cons_append, parseHunks]
      refine except_bind_eq_ok.mpr ⟨_, parseOneHunk_render h (endsHunk_hunks hunks), ?_⟩
      dsimp only
      rw [parseHunks_skip, hlen, drop_left]
      exact except_bind_eq_ok.mpr ⟨_, ih, rfl⟩

/-! ## The lines are read alike -/

namespace Place

variable {rest : List Text} {p : Place}

theorem readAlike_marked (lines : List (LineMark × LineText)) (hrest : ReadAlike .lines rest) :
    ReadAlike .lines (lines.map markedLine ++ rest) := by
  induction lines with
  | nil => exact hrest
  | cons l lines ih =>
      have hline : isChunkLine (markedLine l) = true := (readChunkLine_head? (readChunkLine_markedLine l.1 l.2)).1
      refine ⟨?_, ?_⟩
      · rintro ⟨hno, -⟩
        rw [hline] at hno
        cases hno
      · have hnext : next .lines (markedLine l) = .lines := by
          simp only [next, if_neg (markedLine_ne_eofMarker l), hline, if_true]
        rw [hnext]
        exact ih

theorem trimEnd_contextLine (context : Option NameText) : (contextLine context).trimEnd = contextLine context := by
  cases context with
  | none => decide
  | some c => exact trimEnd_append_name _ c

theorem readAlike_chunk (hp : p ≠ .hunk) (c : GrammarChunk) (hlns : ReadAlike .lines rest)
    (hck : ReadAlike .chunk rest) : ReadAlike p (c.render ++ rest) := by
  have hhead := contextLine_head? c.changeContext
  have htrim := trimEnd_contextLine c.changeContext
  have hbl : (contextLine c.changeContext).trim ≠ [] := by
    obtain ⟨cs, hcs⟩ := head?_eq_some_iff.mp hhead
    rw [hcs]
    exact trim_cons_ne_nil cs (by decide)
  have hmove : ¬ moveToMarker <+: contextLine c.changeContext :=
    not_prefix_of_head? (c := '*') rfl (by rw [hhead]; decide)
  have heof : contextLine c.changeContext ≠ eofMarker := by
    intro h
    rw [h] at hhead
    cases hhead
  have hline : isChunkLine (contextLine c.changeContext) = false := by
    simp [isChunkLine, hhead]
  have hst : afterChunkStart (contextLine c.changeContext) = .lines := by
    rw [afterChunkStart, if_neg hbl, if_neg (by rw [hhead]; decide)]
  have hnext : p.next (contextLine c.changeContext) = .lines := by
    cases p with
    | hunk => exact absurd rfl hp
    | header => rw [next, if_neg hmove, hst]
    | chunk => exact hst
    | lines => simp only [next, if_neg heof, hline, Bool.false_eq_true, if_false, hst]
  have hap : ¬ p.apart (contextLine c.changeContext) := by
    cases p with
    | hunk => exact id
    | header =>
        rintro (h | ⟨-, h⟩)
        · exact hbl h
        · exact h htrim
    | chunk =>
        rintro (h | ⟨-, h⟩)
        · exact hbl h
        · exact h htrim
    | lines =>
        rintro ⟨-, h | ⟨-, h⟩⟩
        · exact hbl h
        · exact h htrim
  have hrender : c.render = contextLine c.changeContext :: c.render.tail := rfl
  rw [hrender, cons_append]
  refine ⟨hap, ?_⟩
  rw [hnext]
  obtain ⟨context, lines, hne, eof⟩ := c
  cases eof with
  | false =>
      simp only [GrammarChunk.render, Bool.false_eq_true, if_false, append_nil, tail_cons]
      exact readAlike_marked lines hlns
  | true =>
      simp only [GrammarChunk.render, if_true, cons_append, tail_cons, append_assoc]
      refine readAlike_marked lines ⟨by decide, ?_⟩
      exact hck

theorem readAlike_chunks (hp : p ≠ .hunk) (chunks : List GrammarChunk) (hne : chunks ≠ [])
    (hlns : ReadAlike .lines rest) (hck : ReadAlike .chunk rest) :
    ReadAlike p (chunks.flatMap GrammarChunk.render ++ rest) := by
  induction chunks generalizing p with
  | nil => exact absurd rfl hne
  | cons c chunks ih =>
      rw [flatMap_cons, append_assoc]
      by_cases hnil : chunks = []
      · subst hnil
        exact readAlike_chunk hp c hlns hck
      · exact readAlike_chunk hp c (ih (by decide) hnil) (ih (by decide) hnil)

theorem readAlike_added (lines : List LineText) (hrest : ReadAlike .hunk rest) :
    ReadAlike .hunk ((lines.map fun l => '+' :: l.1) ++ rest) := by
  induction lines with
  | nil => exact hrest
  | cons l lines ih =>
      refine ⟨id, ?_⟩
      have hnext : next .hunk ('+' :: l.1) = .hunk := by
        rw [next, afterHeader, if_neg]
        rw [trim_eq_trimEnd (c := '+') rfl (by decide)]
        exact not_prefix_of_head? (c := '*') rfl fun hhead => by
          have := head?_trimEnd hhead
          cases this
      rw [hnext]
      exact ih

theorem readAlike_header (hp : p ≠ .header) (h : GrammarHunk)
    (hrest : ReadAlike (afterHeader h.headerLine) rest) : ReadAlike p (h.headerLine :: rest) := by
  have hhead := h.headerLine_head?
  have hbl : h.headerLine.trim ≠ [] := by
    obtain ⟨cs, hcs⟩ := head?_eq_some_iff.mp hhead
    rw [hcs]
    exact trim_cons_ne_nil cs (by decide)
  have hctx : ¬ changeContextMarker <+: h.headerLine :=
    not_prefix_of_head? (c := '@') rfl (by rw [hhead]; decide)
  have heof : h.headerLine ≠ eofMarker := by
    intro heq
    exact h.not_prefix_headerLine (p := eofMarker) (by decide) (by decide) (by decide) (by decide) (by rw [heq])
  have hline : isChunkLine h.headerLine = false := by simp [isChunkLine, hhead]
  have hst : afterChunkStart h.headerLine = afterHeader h.headerLine := by
    rw [afterChunkStart, if_neg hbl, if_pos hhead]
  cases p with
  | hunk => exact ⟨id, hrest⟩
  | header => exact absurd rfl hp
  | chunk =>
      refine ⟨?_, by rw [next, hst]; exact hrest⟩
      rintro (h' | ⟨h', -⟩)
      · exact hbl h'
      · exact hctx h'
  | lines =>
      refine ⟨?_, ?_⟩
      · rintro ⟨-, h' | ⟨h', -⟩⟩
        · exact hbl h'
        · exact hctx h'
      · simp only [next, if_neg heof, hline, Bool.false_eq_true, if_false, hst]
        exact hrest

theorem readAlike_hunks (hp : p ≠ .header) (hunks : List GrammarHunk) :
    ReadAlike p (hunks.flatMap GrammarHunk.render) := by
  have hno : ∀ q : Text, ∀ t : NameText, q.head? = some '*' → 5 ≤ q.length → q.take 5 ≠ updateFileMarker.take 5 →
      afterHeader (q ++ t.1) = .hunk := by
    intro q t hhead hq hne
    rw [afterHeader, if_neg]
    rw [trim_marker_name t hhead (by decide)]
    exact not_prefix_of_take 5 hq (by decide) hne (prefix_append q t.1)
  induction hunks generalizing p with
  | nil => trivial
  | cons h hunks ih =>
      rw [flatMap_cons, h.render_eq, cons_append]
      refine readAlike_header hp h ?_
      cases h with
      | addFile path lines =>
          rw [GrammarHunk.headerLine, hno addFileMarker path rfl (by decide) (by decide)]
          exact readAlike_added lines (ih (by decide))
      | deleteFile path =>
          rw [GrammarHunk.headerLine, hno deleteFileMarker path rfl (by decide) (by decide)]
          exact ih (by decide)
      | updateFile path movePath chunks hne =>
          have haft : afterHeader (updateFileMarker ++ path.1) = .header := by
            rw [afterHeader, if_pos]
            rw [trim_marker_name path (p := updateFileMarker) rfl (by decide)]
            exact prefix_append _ _
          rw [GrammarHunk.headerLine, haft]
          cases movePath with
          | none => exact readAlike_chunks (by decide) chunks hne (ih (by decide)) (ih (by decide))
          | some m =>
              have hpre : moveToMarker <+: moveToMarker ++ m.1 := prefix_append _ _
              refine ⟨?_, ?_⟩
              · rintro (h' | ⟨-, h'⟩)
                · exact trim_cons_ne_nil _ (by decide) h'
                · exact h' (trimEnd_append_name _ m)
              · rw [next, if_pos hpre]
                exact readAlike_chunks (by decide) chunks hne (ih (by decide)) (ih (by decide))

end Place

/-! ## The whole patch -/

theorem renderPatch_shape :
    PatchShape (renderPatch hunks ended) beginPatchMarker (hunks.flatMap GrammarHunk.render) endPatchMarker
      (if ended then ['\n'] else []) := by
  refine ⟨?_, ?_, ⟨by decide, by decide⟩, ?_, ⟨by decide, by decide⟩⟩
  · rw [renderPatch, join_concat, append_assoc]
  · cases ended with
    | false => exact .inl rfl
    | true => exact .inr rfl
  · intro l hl
    obtain ⟨h, -, hl⟩ := mem_flatMap.mp hl
    exact (h.verbatim l hl).1

theorem map_stripCr_render :
    (hunks.flatMap GrammarHunk.render).map stripCr = hunks.flatMap GrammarHunk.render := by
  rw [map_congr_left (g := id), map_id]
  intro l hl
  obtain ⟨h, -, hl⟩ := mem_flatMap.mp hl
  exact (h.verbatim l hl).2

theorem isEnvironmentLine_render {l : Text}
    (hl : (hunks.flatMap GrammarHunk.render).head? = some l) : isEnvironmentLine l = false := by
  cases hunks with
  | nil => cases hl
  | cons h hunks =>
      rw [flatMap_cons, h.render_eq, cons_append] at hl
      cases hl
      have hst : h.headerLine.trimStart = h.headerLine := by
        obtain ⟨cs, hcs⟩ := head?_eq_some_iff.mp h.headerLine_head?
        rw [hcs, trimStart, dropWhile_cons_of_neg (by decide)]
      rw [isEnvironmentLine, decide_eq_false_iff_not, hst]
      exact h.not_prefix_headerLine (by decide) (by decide) (by decide) (by decide)

theorem parsePatch_render :
    ∃ args, parsePatch (renderPatch hunks ended) = .ok args ∧ args.hunks = hunks.map GrammarHunk.hunk := by
  have henv : parseEnvironmentIdPreamble (hunks.flatMap GrammarHunk.render) =
      .ok (none, hunks.flatMap GrammarHunk.render, 2) := by
    cases hls : hunks.flatMap GrammarHunk.render with
    | nil => rfl
    | cons l rest =>
        have hline := isEnvironmentLine_render hunks (l := l) (by rw [hls]; rfl)
        rw [isEnvironmentLine, decide_eq_false_iff_not] at hline
        simp only [parseEnvironmentIdPreamble, stripPrefix?_eq_none.mpr hline]
  rw [(renderPatch_shape hunks ended).parsePatch_eq, map_stripCr_render]
  refine ⟨_, except_bind_eq_ok.mpr ⟨_, henv, except_bind_eq_ok.mpr ⟨_, parseHunks_render hunks, rfl⟩⟩, rfl⟩

theorem streamsAlike_render : StreamsAlike (renderPatch hunks ended) := by
  have hshp := renderPatch_shape hunks ended
  have hlns : patchHunkLines (renderPatch hunks ended) = hunks.flatMap GrammarHunk.render := by
    rw [hshp.patchHunkLines_eq, map_stripCr_render]
  have hbody : patchBody (renderPatch hunks ended) = hunks.flatMap GrammarHunk.render := by
    rw [patchBody, hlns]
    cases hls : hunks.flatMap GrammarHunk.render with
    | nil => rfl
    | cons l rest => simp [isEnvironmentLine_render hunks (l := l) (by rw [hls]; rfl)]
  refine ⟨?_, ?_, ?_⟩
  · intro l hl henv
    rw [hlns] at hl
    rw [isEnvironmentLine_render hunks hl] at henv
    cases henv
  · rw [hbody]
    exact Place.readAlike_hunks (by decide) hunks
  · intro _ _ l hl
    obtain ⟨b, hb, hhead⟩ := hshp.lines_eq
    rw [hb, getLast?_concat] at hl
    cases hl
    exact hhead.mpr rfl

/-- Both parsers read the hunks of the grammar back from their text, whatever pieces the streaming parser gets. -/
theorem patch_round_trip (hunks : List GrammarHunk) (ended : Bool) {deltas : List Text}
    (hdeltas : deltas.flatten = renderPatch hunks ended) :
    (parsePatch (renderPatch hunks ended)).map (·.hunks) = .ok (hunks.map GrammarHunk.hunk) ∧
      streamPatch deltas = .ok (hunks.map GrammarHunk.hunk) := by
  obtain ⟨args, hprs, hhs⟩ := parsePatch_render hunks ended
  refine ⟨?_, ?_⟩
  · rw [hprs, ← hhs]
    rfl
  · rw [← hhs]
    exact (renderPatch_shape hunks ended).streamPatch_of_alike hprs hdeltas (streamsAlike_render hunks ended)

def sampleGrammarHunks : List GrammarHunk :=
  [.addFile ⟨"a", by decide⟩ [⟨[], by decide⟩, ⟨"x", by decide⟩],
   .updateFile ⟨"b", by decide⟩ (some ⟨"c", by decide⟩)
    [{ changeContext := some ⟨"f", by decide⟩
       lines := [(.context, ⟨"*** End Patch", by decide⟩), (.removed, ⟨"x", by decide⟩)]
       nonempty := by decide
       isEndOfFile := true }] (by simp)]

theorem sampleGrammarHunks_round_trip : streamPatch ((renderPatch sampleGrammarHunks true).map fun c => [c]) = .ok
      [.addFile "a" "\nx\n", .updateFile "b" (some "c")
        [{ changeContext := some "f".toList, oldLines := ["*** End Patch", "x"],
           newLines := ["*** End Patch"], isEndOfFile := true }]] :=
  (patch_round_trip sampleGrammarHunks true (by rw [← flatMap_def, flatMap_singleton'])).2

end CodexStudy.ApplyPatch
