import CodexStudy.ApplyPatch.Lemmas.Reader
import Mathlib.Algebra.Ring.Int.Defs

/-!
# The two parsers side by side
-/

namespace CodexStudy.ApplyPatch

open CodexStudy.Lib Reading Text Eff List UpdateFileChunk StreamingPatchParser

/-! ## Lines that the two parsers read alike -/

/-- A header may follow, an update header has just been read, a chunk may start, or a chunk is being read. -/
inductive Place where
  | hunk
  | header
  | chunk
  | lines
  deriving DecidableEq

def isChunkLine (line : Text) : Bool :=
  line.head? = none || line.head? = some ' ' || line.head? = some '+' || line.head? = some '-'

namespace Place

def afterHeader (line : Text) : Place := if updateFileMarker <+: line.trim then .header else .hunk

def afterChunkStart (line : Text) : Place :=
  if line.trim = [] then .chunk
  else if line.head? = some '*' then afterHeader line
  else .lines

def next : Place → Text → Place
  | hunk, line => afterHeader line
  | header, line => if moveToMarker <+: line then .chunk else afterChunkStart line
  | chunk, line => afterChunkStart line
  | lines, line =>
      if line = eofMarker then .chunk
      else if isChunkLine line then .lines
      else afterChunkStart line

/-- The two parsers read the line differently. -/
def apart : Place → Text → Prop
  | hunk, _ => False
  | header, line =>
      line.trim = [] ∨ (moveToMarker <+: line ∨ changeContextMarker <+: line) ∧ line.trimEnd ≠ line
  | chunk, line => line.trim = [] ∨ changeContextMarker <+: line ∧ line.trimEnd ≠ line
  | lines, line =>
      isChunkLine line = false ∧ (line.trim = [] ∨ changeContextMarker <+: line ∧ line.trimEnd ≠ line)

instance (p : Place) (line : Text) : Decidable (p.apart line) :=
  match p with
  | hunk => inferInstanceAs (Decidable False)
  | header => inferInstanceAs (Decidable (_ ∨ (_ ∨ _) ∧ _ ≠ _))
  | chunk => inferInstanceAs (Decidable (_ ∨ _ ∧ _ ≠ _))
  | lines => inferInstanceAs (Decidable (_ ∧ (_ ∨ _ ∧ _ ≠ _)))

/-- The lines from the place `p` on are read alike. -/
def ReadAlike : Place → List Text → Prop
  | _, [] => True
  | p, line :: rest => ¬ p.apart line ∧ ReadAlike (p.next line) rest

def after (p : Place) (ls : List Text) : Place := ls.foldl next p

instance : (p : Place) → (ls : List Text) → Decidable (ReadAlike p ls)
  | _, [] => isTrue trivial
  | p, line :: rest =>
      have := instDecidableReadAlike (p.next line) rest
      inferInstanceAs (Decidable (_ ∧ _))

end Place

/-! ## The lines of a patch -/

def patchHunkLines (patch : Text) : List Text := (lines patch).tail.dropLast

def isEnvironmentLine (line : Text) : Bool := environmentIdMarker <+: line.trimStart

def patchBody (patch : Text) : List Text :=
  match patchHunkLines patch with
  | [] => []
  | line :: rest => if isEnvironmentLine line then rest else line :: rest

/-- Both parsers read the patch alike: the environment is named at the start of its line, every line of the hunks is
read alike, and the end of the patch is not indented when it follows an update and its line is ended. -/
structure StreamsAlike (patch : Text) : Prop where
  environment : ∀ line, (patchHunkLines patch).head? = some line → isEnvironmentLine line = true →
    environmentIdMarker <+: line
  body : Place.ReadAlike .hunk (patchBody patch)
  last : Place.after .hunk (patchBody patch) ≠ .hunk → patch.getLast? = some '\n' →
    ∀ line, (lines patch).getLast? = some line → line.head? = some '*'

/-- Neither the first nor the last line of the text is blank. -/
def NoBlankEnds (patch : Text) : Prop :=
  (∀ line, (lines patch).head? = some line → line.trim ≠ []) ∧
    ∀ line, (lines patch).getLast? = some line → line.trim ≠ []

def processLines : Nat → List Text → StreamingParserState → Except ParseError StreamingParserState
  | _, [], s => .ok s
  | n, l :: ls, s => do processLines (n + 1) ls (← processLine (n + 1) l s)

def finishState (n : Nat) (b : Text) (s : StreamingParserState) : Except ParseError (List Hunk) := do
  let s ← if b = [] then .ok s else finishLine b (n + 1) s
  if s.mode = .endedPatch then return s.hunks
  else .error (.invalidPatch "The last line of the patch must be '*** End Patch'")

variable {ls : List Text} {b t : Text} {done : List Hunk} {r : Reading}

namespace StreamingPatchParser

theorem each_pushDelta_bind {α : Type} (k : Eff ParseError StreamingPatchParser α) (deltas : List Text) :
    (each pushDelta deltas >>= fun _ => k) = (each pushChar deltas.flatten >>= fun _ => k) := by
  induction deltas with
  | nil => rfl
  | cons d deltas ih =>
      rw [flatten_cons, each_append_bind, ← ih, each, bind_assoc, pushDelta, bind_assoc]
      simp only [bind_assoc, pure_bind]
      rfl

theorem each_pushChar_of_not_mem {l : Text} (hl : '\n' ∉ l) (p : StreamingPatchParser) :
    ∃ us, each pushChar l p = (.ok us, { p with lineBuffer := p.lineBuffer ++ l }) := by
  induction l generalizing p with
  | nil => exact ⟨[], by simp [each]⟩
  | cons c l ih =>
      have hc : c ≠ '\n' := fun hc => hl (by simp [hc])
      have hpush : pushChar c p = (.ok (), { p with lineBuffer := p.lineBuffer ++ [c] }) := by
        rw [pushChar, if_neg hc]
      obtain ⟨us, hus⟩ := ih (fun h => hl (mem_cons_of_mem _ h)) { p with lineBuffer := p.lineBuffer ++ [c] }
      rw [each, bind_of_ok hpush, bind_of_ok hus]
      exact ⟨() :: us, by simp⟩

section

variable {read : Nat → StreamingParserState → Except ParseError StreamingParserState} {p : StreamingPatchParser}

theorem takeLine_ok {s : StreamingParserState} (h : read (p.lineNumber + 1) p.state = .ok s) :
    takeLine read p = (.ok (), { lineBuffer := [], state := s, lineNumber := p.lineNumber + 1 }) := by
  rw [takeLine, h]

theorem takeLine_error {e : ParseError} (h : read (p.lineNumber + 1) p.state = .error e) :
    takeLine read p = (.error e, { p with lineBuffer := [], lineNumber := p.lineNumber + 1 }) := by
  rw [takeLine, h]

end

theorem finish_apply (b : Text) (s : StreamingParserState) (n : Nat) :
    (finish { lineBuffer := b, state := s, lineNumber := n }).1 = finishState n b s := by
  simp only [finish, read_bind_apply, finishState]
  by_cases hb : b = []
  · rw [if_pos hb, if_pos hb]
    simp only [read_bind_apply]
    change _ = ite _ _ _
    split <;> rfl
  · rw [if_neg hb, if_neg hb]
    cases hline : finishLine b (n + 1) s with
    | error e =>
        rw [bind_of_error (takeLine_error hline)]
        rfl
    | ok s' =>
        rw [bind_of_ok (takeLine_ok hline), read_bind_apply]
        change _ = ite _ _ _
        split <;> rfl

theorem each_pushChar_bind_finish (hls : ∀ l ∈ ls, '\n' ∉ l) (hb : '\n' ∉ b)
    (s : StreamingParserState) (n : Nat) : ((each pushChar (ofLines ls ++ b) >>= fun _ => finish)
        { lineBuffer := [], state := s, lineNumber := n }).1 =
      (processLines n (ls.map stripCr) s >>= finishState (n + ls.length) b) := by
  induction ls generalizing s n with
  | nil =>
      obtain ⟨us, hus⟩ := each_pushChar_of_not_mem hb { lineBuffer := [], state := s, lineNumber := n }
      rw [show ofLines [] ++ b = b from rfl, bind_of_ok hus]
      exact finish_apply b s n
  | cons l ls ih =>
      obtain ⟨us, hus⟩ := each_pushChar_of_not_mem (hls l mem_cons_self)
        { lineBuffer := [], state := s, lineNumber := n }
      have hspl : ofLines (l :: ls) ++ b = l ++ ('\n' :: (ofLines ls ++ b)) := by
        simp [ofLines]
      rw [hspl, each_append_bind, bind_of_ok hus, each, bind_assoc]
      have hpush : pushChar '\n' { lineBuffer := [] ++ l, state := s, lineNumber := n } =
          takeLine (fun lineNumber => processLine lineNumber l.stripCr)
            { lineBuffer := [] ++ l, state := s, lineNumber := n } := rfl
      rw [map_cons, processLines]
      cases hline : processLine (n + 1) l.stripCr s with
      | error e =>
          rw [bind_of_error (hpush.trans (takeLine_error hline))]
          rfl
      | ok s' =>
          rw [bind_of_ok (hpush.trans (takeLine_ok hline)), bind_assoc]
          simp only [pure_bind]
          rw [ih (fun l' hl' => hls l' (mem_cons_of_mem _ hl')) s' (n + 1), length_cons,
            show n + 1 + ls.length = n + (ls.length + 1) by omega]
          rfl

end StreamingPatchParser

/-- In whatever pieces a text arrives, its ended lines are read first and then what is left after them. -/
theorem streamPatch_eq {deltas : List Text} (hls : ∀ l ∈ ls, '\n' ∉ l) (hb : '\n' ∉ b)
    (h : deltas.flatten = ofLines ls ++ b) :
    streamPatch deltas = (processLines 0 (ls.map stripCr) {} >>= finishState ls.length b) := by
  rw [streamPatch, each_pushDelta_bind, h]
  have hrun := each_pushChar_bind_finish hls hb {} 0
  rw [Nat.zero_add] at hrun
  exact hrun

theorem processLines_append (n : Nat) (ls ls' : List Text) (s : StreamingParserState) :
    processLines n (ls ++ ls') s = (processLines n ls s >>= processLines (n + ls.length) ls') := by
  induction ls generalizing n s with
  | nil => rfl
  | cons l ls ih =>
      rw [cons_append, processLines, processLines]
      cases processLine (n + 1) l s with
      | error e => rfl
      | ok s' =>
          change processLines (n + 1) (ls ++ ls') s' = (processLines (n + 1) ls s' >>= _)
          rw [ih, length_cons, show n + 1 + ls.length = n + (ls.length + 1) by omega]

variable {n : Nat} {line : Text} {s : StreamingParserState}

/-! ## Headers -/

theorem handle_of_head? (h : t.head? ≠ some '*') : handleHunkHeadersAndEndPatch n t s = .ok none := by
  have hend : t ≠ endPatchMarker := by rintro rfl; exact h rfl
  have hadd := stripPrefix?_eq_none.mpr (not_prefix_of_head? (p := addFileMarker) rfl h)
  have hdel := stripPrefix?_eq_none.mpr (not_prefix_of_head? (p := deleteFileMarker) rfl h)
  have hupd := stripPrefix?_eq_none.mpr (not_prefix_of_head? (p := updateFileMarker) rfl h)
  simp only [handleHunkHeadersAndEndPatch, if_neg hend, hadd, hdel, hupd]

theorem handle_eofMarker : handleHunkHeadersAndEndPatch n eofMarker s = .ok none := by
  have hend : eofMarker ≠ endPatchMarker := by decide
  have hadd : stripPrefix? addFileMarker eofMarker = none := by decide
  have hdel : stripPrefix? deleteFileMarker eofMarker = none := by decide
  have hupd : stripPrefix? updateFileMarker eofMarker = none := by decide
  simp only [handleHunkHeadersAndEndPatch, if_neg hend, hadd, hdel, hupd]

/-- The first characters of the line that names a destination, without the space after them. -/
def moveToStem : Text := "*** Move to:"

theorem handle_moveTo (h : moveToStem <+: t) : handleHunkHeadersAndEndPatch n t s = .ok none := by
  have hend : t ≠ endPatchMarker := by
    rintro rfl
    revert h
    decide
  have hadd := stripPrefix?_eq_none.mpr
    (not_prefix_of_take (q := addFileMarker) 5 (by decide) (by decide) (by decide) h)
  have hdel := stripPrefix?_eq_none.mpr
    (not_prefix_of_take (q := deleteFileMarker) 5 (by decide) (by decide) (by decide) h)
  have hupd := stripPrefix?_eq_none.mpr
    (not_prefix_of_take (q := updateFileMarker) 5 (by decide) (by decide) (by decide) h)
  simp only [handleHunkHeadersAndEndPatch, if_neg hend, hadd, hdel, hupd]

def Fits (hunk : OpenHunk) (s : StreamingParserState) : Prop :=
  match hunk with
  | .closed => s.mode = .startedPatch ∧ s.hunks = [] ∨
      s.mode = .deleteFile ∧ ∃ pre path, s.hunks = pre ++ [.deleteFile path]
  | .added .. => s.mode = .addFile ∧ ∃ pre path contents, s.hunks = pre ++ [.addFile path contents]
  | .header _ => (∃ k, s.mode = .updateFile k) ∧ ∃ pre path, s.hunks = pre ++ [.updateFile path none []]
  | .first .. | .opened .. | .lines .. | .next .. =>
      (∃ k, s.mode = .updateFile k) ∧ ∃ pre path movePath chunks, s.hunks = pre ++ [.updateFile path movePath chunks]

/-- The number of the lines of a chunk and how much of its context counts against it. -/
def UpdateFileChunk.excess (chunk : UpdateFileChunk) : Int :=
  chunk.oldLines.length + chunk.newLines.length - (chunk.changeContext.elim 0 fun c => c.length + 1)

def chunksExcess (chunks : List UpdateFileChunk) : Int := (chunks.map excess).sum

def Hunk.excess : Hunk → Int
  | addFile .. | deleteFile _ => 0
  | updateFile _ movePath chunks => chunksExcess chunks - (movePath.elim 0 fun m => m.length)

/-- How many lines the updates have, less the lengths of the names in them. -/
def hunksExcess (hunks : List Hunk) : Int := (hunks.map Hunk.excess).sum

@[simp] theorem hunksExcess_append (as bs : List Hunk) : hunksExcess (as ++ bs) = hunksExcess as + hunksExcess bs := by
  simp [hunksExcess]

@[simp] theorem hunksExcess_singleton (a : Hunk) : hunksExcess [a] = a.excess := by simp [hunksExcess]

@[simp] theorem hunksExcess_nil : hunksExcess [] = 0 := rfl

@[simp] theorem chunksExcess_append (as bs : List UpdateFileChunk) :
    chunksExcess (as ++ bs) = chunksExcess as + chunksExcess bs := by
  simp [chunksExcess]

@[simp] theorem chunksExcess_singleton (a : UpdateFileChunk) : chunksExcess [a] = a.excess := by simp [chunksExcess]

@[simp] theorem chunksExcess_nil : chunksExcess [] = 0 := rfl

theorem handle_of_readHeader (h : readHeader done line = some r) (n : Nat) (s : StreamingParserState) :
    ∃ hunk mode, handleHunkHeadersAndEndPatch n line.trim s =
        (do ensureUpdateHunkIsNotEmpty n line.trim s; return some { mode, hunks := s.hunks ++ [hunk] }) ∧
      r.hunks = done ++ [hunk] ∧ hunk.excess = 0 ∧ Fits r.hunk { mode, hunks := s.hunks ++ [hunk] } := by
  have hend : line.trim ≠ endPatchMarker := by
    intro hend
    have hadd : stripPrefix? addFileMarker endPatchMarker = none := by decide
    have hdel : stripPrefix? deleteFileMarker endPatchMarker = none := by decide
    have hupd : stripPrefix? updateFileMarker endPatchMarker = none := by decide
    rw [readHeader, hend, hadd, hdel, hupd] at h
    cases h
  simp only [handleHunkHeadersAndEndPatch, if_neg hend]
  unfold readHeader at h
  cases hadd : stripPrefix? addFileMarker line.trim with
  | some path =>
      rw [hadd] at h
      cases h
      exact ⟨_, _, rfl, rfl, rfl, rfl, _, _, _, rfl⟩
  | none =>
      rw [hadd] at h
      cases hdel : stripPrefix? deleteFileMarker line.trim with
      | some path =>
          rw [hdel] at h
          cases h
          refine ⟨_, _, rfl, ?_, rfl, .inr ⟨rfl, _, _, rfl⟩⟩
          simp [Reading.hunks, OpenHunk.hunks]
      | none =>
          rw [hdel] at h
          cases hupd : stripPrefix? updateFileMarker line.trim with
          | some path =>
              rw [hupd] at h
              cases h
              exact ⟨_, _, rfl, rfl, rfl, ⟨_, rfl⟩, _, _, rfl⟩
          | none => rw [hupd] at h; cases h

theorem isEnvironmentIdPreambleLine_of_readHeader (h : readHeader done line = some r) :
    isEnvironmentIdPreambleLine line = false := by
  rw [isEnvironmentIdPreambleLine, decide_eq_false_iff_not]
  intro henv
  have hstar : line.head? = some '*' := by
    obtain ⟨t, rfl⟩ := henv
    rfl
  have htrim := trim_eq_trimEnd hstar (by decide)
  have hpre : ∀ p : Text, 5 ≤ p.length → p.take 5 ≠ environmentIdMarker.take 5 →
      stripPrefix? p line.trim = none := by
    intro p hlen hne
    rw [stripPrefix?_eq_none, htrim]
    intro hp
    exact not_prefix_of_take 5 hlen (by decide) hne (hp.trans (trimEnd_isPrefix line)) henv
  unfold readHeader at h
  rw [hpre addFileMarker (by decide) (by decide), hpre deleteFileMarker (by decide) (by decide),
    hpre updateFileMarker (by decide) (by decide)] at h
  cases h

/-! ## One line of an update -/

theorem processLine_update {k : Nat} {pre : List Hunk} {path : Text} {movePath : Option Text}
    {chunks : List UpdateFileChunk} (hmode : s.mode = .updateFile k)
    (hhs : s.hunks = pre ++ [.updateFile path movePath chunks])
    (hhdl : handleHunkHeadersAndEndPatch n line.trimEnd s = .ok none) :
    processLine n line s = (do
      let (movePath, chunks) ← processUpdateLine n line movePath chunks
      return { s with hunks := pre ++ [.updateFile path movePath chunks] }) := by
  simp only [processLine, hmode, hhdl, handledOr, hhs, getLast?_concat, dropLast_concat]

variable {change : UpdateFileChunk → UpdateFileChunk} {context : Option Text}

theorem readChunkLine_head? (h : readChunkLine line = some change) :
    isChunkLine line = true ∧ line.head? ≠ some '*' ∧ line.head? ≠ some '@' := by
  unfold readChunkLine at h
  split at h
  · exact ⟨rfl, by simp, by simp⟩
  · exact ⟨rfl, by simp, by simp⟩
  · exact ⟨rfl, by simp, by simp⟩
  · exact ⟨rfl, by simp, by simp⟩
  · cases h

theorem isChunkLine_of_readChunkLine (h : readChunkLine line = none) : isChunkLine line = false := by
  cases hline : isChunkLine line with
  | false => rfl
  | true =>
      cases line with
      | nil => cases h
      | cons c cs =>
          simp only [isChunkLine, head?_cons, Bool.or_eq_true, decide_eq_true_eq, Option.some.injEq,
            reduceCtorEq, false_or] at hline
          rcases hline with (rfl | rfl) | rfl
          · cases h
          · cases h
          · cases h

theorem processUpdateLine_of_readChunkLine (h : readChunkLine line = some change) (movePath : Option Text)
    (chunks : List UpdateFileChunk) :
    processUpdateLine n line movePath chunks = .ok (movePath, pushLine change chunks) := by
  obtain ⟨-, hstar, hat⟩ := readChunkLine_head? h
  have hstar' : line.trimEnd.head? ≠ some '*' := fun h => hstar (head?_trimEnd h)
  have hat' : line.trimEnd.head? ≠ some '@' := fun h => hat (head?_trimEnd h)
  have hmove := stripPrefix?_eq_none.mpr (not_prefix_of_head? (p := moveToMarker) rfl hstar')
  have hctx := not_prefix_of_head? (p := changeContextMarker) rfl hat'
  have hemp : line.trimEnd ≠ emptyChangeContextMarker := fun h => hat' (by rw [h]; rfl)
  have heof : line.trimEnd ≠ eofMarker := fun h => hstar' (by rw [h]; rfl)
  simp only [processUpdateLine, hmove, ite_self, hctx, hemp, heof, or_self, false_and, if_false,
    stripPrefix?_eq_none.mpr hctx]
  unfold readChunkLine at h
  split at h <;> cases h <;> rfl

theorem readContext_head? (h : readContext line = some context) : line.head? = some '@' := by
  unfold readContext at h
  split at h
  · rename_i hline
    rw [hline]
    rfl
  · obtain ⟨c, hc, -⟩ := Option.map_eq_some_iff.mp h
    rw [stripPrefix?_eq_some.mp hc]
    rfl

theorem processUpdateLine_of_readContext (h : readContext line.trimEnd = some context) (movePath : Option Text)
    (chunks : List UpdateFileChunk) :
    processUpdateLine n line movePath chunks =
      if lastChunkIsEmpty chunks then .error (.invalidHunk (unexpectedLineMessage line) n)
      else .ok (movePath, chunks ++ [emptyChunk context]) := by
  have hhead := readContext_head? h
  have hmove := stripPrefix?_eq_none.mpr
    (not_prefix_of_head? (p := moveToMarker) (s := line.trimEnd) rfl (by rw [hhead]; decide))
  unfold readContext at h
  simp only [processUpdateLine, hmove, ite_self]
  by_cases hemp : line.trimEnd = emptyChangeContextMarker
  · rw [if_pos hemp] at h
    cases h
    simp only [hemp, true_or, true_and, if_true]
  · rw [if_neg hemp] at h
    obtain ⟨c, hc, rfl⟩ := Option.map_eq_some_iff.mp h
    have hpre : changeContextMarker <+: line.trimEnd := ⟨c, (stripPrefix?_eq_some.mp hc).symm⟩
    simp only [hemp, hpre, or_true, true_and, if_false, hc]

def contextLength (context : Option Text) : Nat := context.elim 0 fun c => c.length + 1

/-- A line that opens a chunk still does without the space at its end, with the same context or a shorter one. -/
theorem readContext_trimEnd (h : readContext line = some context) :
    ∃ context', readContext line.trimEnd = some context' ∧ (line.trimEnd = line → context' = context) ∧
      contextLength context' ≤ contextLength context ∧
      (changeContextMarker <+: line ∧ line.trimEnd ≠ line → contextLength context' < contextLength context) := by
  by_cases heq : line.trimEnd = line
  · exact ⟨context, by rw [heq]; exact h, fun _ => rfl, Nat.le_refl _, fun hne => absurd heq hne.2⟩
  · unfold readContext at h
    split at h
    · rename_i hline
      rw [hline] at heq
      exact absurd (by decide) heq
    · obtain ⟨c, hc, rfl⟩ := Option.map_eq_some_iff.mp h
      have hline := stripPrefix?_eq_some.mp hc
      by_cases hbl : trimEnd c = []
      · refine ⟨none, ?_, fun h => absurd h heq, Nat.zero_le _, fun _ => Nat.succ_pos _⟩
        rw [hline, trimEnd_append_blank _ hbl]
        decide
      · have htrim := trimEnd_append changeContextMarker hbl
        rw [hline, htrim] at heq
        have hne : trimEnd c ≠ c := fun h => heq (by rw [h])
        have hlt := length_trimEnd_lt hne
        refine ⟨some (trimEnd c), ?_, fun h => ?_, ?_, fun _ => ?_⟩
        · rw [hline, htrim, readContext, if_neg, stripPrefix?_append, Option.map_some]
          intro hmk
          have := congrArg length hmk
          simp [changeContextMarker, emptyChangeContextMarker] at this
        · rw [hline, htrim] at h
          exact absurd h heq
        · simp only [contextLength, Option.elim_some]
          omega
        · simp only [contextLength, Option.elim_some]
          omega

theorem processUpdateLine_eofMarker (movePath : Option Text) (chunks : List UpdateFileChunk) :
    processUpdateLine n eofMarker movePath chunks =
      if lastChunkIsEmpty chunks then .error (.invalidHunk noLinesMessage n)
      else .ok (movePath, chunks.modifyLast fun chunk => { chunk with isEndOfFile := true }) := by
  have htrim : eofMarker.trimEnd = eofMarker := by decide
  have hmove : stripPrefix? moveToMarker eofMarker = none := by decide
  have hemp : eofMarker ≠ emptyChangeContextMarker := by decide
  have hctx : ¬ changeContextMarker <+: eofMarker := by decide
  simp only [processUpdateLine, htrim, hmove, ite_self, hemp, hctx, or_self, false_and, if_false,
    stripPrefix?_eq_none.mpr hctx, if_true]

theorem processUpdateLine_blank (hbl : line.trim = []) (hline : readChunkLine line = none)
    (movePath : Option Text) (chunks : List UpdateFileChunk) :
    ∃ e, processUpdateLine n line movePath chunks = .error e := by
  have htrim := trimEnd_eq_nil hbl
  have hmove : stripPrefix? moveToMarker [] = none := by decide
  have hemp : [] ≠ emptyChangeContextMarker := by decide
  have hctx : ¬ changeContextMarker <+: [] := by decide
  have heof : [] ≠ eofMarker := by decide
  simp only [processUpdateLine, htrim, hmove, ite_self, hemp, hctx, heof, or_self, false_and, if_false,
    stripPrefix?_eq_none.mpr hctx]
  split
  · cases hline
  · cases hline
  · cases hline
  · cases hline
  · split
    · exact ⟨_, rfl⟩
    · exact ⟨_, rfl⟩

/-! ## How the numbers of lines change -/

@[simp] theorem excess_emptyChunk (context : Option Text) :
    (emptyChunk context).excess = -(contextLength context : Int) := by
  cases context with
  | none => rfl
  | some c => simp [excess, emptyChunk, contextLength]

theorem excess_updateFile (path : Text) (movePath : Option Text) (chunks : List UpdateFileChunk) :
    (Hunk.updateFile path movePath chunks).excess = chunksExcess chunks - (movePath.elim 0 fun m => m.length : Nat) := by
  cases movePath with
  | none => rfl
  | some m => rfl

theorem readChunkLine_excess (h : readChunkLine line = some change) :
    ∃ w : Int, 0 < w ∧ ∀ chunk, (change chunk).excess = chunk.excess + w ∧ (change chunk).isEmpty = false := by
  unfold readChunkLine at h
  split at h
  · cases h
    refine ⟨2, by decide, fun chunk => ⟨?_, by simp [UpdateFileChunk.isEmpty]⟩⟩
    simp only [UpdateFileChunk.excess, length_append, length_singleton]
    omega
  · cases h
    refine ⟨2, by decide, fun chunk => ⟨?_, by simp [UpdateFileChunk.isEmpty]⟩⟩
    simp only [UpdateFileChunk.excess, length_append, length_singleton]
    omega
  · cases h
    refine ⟨1, by decide, fun chunk => ⟨?_, by simp [UpdateFileChunk.isEmpty]⟩⟩
    simp only [UpdateFileChunk.excess, length_append, length_singleton]
    omega
  · cases h
    refine ⟨1, by decide, fun chunk => ⟨?_, by simp [UpdateFileChunk.isEmpty]⟩⟩
    simp only [UpdateFileChunk.excess, length_append, length_singleton]
    omega
  · cases h

theorem pushLine_concat (change : UpdateFileChunk → UpdateFileChunk) (chunks : List UpdateFileChunk)
    (chunk : UpdateFileChunk) : pushLine change (chunks ++ [chunk]) = chunks ++ [change chunk] := by
  rw [pushLine, if_neg (by simp), modifyLast_concat]

theorem pushLine_nil (change : UpdateFileChunk → UpdateFileChunk) : pushLine change [] = [change (emptyChunk none)] := by
  rw [pushLine, if_pos rfl]
  exact modifyLast_concat change (emptyChunk none) []

theorem pushLine_excess {w : Int}
    (h : ∀ chunk, (change chunk).excess = chunk.excess + w ∧ (change chunk).isEmpty = false)
    (chunks : List UpdateFileChunk) : chunksExcess (pushLine change chunks) = chunksExcess chunks + w := by
  rcases eq_nil_or_concat' chunks with rfl | ⟨chunks, chunk, rfl⟩
  · rw [pushLine_nil, chunksExcess_singleton, (h _).1]
    rfl
  · rw [pushLine_concat, chunksExcess_append, chunksExcess_append, chunksExcess_singleton, chunksExcess_singleton,
      (h _).1, Int.add_assoc]

theorem modifyLast_eof_excess (chunks : List UpdateFileChunk) :
    chunksExcess (chunks.modifyLast fun chunk => { chunk with isEndOfFile := true }) = chunksExcess chunks := by
  rcases eq_nil_or_concat' chunks with rfl | ⟨chunks, chunk, rfl⟩
  · rfl
  · rw [modifyLast_concat, chunksExcess_append, chunksExcess_append]
    rfl

end CodexStudy.ApplyPatch
