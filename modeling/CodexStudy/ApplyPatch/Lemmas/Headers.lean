import CodexStudy.ApplyPatch.Apply

/-!
# The headers of a patch
-/

namespace CodexStudy.ApplyPatch

open CodexStudy.Lib Text List Option

/-- The paths that the header lines of a hunk name. -/
structure Header where
  source : Text
  move : Option Text

def Hunk.header (hunk : Hunk) : Header := ⟨hunk.sourcePath, hunk.movePath⟩

def Header.strip (h : Header) : Header := ⟨h.source, h.move.map stripCr⟩

/-- A line that can stand inside an update. -/
def inBody (line : Text) : Bool := line.head? != some '*' || line == eofMarker

def headerOf (line : Text) (rest : List Text) : Option (Header × List Text) :=
  match stripPrefix? addFileMarker line.trim with
  | some path => some (⟨path, none⟩, rest.dropWhile fun l => l.head? == some '+')
  | none => match stripPrefix? deleteFileMarker line.trim with
    | some path => some (⟨path, none⟩, rest)
    | none => match stripPrefix? updateFileMarker line.trim with
      | some path => some (⟨path, (parseMovePath rest).1⟩, (parseMovePath rest).2.dropWhile inBody)
      | none => none

inductive Headers : List Text → List Header → Prop where
  | nil : Headers [] []
  | cons {line rest h rest' hs} : headerOf line rest = some (h, rest') → Headers rest' hs →
      Headers (line :: rest) (h :: hs)

theorem Headers.unique {lines hs hs'} (h : Headers lines hs) (h' : Headers lines hs') : hs = hs' := by
  induction h generalizing hs' with
  | nil => cases h'; rfl
  | cons hh _ ih =>
      cases h' with
      | cons hh' h' =>
          rw [hh] at hh'
          cases hh'
          rw [ih h']

/-! ## Header lines are no ends of files -/

variable {line : Text} {n ln : Nat} {lines rest pl hl : List Text} {chunk : UpdateFileChunk}

theorem headerOf_eof (rest : List Text) (h : line.trim = eofMarker) : headerOf line rest = none := by
  have hadd : stripPrefix? addFileMarker eofMarker = none := by decide
  have hdel : stripPrefix? deleteFileMarker eofMarker = none := by decide
  have hupd : stripPrefix? updateFileMarker eofMarker = none := by decide
  simp only [headerOf, h, hadd, hdel, hupd]

theorem trim_eofMarker : eofMarker.trim = eofMarker := by decide

/-- The first line of hunks is not the mark of the end of a file, also when it loses a carriage return. -/
theorem Headers.head_ne_eof {lines hs} (h : Headers lines hs) : ∀ l, lines.head? = some l → l.trim ≠ eofMarker := by
  intro l hl heof
  cases h with
  | nil => cases hl
  | cons hh _ =>
      cases hl
      rw [headerOf_eof _ heof] at hh
      cases hh

theorem inBody_eq_false (hstar : line.head? = some '*') (heof : line.trim ≠ eofMarker) : inBody line = false := by
  have hne : line ≠ eofMarker := by
    rintro rfl
    exact heof trim_eofMarker
  simp [inBody, hstar, hne]

/-! ## What the parser consumes -/

section Consumed

variable {p : Text → Bool}

def StopsAfter (p : Text → Bool) (n : Nat) (lines : List Text) : Prop :=
  (∀ l ∈ lines.take n, p l = true) ∧ ∀ l, (lines.drop n).head? = some l → l.head? = some '*'

theorem StopsAfter.drop_eq (h : StopsAfter p n lines)
    (hnext : ∀ l, (lines.drop n).head? = some l → p l = false) : lines.drop n = lines.dropWhile p := by
  conv_rhs => rw [← take_append_drop n lines]
  rw [dropWhile_append_of_pos h.1]
  cases hd : lines.drop n with
  | nil => rfl
  | cons l ls =>
      rw [dropWhile_cons_of_neg]
      simp [hnext l (by rw [hd]; rfl)]

theorem StopsAfter.append {m : Nat} (hl : ∀ l ∈ lines.take n, p l = true)
    (h : StopsAfter p m (lines.drop n)) : StopsAfter p (m + n) lines := by
  constructor
  · intro l hl'
    rw [Nat.add_comm, take_add] at hl'
    rcases mem_append.mp hl' with hl' | hl'
    · exact hl l hl'
    · exact h.1 l hl'
  · rw [Nat.add_comm, ← drop_drop]
    exact h.2

end Consumed

variable {chunk' : UpdateFileChunk} {allow : Bool} {skip : Nat} {hs : List Header} {text : Text}

theorem parseChunkLines_inBody {parsed : Nat} (h : parseChunkLines ln lines parsed chunk = .ok (chunk', n)) :
    parsed ≤ n ∧ ∀ l ∈ lines.take (n - parsed), inBody l = true := by
  have step : ∀ {line : Text} {rest : List Text} {m : Nat}, inBody line = true →
      (m + 1 ≤ n ∧ ∀ l ∈ rest.take (n - (m + 1)), inBody l = true) →
      m ≤ n ∧ ∀ l ∈ (line :: rest).take (n - m), inBody l = true := by
    rintro line rest m hline ⟨hle, hrest⟩
    refine ⟨by omega, ?_⟩
    have : n - m = n - (m + 1) + 1 := by omega
    rw [this, take_succ_cons]
    intro l hl
    rcases mem_cons.mp hl with rfl | hl
    · exact hline
    · exact hrest l hl
  induction lines generalizing parsed chunk with
  | nil =>
      cases h
      exact ⟨Nat.le_refl _, by simp⟩
  | cons line rest ih =>
      rw [parseChunkLines.eq_def] at h
      dsimp only at h
      split at h
      · rename_i heof
        split at h
        · cases h
        · cases h
          refine ⟨by omega, ?_⟩
          simp [heof, inBody]
      · split at h
        · exact step rfl (ih h)
        · exact step rfl (ih h)
        · exact step rfl (ih h)
        · exact step rfl (ih h)
        · split at h
          · cases h
          · cases h
            exact ⟨Nat.le_refl _, by simp⟩

theorem parseChunkLines_pos (h : parseChunkLines ln (line :: rest) 0 chunk = .ok (chunk', n)) : 1 ≤ n := by
  rw [parseChunkLines.eq_def] at h
  dsimp only at h
  split at h
  · cases h
  · split at h
    · exact (parseChunkLines_inBody h).1
    · exact (parseChunkLines_inBody h).1
    · exact (parseChunkLines_inBody h).1
    · exact (parseChunkLines_inBody h).1
    · cases h

theorem parseChangeContext_inBody {context : Option Text}
    (h : parseChangeContext line ln allow = .ok (context, n)) : n = 0 ∨ n = 1 ∧ inBody line = true := by
  unfold parseChangeContext at h
  split at h
  · rename_i hline
    cases h
    exact .inr ⟨rfl, by rw [hline]; decide⟩
  · split at h
    · rename_i hline
      cases h
      rw [stripPrefix?_eq_some.mp hline]
      exact .inr ⟨rfl, rfl⟩
    · split at h
      · cases h; exact .inl rfl
      · cases h

theorem parseUpdateFileChunk_inBody (h : parseUpdateFileChunk (line :: rest) ln allow = .ok (chunk, n)) :
    1 ≤ n ∧ ∀ l ∈ (line :: rest).take n, inBody l = true := by
  obtain ⟨⟨context, startIndex⟩, hctx, h⟩ := except_bind_eq_ok.mp h
  dsimp only at h
  split at h
  · cases h
  · obtain ⟨⟨chunk', parsed⟩, hlns, h⟩ := except_bind_eq_ok.mp h
    cases h
    have hbody := (parseChunkLines_inBody hlns).2
    rcases parseChangeContext_inBody hctx with rfl | ⟨rfl, hline⟩
    · exact ⟨parseChunkLines_pos hlns, hbody⟩
    · refine ⟨by omega, ?_⟩
      rw [take_succ_cons]
      intro l hl
      rcases mem_cons.mp hl with rfl | hl
      · exact hline
      · exact hbody l hl

theorem inBody_of_blank (h : line.trim = []) : inBody line = true := by
  have hstar : line.head? ≠ some '*' := by
    intro hs
    obtain ⟨t, rfl⟩ := head?_eq_some_iff.mp hs
    exact trim_cons_ne_nil t (by decide) h
  simp [inBody, hstar]

theorem parseChunks_stops {first : Bool} {chunks : List UpdateFileChunk}
    (h : parseChunks skip lines ln first = .ok (chunks, n)) : StopsAfter inBody n (lines.drop skip) := by
  induction lines generalizing skip ln first chunks n with
  | nil => simp [StopsAfter]
  | cons line rest ih =>
      cases skip with
      | succ skip =>
          rw [parseChunks] at h
          exact ih h
      | zero =>
          rw [parseChunks] at h
          split at h
          · rename_i hbl
            obtain ⟨⟨cs, m⟩, hrest, h⟩ := except_bind_eq_ok.mp h
            cases h
            exact StopsAfter.append (by simpa using inBody_of_blank hbl) (ih hrest)
          · split at h
            · rename_i hstar
              cases h
              exact ⟨by simp, by simpa using hstar⟩
            · obtain ⟨⟨chunk, k⟩, hck, h⟩ := except_bind_eq_ok.mp h
              obtain ⟨⟨cs, m⟩, hrest, h⟩ := except_bind_eq_ok.mp h
              cases h
              obtain ⟨hk, hbody⟩ := parseUpdateFileChunk_inBody hck
              obtain ⟨k, rfl⟩ : ∃ j, k = j + 1 := ⟨k - 1, by omega⟩
              exact StopsAfter.append hbody (ih hrest)

/-! ## Headers of a parsed patch -/

theorem parseMovePath_drop (rest : List Text) :
    rest.drop (rest.length - (parseMovePath rest).2.length) = (parseMovePath rest).2 := by
  unfold parseMovePath
  split
  · rename_i hm
    cases rest with
    | nil => rfl
    | cons l rest => simp
  · simp

theorem headerLines_drop (rest : List Text) (parsed : Nat) :
    rest.drop (1 + (rest.length - (parseMovePath rest).2.length) + parsed - 1) =
      (parseMovePath rest).2.drop parsed := by
  have hn : 1 + (rest.length - (parseMovePath rest).2.length) + parsed - 1 =
      (rest.length - (parseMovePath rest).2.length) + parsed := by omega
  rw [hn, ← drop_drop, parseMovePath_drop]

theorem parseOneHunk_header {hunk : Hunk} (h : parseOneHunk line rest ln = .ok (hunk, n))
    (hnext : ∀ l, (rest.drop (n - 1)).head? = some l → l.trim ≠ eofMarker) :
    headerOf line rest = some (hunk.header, rest.drop (n - 1)) := by
  unfold parseOneHunk at h
  unfold headerOf
  dsimp only at h
  cases hadd : stripPrefix? addFileMarker line.trim with
  | some path =>
      rw [hadd] at h
      cases h
      have hdrop : ((rest.takeWhile fun l => l.head? == some '+') ++ rest.dropWhile fun l => l.head? == some '+').drop
          (rest.takeWhile fun l => l.head? == some '+').length = rest.dropWhile fun l => l.head? == some '+' :=
        drop_left' rfl
      rw [takeWhile_append_dropWhile] at hdrop
      rw [Nat.add_sub_cancel_left, hdrop]
      rfl
  | none =>
      rw [hadd] at h
      cases hdel : stripPrefix? deleteFileMarker line.trim with
      | some path =>
          rw [hdel] at h
          cases h
          rfl
      | none =>
          rw [hdel] at h
          cases hupd : stripPrefix? updateFileMarker line.trim with
          | none => rw [hupd] at h; cases h
          | some path =>
              rw [hupd] at h
              obtain ⟨⟨chunks, parsed⟩, hcks, h⟩ := except_bind_eq_ok.mp h
              dsimp only at h
              split at h
              · cases h
              · cases h
                rw [headerLines_drop] at hnext ⊢
                have hstops := parseChunks_stops hcks
                rw [drop_zero] at hstops
                rw [hstops.drop_eq fun l hl => inBody_eq_false (hstops.2 l hl) (hnext l hl)]
                rfl

theorem parseHunks_headers {hunks : List Hunk}
    (h : parseHunks skip lines ln = .ok hunks) : Headers (lines.drop skip) (hunks.map Hunk.header) := by
  induction lines generalizing skip ln hunks with
  | nil =>
      rw [parseHunks] at h
      cases h
      simpa using Headers.nil
  | cons line rest ih =>
      cases skip with
      | succ skip =>
          rw [parseHunks] at h
          exact ih h
      | zero =>
          rw [parseHunks] at h
          obtain ⟨⟨hunk, n⟩, hhunk, h⟩ := except_bind_eq_ok.mp h
          obtain ⟨hunks', hrest, h⟩ := except_bind_eq_ok.mp h
          cases h
          have hheaders := ih hrest
          exact .cons (parseOneHunk_header hhunk hheaders.head_ne_eof) hheaders

/-! ## Lines that have lost a carriage return -/

theorem dropWhile_eq_of_imp {α : Type} {p q : α → Bool} {as : List α} (h : ∀ a, p a = true → q a = true)
    (hstop : ∀ a, (as.dropWhile p).head? = some a → q a = false) : as.dropWhile q = as.dropWhile p := by
  induction as with
  | nil => rfl
  | cons a as ih =>
      cases hp : p a with
      | true =>
          rw [dropWhile_cons_of_pos hp] at hstop ⊢
          rw [dropWhile_cons_of_pos (h a hp)]
          exact ih hstop
      | false =>
          have hdrop : (a :: as).dropWhile p = a :: as := dropWhile_cons_of_neg (by simp [hp])
          rw [hdrop] at hstop ⊢
          exact dropWhile_cons_of_neg (by simp [hstop a rfl])

theorem inBody_stripCr (h : inBody line = true) : inBody line.stripCr = true := by
  simp only [inBody, Bool.or_eq_true, bne_iff_ne, ne_eq, beq_iff_eq] at h ⊢
  rcases h with h | rfl
  · exact .inl fun hs => h ((head?_stripCr line (by decide)).mp hs)
  · exact .inr (by decide)

theorem parseMovePath_stripCr (rest : List Text) : parseMovePath (rest.map stripCr) =
      ((parseMovePath rest).1.map stripCr, (parseMovePath rest).2.map stripCr) := by
  cases rest with
  | nil => rfl
  | cons l rest =>
      simp only [parseMovePath, map_cons, head?_cons, bind_some, tail_cons]
      rw [stripPrefix?_stripCr l (by decide)]
      cases stripPrefix? moveToMarker l with
      | none => rfl
      | some m => rfl

theorem dropWhile_added_stripCr (rest : List Text) : (rest.map stripCr).dropWhile (fun l => l.head? == some '+') =
      (rest.dropWhile fun l => l.head? == some '+').map stripCr := by
  have hp : (fun l : Text => l.head? == some '+') ∘ stripCr = fun l => l.head? == some '+' := by
    funext l
    rw [Function.comp_apply, Bool.eq_iff_iff, beq_iff_eq, beq_iff_eq]
    exact head?_stripCr l (by decide)
  rw [dropWhile_map, hp]

/-- An update stops at the same line if it is a header, which does not become the mark of an end of a file. -/
theorem dropWhile_inBody_stripCr {body : List Text} (h : Headers (body.dropWhile inBody) hs) :
    (body.map stripCr).dropWhile inBody = (body.dropWhile inBody).map stripCr := by
  have hstop : ∀ l, (body.dropWhile inBody).head? = some l → (inBody ∘ stripCr) l = false := by
    intro l hl
    have hstar : l.head? = some '*' := by
      have hl' := head?_dropWhile_not inBody body
      rw [hl] at hl'
      by_contra hne
      simp [inBody, hne] at hl'
    refine inBody_eq_false ((head?_stripCr l (by decide)).mpr hstar) ?_
    rw [trim_stripCr]
    exact h.head_ne_eof l hl
  have himp : ∀ l, inBody l = true → (inBody ∘ stripCr) l = true := fun l hl => inBody_stripCr hl
  rw [dropWhile_map, dropWhile_eq_of_imp himp hstop]

theorem headerOf_stripCr {rest' : List Text} {h : Header} (hh : headerOf line rest = some (h, rest'))
    (hrest : Headers rest' hs) : headerOf line.stripCr (rest.map stripCr) = some (h.strip, rest'.map stripCr) := by
  unfold headerOf at hh ⊢
  rw [trim_stripCr]
  cases hadd : stripPrefix? addFileMarker line.trim with
  | some path =>
      rw [hadd] at hh
      cases hh
      simp only [dropWhile_added_stripCr]
      rfl
  | none =>
      rw [hadd] at hh
      cases hdel : stripPrefix? deleteFileMarker line.trim with
      | some path =>
          rw [hdel] at hh
          cases hh
          rfl
      | none =>
          rw [hdel] at hh
          cases hupd : stripPrefix? updateFileMarker line.trim with
          | none => rw [hupd] at hh; cases hh
          | some path =>
              rw [hupd] at hh
              cases hh
              simp only [parseMovePath_stripCr, dropWhile_inBody_stripCr hrest]
              rfl

theorem Headers.stripCr {lines hs} (h : Headers lines hs) : Headers (lines.map stripCr) (hs.map Header.strip) := by
  induction h with
  | nil => exact .nil
  | cons hh hrest ih => exact .cons (headerOf_stripCr hh hrest) ih

/-! ## The text that is kept for the application -/

theorem checkStartAndEndLinesStrict_eq_ok {first last : Option Text} {u : Unit} :
    checkStartAndEndLinesStrict first last = .ok u ↔
      first.map trim = some beginPatchMarker ∧ last.map trim = some endPatchMarker := by
  unfold checkStartAndEndLinesStrict
  split
  · rename_i a b ha hb
    rw [ha, hb, some.injEq, some.injEq]
    split
    · rename_i hab
      exact ⟨fun _ => hab, fun _ => rfl⟩
    · rename_i hab
      refine ⟨?_, fun h => absurd h hab⟩
      intro h
      split at h <;> cases h
  · rename_i ha hb
    rw [hb]
    refine ⟨?_, fun h => by cases h.2⟩
    intro h
    split at h <;> cases h
  · rename_i ha
    rw [ha]
    constructor
    · intro h; cases h
    · rintro ⟨h, _⟩; cases h

theorem checkPatchBoundariesStrict_eq_ok : checkPatchBoundariesStrict lines = .ok (pl, hl) ↔
      pl = lines ∧ ∃ a b, lines = a :: hl ++ [b] ∧ a.trim = beginPatchMarker ∧ b.trim = endPatchMarker := by
  constructor
  · intro h
    obtain ⟨_, hck, h⟩ := except_bind_eq_ok.mp h
    cases h
    refine ⟨rfl, ?_⟩
    obtain ⟨hfst, hlast⟩ := checkStartAndEndLinesStrict_eq_ok.mp hck
    obtain ⟨a, ha, hbegin⟩ := map_eq_some_iff.mp hfst
    obtain ⟨b, hb, hend⟩ := map_eq_some_iff.mp hlast
    obtain ⟨rest, rfl⟩ := head?_eq_some_iff.mp ha
    rcases eq_nil_or_concat' rest with rfl | ⟨mid, b', rfl⟩
    · -- One line cannot be the first and the last line of a patch.
      cases hb
      have hne : beginPatchMarker ≠ endPatchMarker := by decide
      exact absurd (hbegin.symm.trans hend) hne
    · rw [← cons_append, getLast?_concat] at hb
      cases hb
      exact ⟨a, b, by simp, hbegin, hend⟩
  · rintro ⟨rfl, a, b, rfl, ha, hb⟩
    refine except_bind_eq_ok.mpr ⟨(), checkStartAndEndLinesStrict_eq_ok.mpr ⟨?_, ?_⟩, ?_⟩
    · rw [cons_append, head?_cons, map_some, ha]
    · rw [getLast?_concat, map_some, hb]
    · rw [cons_append, tail_cons, dropLast_concat]
      rfl

theorem checkPatchBoundariesLenient_eq_ok (h : checkPatchBoundariesLenient lines = .ok (pl, hl)) :
    (∀ l ∈ pl, l ∈ lines) ∧ ∃ a b, pl = a :: hl ++ [b] ∧ a.trim = beginPatchMarker ∧ b.trim = endPatchMarker := by
  unfold checkPatchBoundariesLenient at h
  split at h
  · rename_i hstrict
    cases h
    obtain ⟨rfl, h⟩ := checkPatchBoundariesStrict_eq_ok.mp hstrict
    exact ⟨fun _ hl => hl, h⟩
  · split at h
    · split at h
      · obtain ⟨rfl, hlns⟩ := checkPatchBoundariesStrict_eq_ok.mp h
        exact ⟨fun l hl => mem_of_mem_tail (mem_of_mem_dropLast hl), hlns⟩
      · cases h
    · cases h

theorem checkPatchBoundariesLenient_kept (h : checkPatchBoundariesLenient (Text.lines text.trim) = .ok (pl, hl)) :
    ∃ pl', checkPatchBoundariesLenient (Text.lines (Text.join ['\n'] pl).trim) = .ok (pl', hl.map Text.stripCr) := by
  obtain ⟨hmem, a, b, rfl, ha, hb⟩ := checkPatchBoundariesLenient_eq_ok h
  have hlf : ∀ l ∈ a :: hl ++ [b], '\n' ∉ l := fun l hl => not_mem_of_mem_lines (hmem l hl)
  have hbegin : a.trim ≠ [] := by rw [ha]; decide
  have hend : b.trim ≠ [] := by rw [hb]; decide
  rw [lines_trim_join hbegin hend hlf]
  have hstrict : checkPatchBoundariesStrict (a.trimStart.stripCr :: hl.map stripCr ++ [b.trimEnd]) =
      .ok (a.trimStart.stripCr :: hl.map stripCr ++ [b.trimEnd], hl.map stripCr) :=
    checkPatchBoundariesStrict_eq_ok.mpr ⟨rfl, _, _, rfl, by simpa using ha, by simpa using hb⟩
  refine ⟨a.trimStart.stripCr :: hl.map stripCr ++ [b.trimEnd], ?_⟩
  unfold checkPatchBoundariesLenient
  rw [hstrict]

theorem parseEnvironmentIdPreamble_stripCr {rl : List Text} {environmentId : Option Text}
    (h : parseEnvironmentIdPreamble hl = .ok (environmentId, rl, n)) :
    parseEnvironmentIdPreamble (hl.map stripCr) = .ok (environmentId, rl.map stripCr, n) := by
  cases hl with
  | nil => cases h; rfl
  | cons first rest =>
      simp only [parseEnvironmentIdPreamble, map_cons] at h ⊢
      rw [trimStart_stripCr, stripPrefix?_stripCr _ (by decide)]
      cases hid : stripPrefix? environmentIdMarker first.trimStart with
      | none =>
          rw [hid] at h
          cases h
          rfl
      | some id =>
          rw [hid] at h
          simp only [map_some, trim_stripCr] at h ⊢
          split at h
          · cases h
          · rename_i hne
            cases h
            rw [if_neg hne]

/-- The text kept for the application names the paths of the verified text; a destination can have lost a carriage
return. -/
theorem parsePatch_kept {args args' : ApplyPatchArgs} (h : parsePatch text = .ok args)
    (h' : parsePatch args.patch = .ok args') :
    args'.hunks.map Hunk.header = (args.hunks.map Hunk.header).map Header.strip := by
  obtain ⟨⟨pl, hl⟩, hbounds, h⟩ := except_bind_eq_ok.mp h
  obtain ⟨⟨environmentId, rl, n⟩, henv, h⟩ := except_bind_eq_ok.mp h
  obtain ⟨hunks, hhs, h⟩ := except_bind_eq_ok.mp h
  cases h
  obtain ⟨pl', hbounds'⟩ := checkPatchBoundariesLenient_kept hbounds
  obtain ⟨⟨pl₂, hl₂⟩, hb₂, h'⟩ := except_bind_eq_ok.mp h'
  rw [hbounds'] at hb₂
  cases hb₂
  obtain ⟨⟨environmentId', rl', n'⟩, henv', h'⟩ := except_bind_eq_ok.mp h'
  rw [parseEnvironmentIdPreamble_stripCr henv] at henv'
  cases henv'
  obtain ⟨hunks', hhs', h'⟩ := except_bind_eq_ok.mp h'
  cases h'
  exact (parseHunks_headers hhs').unique (parseHunks_headers hhs).stripCr

end CodexStudy.ApplyPatch
