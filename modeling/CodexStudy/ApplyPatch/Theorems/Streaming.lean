import CodexStudy.ApplyPatch.Lemmas.Alike

/-!
# The preview of a patch that is still arriving

For every patch that the parser accepts, the streaming parser returns the same hunks exactly when every
line of the patch is read alike.
-/

namespace CodexStudy.ApplyPatch

open CodexStudy.Lib Reading Text List OpenHunk

/-! ## The end of the patch -/

def closing (n : Nat) (b e : Text) (s : StreamingParserState) : Except ParseError (List Hunk) :=
  if e = [] then finishState n b s else do finishState (n + 1) [] (← processLine (n + 1) b.stripCr s)

section

variable {n : Nat} {b e : Text} {r : Reading} {s : StreamingParserState}

theorem ensure_of_follows {t : Text} (hfol : Follows r s) (hcomplete : r.hunk.complete = true) :
    ensureUpdateHunkIsNotEmpty n t s = .ok () := by
  obtain ⟨hfits, hhs, hfilled⟩ := hfol
  obtain ⟨done, hunk⟩ := r
  cases hunk with
  | closed =>
      rcases hfits with ⟨-, hnil⟩ | ⟨-, pre, path, hpre⟩
      · simp [ensureUpdateHunkIsNotEmpty, hnil]
      · simp [ensureUpdateHunkIsNotEmpty, hpre]
  | added path contents =>
      obtain ⟨-, pre, path', contents', hpre⟩ := hfits
      simp [ensureUpdateHunkIsNotEmpty, hpre]
  | header path => cases hcomplete
  | first path movePath => cases hcomplete
  | opened path movePath chunks context => cases hcomplete
  | lines path movePath chunks chunk =>
      refine ensure_of_chunks t hhs (by simp) ?_
      rw [lastChunkIsEmpty_concat]
      exact hfilled
  | next path movePath chunks => exact ensure_of_chunks t hhs hfilled.1 hfilled.2

theorem handle_endPatchMarker : handleHunkHeadersAndEndPatch n endPatchMarker s =
    (do ensureUpdateHunkIsNotEmpty n endPatchMarker s; return some { s with mode := .endedPatch }) := by
  rw [handleHunkHeadersAndEndPatch, if_pos rfl]

theorem isEnvironmentIdPreambleLine_of_end (hb : b.trim = endPatchMarker) : isEnvironmentIdPreambleLine b = false := by
  rw [isEnvironmentIdPreambleLine, decide_eq_false_iff_not]
  intro henv
  have hstar : b.head? = some '*' := by
    obtain ⟨t, rfl⟩ := henv
    rfl
  have hpre : endPatchMarker <+: b := by
    rw [← hb, trim_eq_trimEnd hstar (by decide)]
    exact trimEnd_isPrefix b
  exact not_prefix_of_take 7 (by decide) (by decide) (by decide) hpre henv

theorem processLine_end (hb : b.trim = endPatchMarker) (hfits : Fits r.hunk s)
    (hpl : r.hunk.place = .hunk ∨ b.head? = some '*') :
    processLine n b s =
      (do ensureUpdateHunkIsNotEmpty n endPatchMarker s; return { s with mode := .endedPatch }) := by
  have hhandled : ∀ other, handledOr (handleHunkHeadersAndEndPatch n endPatchMarker s) other =
      (do ensureUpdateHunkIsNotEmpty n endPatchMarker s; return { s with mode := .endedPatch }) := by
    intro other
    rw [handle_endPatchMarker]
    cases ensureUpdateHunkIsNotEmpty n endPatchMarker s with
    | error e => rfl
    | ok u => rfl
  have hupd : ∀ k, s.mode = .updateFile k → b.head? = some '*' → processLine n b s =
      (do ensureUpdateHunkIsNotEmpty n endPatchMarker s; return { s with mode := .endedPatch }) := by
    intro k hmode hstar
    have htrim : b.trimEnd = endPatchMarker := by rw [← trim_eq_trimEnd hstar (by decide), hb]
    simp only [processLine, hmode, htrim, hhandled]
  obtain ⟨done, hunk⟩ := r
  cases hunk with
  | closed =>
      rcases hfits with ⟨hmode, -⟩ | ⟨hmode, -⟩
      · simp only [processLine, hmode, isEnvironmentIdPreambleLine_of_end hb, Bool.false_eq_true, if_false, hb, hhandled]
      · simp only [processLine, hmode, hb, hhandled]
  | added path contents => simp only [processLine, hfits.1, hb, hhandled]
  | header path => exact hupd _ hfits.1.choose_spec (hpl.resolve_left (by simp [place]))
  | first path movePath => exact hupd _ hfits.1.choose_spec (hpl.resolve_left (by simp [place]))
  | opened path movePath chunks context =>
      exact hupd _ hfits.1.choose_spec (hpl.resolve_left (by simp [place]))
  | lines path movePath chunks chunk =>
      exact hupd _ hfits.1.choose_spec (hpl.resolve_left (by simp [place]))
  | next path movePath chunks =>
      exact hupd _ hfits.1.choose_spec (hpl.resolve_left (by simp [place]))

theorem finishState_nil (s : StreamingParserState) : finishState n [] s =
    if s.mode = .endedPatch then .ok s.hunks
    else .error (.invalidPatch "The last line of the patch must be '*** End Patch'") := rfl

theorem finishState_end (hb : b.trim = endPatchMarker) :
    finishState n b s = (do ensureUpdateHunkIsNotEmpty (n + 1) b.trim s; return s.hunks) := by
  have hne : b ≠ [] := by
    rintro rfl
    revert hb
    decide
  rw [finishState, if_neg hne, StreamingPatchParser.finishLine, if_pos hb]
  cases ensureUpdateHunkIsNotEmpty (n + 1) b.trim s with
  | error e => rfl
  | ok u => rfl

theorem closing_of_follows (hfol : Follows r s) (hcomplete : r.hunk.complete = true)
    (hb : b.trim = endPatchMarker) (hlast : e = [] ∨ r.hunk.place = .hunk ∨ b.head? = some '*') :
    closing n b e s = .ok r.hunks := by
  unfold closing
  split
  · rw [finishState_end hb, ensure_of_follows hfol hcomplete, ← hfol.hunks]
    rfl
  · rename_i he
    have hpl : r.hunk.place = .hunk ∨ b.stripCr.head? = some '*' :=
      (hlast.resolve_left he).imp_right (head?_stripCr b (by decide)).mpr
    rw [processLine_end (by rw [trim_stripCr]; exact hb) hfol.fits hpl,
      ensure_of_follows hfol hcomplete, ← hfol.hunks]
    rfl

theorem mode_of_place (hfits : Fits r.hunk s) (hpl : r.hunk.place ≠ .hunk) :
    ∃ k pre path movePath chunks, s.mode = .updateFile k ∧ s.hunks = pre ++ [.updateFile path movePath chunks] := by
  obtain ⟨done, hunk⟩ := r
  cases hunk with
  | closed => exact absurd rfl hpl
  | added path contents => exact absurd rfl hpl
  | header path =>
      obtain ⟨⟨k, hmode⟩, pre, path', hhs⟩ := hfits
      exact ⟨k, pre, path', none, [], hmode, hhs⟩
  | first path movePath =>
      obtain ⟨⟨k, hmode⟩, pre, path', movePath', chunks', hhs⟩ := hfits
      exact ⟨k, pre, path', movePath', chunks', hmode, hhs⟩
  | opened path movePath chunks context =>
      obtain ⟨⟨k, hmode⟩, pre, path', movePath', chunks', hhs⟩ := hfits
      exact ⟨k, pre, path', movePath', chunks', hmode, hhs⟩
  | lines path movePath chunks chunk =>
      obtain ⟨⟨k, hmode⟩, pre, path', movePath', chunks', hhs⟩ := hfits
      exact ⟨k, pre, path', movePath', chunks', hmode, hhs⟩
  | next path movePath chunks =>
      obtain ⟨⟨k, hmode⟩, pre, path', movePath', chunks', hhs⟩ := hfits
      exact ⟨k, pre, path', movePath', chunks', hmode, hhs⟩

theorem closing_eq_ok {hs : List Hunk} (hfits : Fits r.hunk s) (hb : b.trim = endPatchMarker)
    (h : closing n b e s = .ok hs) : hs = s.hunks ∧ (e = [] ∨ r.hunk.place = .hunk ∨ b.head? = some '*') := by
  unfold closing at h
  split at h
  · rename_i he
    rw [finishState_end hb] at h
    obtain ⟨u, -, h⟩ := except_bind_eq_ok.mp h
    cases h
    exact ⟨rfl, .inl he⟩
  · have hb' : b.stripCr.trim = endPatchMarker := by rw [trim_stripCr]; exact hb
    obtain ⟨s', hline, hfinish⟩ := except_bind_eq_ok.mp h
    by_cases hpl : r.hunk.place = .hunk ∨ b.head? = some '*'
    · refine ⟨?_, .inr hpl⟩
      rw [processLine_end hb' hfits (hpl.imp_right (head?_stripCr b (by decide)).mpr)] at hline
      obtain ⟨u, -, hline⟩ := except_bind_eq_ok.mp hline
      cases hline
      rw [finishState_nil, if_pos rfl] at hfinish
      cases hfinish
      rfl
    · -- The line is taken for one of the update, which is never ended.
      obtain ⟨hpl, hstar⟩ := not_or.mp hpl
      obtain ⟨k, pre, path, movePath, chunks, hmode, hhs⟩ := mode_of_place hfits hpl
      have hhdl : handleHunkHeadersAndEndPatch (n + 1) b.stripCr.trimEnd s = .ok none :=
        handle_of_head? fun h => hstar ((head?_stripCr b (by decide)).mp (head?_trimEnd h))
      rw [processLine_update hmode hhs hhdl] at hline
      obtain ⟨⟨m, cs⟩, -, hline⟩ := except_bind_eq_ok.mp hline
      cases hline
      rw [finishState_nil, if_neg (by rw [hmode]; simp)] at hfinish
      cases hfinish

end

/-! ## The lines of an accepted patch -/

theorem lines_trim_ofLines {a b e : Text} {ls : List Text} (he : e = [] ∨ e = ['\n']) (ha : a.trim ≠ [])
    (hb : b.trim ≠ []) (ha' : '\n' ∉ a) (hls : ∀ l ∈ ls, '\n' ∉ l) (hb' : '\n' ∉ b) :
    Text.lines (Text.ofLines (a :: ls) ++ (b ++ e)).trim = a.trimStart.stripCr :: ls.map stripCr ++ [b.trimEnd] := by
  have hwhite : ∀ c ∈ e, isWhitespace c = true := by
    rcases he with rfl | rfl
    · simp
    · intro c hc
      rw [mem_singleton.mp hc]
      decide
  have hlf : ∀ l ∈ a :: ls ++ [b], '\n' ∉ l := by
    intro l hl
    rcases mem_append.mp hl with hl | hl
    · rcases mem_cons.mp hl with rfl | hl
      · exact ha'
      · exact hls l hl
    · rw [mem_singleton.mp hl]
      exact hb'
  rw [← append_assoc, trim_append_whitespace _ hwhite, ← join_concat, lines_trim_join ha hb hlf]

structure PatchShape (patch a : Text) (ls : List Text) (b e : Text) : Prop where
  text : patch = ofLines (a :: ls) ++ (b ++ e)
  ended : e = [] ∨ e = ['\n']
  first : '\n' ∉ a ∧ a.trim = beginPatchMarker
  inner : ∀ l ∈ ls, '\n' ∉ l
  last : '\n' ∉ b ∧ b.trim = endPatchMarker

namespace PatchShape

variable {patch a : Text} {ls : List Text} {b e : Text}

variable (h : PatchShape patch a ls b e)

include h in
theorem last_ne_nil : b ≠ [] := by
  rintro rfl
  exact absurd h.last.2 (by decide)

include h in
theorem streamPatch_eq {deltas : List Text} (hdeltas : deltas.flatten = patch) :
    streamPatch deltas =
      (processLines 1 (ls.map stripCr) { mode := .startedPatch } >>= closing (ls.length + 1) b e) := by
  have hfst : processLine 1 a.stripCr {} = .ok { mode := .startedPatch } := by
    simp [processLine, h.first.2]
  have hbegin : ∀ ms, processLines 0 (a.stripCr :: ms) {} = processLines 1 ms { mode := .startedPatch } := by
    intro ms
    rw [processLines, hfst]
    rfl
  have hlf : ∀ l ∈ a :: ls, '\n' ∉ l := by
    intro l hl
    rcases mem_cons.mp hl with rfl | hl
    · exact h.first.1
    · exact h.inner l hl
  rcases h.ended with rfl | rfl
  · have htext : deltas.flatten = ofLines (a :: ls) ++ b := by rw [hdeltas, h.text, append_nil]
    rw [ApplyPatch.streamPatch_eq hlf h.last.1 htext, map_cons, hbegin]
    rfl
  · have hlf' : ∀ l ∈ a :: ls ++ [b], '\n' ∉ l := by
      intro l hl
      rcases mem_append.mp hl with hl | hl
      · exact hlf l hl
      · rw [mem_singleton.mp hl]
        exact h.last.1
    have htext : deltas.flatten = ofLines (a :: ls ++ [b]) ++ [] := by
      rw [hdeltas, h.text, ofLines_append]
      simp [ofLines]
    rw [ApplyPatch.streamPatch_eq hlf' (by simp) htext, map_append, map_cons, cons_append, hbegin,
      processLines_append, length_map, Nat.add_comm 1 ls.length]
    cases processLines 1 (ls.map stripCr) { mode := .startedPatch } with
    | error err => rfl
    | ok s =>
        have hlen : (a :: ls ++ [b]).length = ls.length + 1 + 1 := by simp
        change (processLines (ls.length + 1) [b.stripCr] s >>= finishState (a :: ls ++ [b]).length []) =
          closing (ls.length + 1) b ['\n'] s
        rw [closing, if_neg (by simp), hlen, processLines]
        cases processLine (ls.length + 1 + 1) b.stripCr s with
        | error err => rfl
        | ok s' => rfl

include h in
theorem lines_eq :
    ∃ b', Text.lines patch = a.stripCr :: ls.map Text.stripCr ++ [b'] ∧ (b'.head? = some '*' ↔ b.head? = some '*') := by
  have hlf : ∀ l ∈ a :: ls, '\n' ∉ l := by
    intro l hl
    rcases mem_cons.mp hl with rfl | hl
    · exact h.first.1
    · exact h.inner l hl
  rcases h.ended with rfl | rfl
  · refine ⟨b, ?_, Iff.rfl⟩
    rw [h.text, append_nil, lines_ofLines_append hlf h.last.1, lastLine, if_neg h.last_ne_nil]
    rfl
  · refine ⟨b.stripCr, ?_, head?_stripCr b (by decide)⟩
    have hlf' : ∀ l ∈ a :: ls ++ [b], '\n' ∉ l := by
      intro l hl
      rcases mem_append.mp hl with hl | hl
      · exact hlf l hl
      · rw [mem_singleton.mp hl]
        exact h.last.1
    have htext : patch = ofLines (a :: ls ++ [b]) ++ [] := by
      rw [h.text, ofLines_append]
      simp [ofLines]
    rw [htext, lines_ofLines_append hlf' (by simp)]
    simp [lastLine]

include h in
theorem patchHunkLines_eq : patchHunkLines patch = ls.map stripCr := by
  obtain ⟨b', hlns, -⟩ := h.lines_eq
  rw [patchHunkLines, hlns, cons_append, tail_cons, dropLast_concat]

include h in
theorem getLast?_eq : patch.getLast? = some '\n' ↔ e ≠ [] := by
  rcases h.ended with rfl | rfl
  · rw [h.text, append_nil, getLast?_append_of_ne_nil _ h.last_ne_nil]
    constructor
    · intro hlast
      exact absurd (mem_of_getLast? hlast) h.last.1
    · intro hne
      exact absurd rfl hne
  · rw [h.text, ← append_assoc, getLast?_concat]
    simp

include h in
theorem trim_lines :
    Text.lines patch.trim = a.trimStart.stripCr :: ls.map Text.stripCr ++ [b.trimEnd] := by
  have hbegin : a.trim ≠ [] := by rw [h.first.2]; decide
  have hend : b.trim ≠ [] := by rw [h.last.2]; decide
  rw [h.text]
  exact lines_trim_ofLines h.ended hbegin hend h.first.1 h.inner h.last.1

include h in
theorem parsePatch_eq :
    parsePatch patch = (do
      let (environmentId, remainingLines, lineNumber) ← parseEnvironmentIdPreamble (ls.map stripCr)
      let hunks ← parseHunks 0 remainingLines lineNumber
      return {
        patch := join ['\n'] (a.trimStart.stripCr :: ls.map stripCr ++ [b.trimEnd])
        hunks, workdir := none, environmentId }) := by
  have hstrict : checkPatchBoundariesStrict (lines patch.trim) =
      .ok (Text.lines patch.trim, ls.map Text.stripCr) := by
    refine checkPatchBoundariesStrict_eq_ok.mpr ⟨rfl, _, _, h.trim_lines, ?_, ?_⟩
    · simpa using h.first.2
    · simpa using h.last.2
  have hlenient : checkPatchBoundariesLenient (lines patch.trim) =
      .ok (lines patch.trim, ls.map stripCr) := by
    unfold checkPatchBoundariesLenient
    rw [hstrict]
  rw [parsePatch, hlenient, h.trim_lines]
  rfl

end PatchShape

variable {w : Text} {rl : List Text} {environmentId : Option Text}

theorem lines_length_of_not_mem (hw : '\n' ∉ w) : (Text.lines w).length ≤ 1 := by
  have hlns : Text.lines (Text.ofLines [] ++ w) = [].map Text.stripCr ++ Text.lastLine w :=
    Text.lines_ofLines_append (by simp) hw
  rw [show ofLines [] ++ w = w from rfl] at hlns
  rw [hlns, lastLine]
  split <;> simp

theorem not_mem_trim {c : Char} (hw : c ∉ w) : c ∉ w.trim := fun hc =>
  hw ((dropWhile_suffix _).subset ((trimEnd_isPrefix _).subset hc))

theorem exists_last_line {patch : Text} (hne : patch ≠ []) :
    ∃ qs b e, patch = ofLines qs ++ (b ++ e) ∧ (e = [] ∨ e = ['\n']) ∧ (∀ l ∈ qs, '\n' ∉ l) ∧ '\n' ∉ b ∧
      ∃ b', Text.lines patch = qs.map Text.stripCr ++ [b'] ∧ b'.trim = b.trim := by
  obtain ⟨ps, c, rfl, hps, hc⟩ := exists_ofLines patch
  by_cases hnil : c = []
  · subst hnil
    rcases eq_nil_or_concat' ps with rfl | ⟨qs, b, rfl⟩
    · exact absurd rfl hne
    · refine ⟨qs, b, ['\n'], ?_, .inr rfl, fun l hl => hps l (by simp [hl]), hps b (by simp), b.stripCr, ?_, by simp⟩
      · rw [ofLines_append]
        simp [ofLines]
      · rw [lines_ofLines_append hps hc, map_append]
        simp [lastLine]
  · refine ⟨ps, c, [], by simp, .inl rfl, hps, hc, c, ?_, rfl⟩
    rw [lines_ofLines_append hps hc, lastLine, if_neg hnil]

theorem exists_patchShape {patch : Text} {args : ApplyPatchArgs} (h : parsePatch patch = .ok args)
    (hheredoc : ∀ first, (Text.lines patch.trim).head? = some first → isHeredocStart first = false)
    (hbl : NoBlankEnds patch) : ∃ a ls b e, PatchShape patch a ls b e := by
  obtain ⟨⟨pl, hl⟩, hlenient, -⟩ := except_bind_eq_ok.mp h
  have hstrict : checkPatchBoundariesStrict (lines patch.trim) = .ok (pl, hl) := by
    unfold checkPatchBoundariesLenient at hlenient
    split at hlenient
    · rename_i hok
      rw [hok, hlenient]
    · split at hlenient
      · rename_i first last hfst hlast
        rw [if_neg (by simp [hheredoc first hfst])] at hlenient
        cases hlenient
      · cases hlenient
  obtain ⟨-, a', b', hlns, hbegin, hend⟩ := checkPatchBoundariesStrict_eq_ok.mp hstrict
  have hne : patch ≠ [] := by
    rintro rfl
    rw [show Text.lines (Text.trim []) = [] from rfl] at hlns
    cases hlns
  obtain ⟨qs, b, e, htext, he, hqs, hb, b₁, hlns₁, hb₁⟩ := exists_last_line hne
  have hlast : b.trim ≠ [] := by
    rw [← hb₁]
    exact hbl.2 b₁ (by rw [hlns₁, getLast?_concat])
  cases qs with
  | nil =>
      -- One line cannot be the first and the last line of a patch.
      have hsingle : (Text.lines patch.trim).length ≤ 1 := by
        apply lines_length_of_not_mem
        have hwhite : ∀ c ∈ e, isWhitespace c = true := by
          rcases he with rfl | rfl
          · simp
          · intro c hc
            rw [mem_singleton.mp hc]
            decide
        rw [htext, show ofLines [] ++ (b ++ e) = b ++ e from rfl, trim_append_whitespace _ hwhite]
        exact not_mem_trim hb
      rw [hlns] at hsingle
      simp at hsingle
  | cons a ls =>
      have hfst : a.trim ≠ [] := by
        rw [← trim_stripCr]
        exact hbl.1 a.stripCr (by rw [hlns₁]; rfl)
      have ha := hqs a mem_cons_self
      have hls : ∀ l ∈ ls, '\n' ∉ l := fun l hl => hqs l (mem_cons_of_mem _ hl)
      have htrim := lines_trim_ofLines he hfst hlast ha hls hb
      rw [← htext, hlns] at htrim
      obtain ⟨hhead, htail⟩ := cons.inj htrim
      have hconcat := append_inj_right' htail (by simp)
      refine ⟨a, ls, b, e, ⟨htext, he, ⟨ha, ?_⟩, hls, ⟨hb, ?_⟩⟩⟩
      · rw [hhead] at hbegin
        simpa using hbegin
      · rw [singleton_inj.mp hconcat] at hend
        simpa using hend

/-! ## The line that names an environment -/

theorem parseEnvironmentIdPreamble_cases {ls : List Text} {n : Nat}
    (h : parseEnvironmentIdPreamble ls = .ok (environmentId, rl, n)) :
    rl = ls ∧ (∀ l, ls.head? = some l → isEnvironmentLine l = false) ∨
      ∃ l, ls = l :: rl ∧ isEnvironmentLine l = true := by
  cases ls with
  | nil =>
      cases h
      exact .inl ⟨rfl, fun l hl => by cases hl⟩
  | cons l rest =>
      simp only [parseEnvironmentIdPreamble] at h
      split at h
      · rename_i hid
        cases h
        refine .inl ⟨rfl, ?_⟩
        intro l' hl'
        cases hl'
        simpa [isEnvironmentLine] using stripPrefix?_eq_none.mp hid
      · rename_i id hid
        split at h
        · cases h
        · cases h
          refine .inr ⟨l, rfl, ?_⟩
          simp only [isEnvironmentLine, decide_eq_true_eq]
          exact ⟨id, (stripPrefix?_eq_some.mp hid).symm⟩

theorem patchBody_eq {patch : Text} {n : Nat}
    (h : parseEnvironmentIdPreamble (patchHunkLines patch) = .ok (environmentId, rl, n)) : patchBody patch = rl := by
  rw [patchBody]
  rcases parseEnvironmentIdPreamble_cases h with ⟨rfl, hno⟩ | ⟨l, hl, henv⟩
  · cases hl : patchHunkLines patch with
    | nil => rfl
    | cons l rest => simp [hno l (by rw [hl]; rfl)]
  · rw [hl]
    simp [henv]

/-- The streaming parser refuses a line that names an environment after some space. -/
theorem processLine_environment {n : Nat} {l : Text} (henv : isEnvironmentLine l = true) :
    if environmentIdMarker <+: l then processLine n l { mode := .startedPatch } = .ok { mode := .startedPatch }
    else ∃ e, processLine n l { mode := .startedPatch } = .error e := by
  split
  · rename_i hpre
    simp [processLine, isEnvironmentIdPreambleLine, hpre]
  · rename_i hpre
    have hmk : environmentIdMarker <+: l.trimStart := by simpa [isEnvironmentLine] using henv
    have htrim : l.trim <+: l.trimStart := trimEnd_isPrefix l.trimStart
    have hnone : ∀ p : Text, 5 ≤ p.length → p.take 5 ≠ environmentIdMarker.take 5 →
        stripPrefix? p l.trim = none := by
      intro p hlen hne
      rw [stripPrefix?_eq_none]
      intro hp
      exact not_prefix_of_take 5 hlen (by decide) hne (hp.trans htrim) hmk
    have hend : l.trim ≠ endPatchMarker := by
      intro hend
      rw [hend] at htrim
      exact not_prefix_of_take 7 (by decide) (by decide) (by decide) htrim hmk
    have hhdl : handleHunkHeadersAndEndPatch n l.trim { mode := .startedPatch } = .ok none := by
      simp only [handleHunkHeadersAndEndPatch, if_neg hend, hnone addFileMarker (by decide) (by decide),
        hnone deleteFileMarker (by decide) (by decide), hnone updateFileMarker (by decide) (by decide)]
    simp only [processLine, isEnvironmentIdPreambleLine, hpre, decide_false, Bool.false_eq_true, if_false, hhdl,
      handledOr]
    exact ⟨_, rfl⟩

/-! ## The two parsers on one patch -/

section

variable {patch a : Text} {ls : List Text} {b e : Text} {args : ApplyPatchArgs} {deltas : List Text}

theorem PatchShape.readings (hshp : PatchShape patch a ls b e) (h : parsePatch patch = .ok args) :
    ∃ environmentId n r, parseEnvironmentIdPreamble (patchHunkLines patch) = .ok (environmentId, patchBody patch, n) ∧
      Reads ⟨[], .closed⟩ (patchBody patch) r ∧ r.hunks = args.hunks ∧ r.hunk.complete = true := by
  rw [hshp.parsePatch_eq] at h
  obtain ⟨⟨environmentId, rl, n⟩, henv, h⟩ := except_bind_eq_ok.mp h
  obtain ⟨hunks, hhs, h⟩ := except_bind_eq_ok.mp h
  cases h
  rw [← hshp.patchHunkLines_eq] at henv
  have hbody := patchBody_eq henv
  have hcls : Reading.AtHunk ⟨[], .closed⟩ [] (rl.drop 0) := ⟨rfl, rfl, fun _ _ => rfl⟩
  obtain ⟨r, hrds, hread, hcomplete⟩ := parseHunks_reads hhs hcls
  rw [drop_zero, ← hbody] at hrds
  exact ⟨environmentId, n, r, by rw [hbody]; exact henv, hrds, by simpa using hread, hcomplete⟩

theorem follows_start : Follows ⟨[], .closed⟩ { mode := .startedPatch } := ⟨.inl ⟨rfl, rfl⟩, rfl, trivial⟩

theorem PatchShape.streamPatch_body (hshp : PatchShape patch a ls b e) (hdeltas : deltas.flatten = patch) {n : Nat}
    (henv : parseEnvironmentIdPreamble (patchHunkLines patch) = .ok (environmentId, patchBody patch, n)) :
    (∃ err, streamPatch deltas = .error err) ∧
        (∃ l, (patchHunkLines patch).head? = some l ∧ isEnvironmentLine l = true ∧ ¬ environmentIdMarker <+: l) ∨
      (∃ m, streamPatch deltas =
          (processLines m (patchBody patch) { mode := .startedPatch } >>= closing (ls.length + 1) b e)) ∧
        ∀ l, (patchHunkLines patch).head? = some l → isEnvironmentLine l = true → environmentIdMarker <+: l := by
  have hstr := hshp.streamPatch_eq hdeltas
  rw [← hshp.patchHunkLines_eq] at hstr
  rcases parseEnvironmentIdPreamble_cases henv with ⟨hbody, hno⟩ | ⟨l, hl, henvironment⟩
  · refine .inr ⟨⟨1, by rw [hbody]; exact hstr⟩, ?_⟩
    intro l hl henvironment
    rw [hno l hl] at henvironment
    cases henvironment
  · rw [hl, processLines] at hstr
    have hline := processLine_environment (n := 1 + 1) henvironment
    split at hline
    · rename_i hpre
      rw [hline] at hstr
      refine .inr ⟨⟨1 + 1, hstr⟩, ?_⟩
      intro l' hl' _
      rw [hl] at hl'
      cases hl'
      exact hpre
    · rename_i hpre
      obtain ⟨err, hline⟩ := hline
      rw [hline] at hstr
      exact .inl ⟨⟨err, hstr⟩, l, by rw [hl]; rfl, henvironment, hpre⟩

theorem PatchShape.streamPatch_of_alike (hshp : PatchShape patch a ls b e) (h : parsePatch patch = .ok args)
    (hdeltas : deltas.flatten = patch) (halike : StreamsAlike patch) : streamPatch deltas = .ok args.hunks := by
  obtain ⟨environmentId, n, r, henv, hrds, hhs, hcomplete⟩ := hshp.readings h
  rcases hshp.streamPatch_body hdeltas henv with ⟨-, l, hl, henvironment, hpre⟩ | ⟨⟨m, hstr⟩, -⟩
  · exact absurd (halike.environment l hl henvironment) hpre
  · obtain ⟨s, hlns, hfol⟩ := follows_reads (n := m) follows_start hrds halike.body
    rw [hstr, hlns, ← hhs]
    refine closing_of_follows hfol hcomplete hshp.last.2 ?_
    by_cases he : e = []
    · exact .inl he
    · by_cases hpl : r.hunk.place = .hunk
      · exact .inr (.inl hpl)
      · rw [hrds.place] at hpl
        obtain ⟨b', hb', hhead⟩ := hshp.lines_eq
        have hlast : patch.lines.getLast? = some b' := by rw [hb', getLast?_concat]
        exact .inr (.inr (hhead.mp (halike.last hpl (hshp.getLast?_eq.mpr he) b' hlast)))

/-- For every accepted patch the streaming parser returns the same hunks, in whatever pieces the text arrives, exactly
when it reads every line alike. -/
theorem streaming_agrees_iff_streamsAlike (h : parsePatch patch = .ok args)
    (hheredoc : ∀ first, (Text.lines patch.trim).head? = some first → isHeredocStart first = false)
    (hblank : NoBlankEnds patch) (hdeltas : deltas.flatten = patch) :
    streamPatch deltas = .ok args.hunks ↔ StreamsAlike patch := by
  obtain ⟨a, ls, b, e, hshp⟩ := exists_patchShape h hheredoc hblank
  constructor
  · intro hsame
    obtain ⟨environmentId, n, r, henv, hrds, hhs, -⟩ := hshp.readings h
    rcases hshp.streamPatch_body hdeltas henv with ⟨⟨err, herr⟩, -⟩ | ⟨⟨m, hstr⟩, henvironment⟩
    · rw [herr] at hsame
      cases hsame
    · rw [hstr] at hsame
      obtain ⟨s, hlns, hclosing⟩ := except_bind_eq_ok.mp hsame
      have hgr := outgrows_reads (n := m) follows_start.fits hrds hlns
      obtain ⟨hs, hlast⟩ := closing_eq_ok hgr.fits hshp.last.2 hclosing
      refine ⟨henvironment, ?_, ?_⟩
      · -- Were a line read apart, the hunks would not be the same.
        by_contra hap
        have hlt := hgr.lt hap
        rw [hhs, hs] at hlt
        simp [Reading.hunks, OpenHunk.hunks] at hlt
      · intro hpl hend line hline
        obtain ⟨b', hb', hhead⟩ := hshp.lines_eq
        rw [hb', getLast?_concat] at hline
        cases hline
        rw [hrds.place] at hlast
        exact hhead.mpr ((hlast.resolve_left (hshp.getLast?_eq.mp hend)).resolve_left hpl)
  · exact hshp.streamPatch_of_alike h hdeltas

end

/-! ## A patch that is read alike and a patch that is not -/

/-- The environment is named, a header is indented, a marker ends in a space, and the first chunk has no context. -/
def sampleLenientPatch : Text :=
  (" *** Begin Patch\n*** Environment ID: e\n *** Delete File: c\n*** Update File: a \n x\n-y\n" ++
    "*** End Patch\n").toList

def sampleLenientHunks : List Hunk :=
  [.deleteFile "c",
   .updateFile "a" none
    [{ changeContext := none, oldLines := ["x", "y"], newLines := ["x"], isEndOfFile := false }]]

theorem streaming_agrees_for_sampleLenientPatch :
    streamPatch (sampleLenientPatch.map fun c => [c]) = .ok sampleLenientHunks := by
  have hpatch : ∃ args, parsePatch sampleLenientPatch = .ok args ∧ args.hunks = sampleLenientHunks :=
    ⟨⟨sampleLenientPatch.trim, sampleLenientHunks, none, some "e"⟩, by decide +kernel, rfl⟩
  obtain ⟨args, hargs, hhs⟩ := hpatch
  rw [← hhs]
  have hlns : Text.lines sampleLenientPatch = [" *** Begin Patch", "*** Environment ID: e",
      " *** Delete File: c", "*** Update File: a ", " x", "-y", "*** End Patch"] := by
    decide +kernel
  have hfst : (Text.lines sampleLenientPatch.trim).head? = some "*** Begin Patch".toList := by decide +kernel
  have hdeltas : (sampleLenientPatch.map fun c => [c]).flatten = sampleLenientPatch := by
    rw [← flatMap_def, flatMap_singleton']
  refine (streaming_agrees_iff_streamsAlike hargs ?_ ⟨?_, ?_⟩ hdeltas).mpr ⟨?_, by decide +kernel, ?_⟩
  · intro first h
    rw [hfst] at h
    cases h
    decide
  · intro line h
    rw [hlns] at h
    cases h
    decide
  · intro line h
    rw [hlns] at h
    cases h
    decide
  · intro line h _
    rw [patchHunkLines, hlns] at h
    cases h
    decide
  · intro _ _ line h
    rw [hlns] at h
    cases h
    decide

def sampleBlankLinePatch : Text :=
  "*** Begin Patch\n*** Update File: a\n\n@@\n-x\n+y\n*** End Patch\n"

/-- The parser passes over the blank line, and the streaming parser makes a chunk of it. -/
theorem blank_line_is_streamed_as_a_chunk : (parsePatch sampleBlankLinePatch).map (·.hunks) = .ok
        [.updateFile "a".toList none
          [{ changeContext := none, oldLines := ["x".toList], newLines := ["y".toList], isEndOfFile := false }]] ∧
      (Text.lines sampleBlankLinePatch).head? = some "*** Begin Patch".toList ∧
      (Text.lines sampleBlankLinePatch).getLast? = some "*** End Patch".toList ∧
      streamPatch [sampleBlankLinePatch] = .ok [.updateFile "a".toList none
          [{ changeContext := none, oldLines := [[]], newLines := [[]], isEndOfFile := false },
           { changeContext := none, oldLines := ["x".toList], newLines := ["y".toList], isEndOfFile := false }]] := by
  refine ⟨by decide +kernel, by decide +kernel, by decide +kernel, by decide +kernel⟩

end CodexStudy.ApplyPatch
