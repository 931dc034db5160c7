import CodexStudy.ApplyPatch.Lemmas.Lockstep

/-!
# Reading alike and reading apart
-/

namespace CodexStudy.ApplyPatch

open CodexStudy.Lib Reading List Text

variable {n : Nat} {line : Text} {s s' : StreamingParserState}

/-! ## Places -/

def OpenHunk.place : OpenHunk → Place
  | closed | added .. => .hunk
  | header _ => .header
  | first .. | next .. => .chunk
  | opened .. | lines .. => .lines

variable {r r' : Reading} {done pre : List Hunk} {chunks : List UpdateFileChunk} {movePath : Option Text}
    {path : Text} {ls : List Text} {k : Nat}

theorem place_readHeader (h : readHeader done line = some r) : r.hunk.place = Place.afterHeader line := by
  have hdisjoint : ∀ p q : Text, 5 ≤ p.length → 5 ≤ q.length → p.take 5 ≠ q.take 5 → p <+: line.trim →
      ¬ q <+: line.trim := fun p q hp hq hne => not_prefix_of_take 5 hp hq hne
  unfold readHeader at h
  unfold Place.afterHeader
  cases hadd : stripPrefix? addFileMarker line.trim with
  | some path =>
      rw [hadd] at h
      cases h
      have hpre : addFileMarker <+: line.trim := ⟨path, (stripPrefix?_eq_some.mp hadd).symm⟩
      rw [if_neg (hdisjoint _ _ (by decide) (by decide) (by decide) hpre)]
      rfl
  | none =>
      rw [hadd] at h
      cases hdel : stripPrefix? deleteFileMarker line.trim with
      | some path =>
          rw [hdel] at h
          cases h
          have hpre : deleteFileMarker <+: line.trim := ⟨path, (stripPrefix?_eq_some.mp hdel).symm⟩
          rw [if_neg (hdisjoint _ _ (by decide) (by decide) (by decide) hpre)]
          rfl
      | none =>
          rw [hdel] at h
          cases hupd : stripPrefix? updateFileMarker line.trim with
          | some path =>
              rw [hupd] at h
              cases h
              have hpre : updateFileMarker <+: line.trim := ⟨path, (stripPrefix?_eq_some.mp hupd).symm⟩
              rw [if_pos hpre]
              rfl
          | none => rw [hupd] at h; cases h

theorem place_readChunkStart (h : readChunkStart done path movePath chunks line = some r) :
    r.hunk.place = Place.afterChunkStart line := by
  unfold readChunkStart at h
  unfold Place.afterChunkStart
  split at h
  · cases h
    rename_i hbl
    rw [if_pos hbl, betweenChunks]
    split <;> rfl
  · rename_i hbl
    rw [if_neg hbl]
    split at h
    · rename_i hstar
      rw [if_pos hstar]
      split at h
      · cases h
      · exact place_readHeader h
    · rename_i hstar
      rw [if_neg hstar]
      split at h
      · cases h; rfl
      · split at h
        · obtain ⟨change, -, rfl⟩ := Option.map_eq_some_iff.mp h
          rfl
        · cases h

theorem place_step (h : r.step line = some r') : r'.hunk.place = r.hunk.place.next line := by
  obtain ⟨done, hunk⟩ := r
  cases hunk with
  | closed => exact place_readHeader h
  | added path contents =>
      simp only [step] at h
      split at h
      · rename_i cs hcs
        cases h
        have hline := stripPrefix?_eq_some.mp hcs
        change Place.hunk = Place.afterHeader line
        rw [Place.afterHeader, if_neg]
        rw [hline, trim_eq_trimEnd (c := '+') rfl (by decide)]
        exact not_prefix_of_head? (c := '*') rfl fun hhead => by
          have := head?_trimEnd hhead
          cases this
      · exact place_readHeader h
  | header path =>
      simp only [step] at h
      split at h
      · rename_i movePath hmove
        cases h
        change Place.chunk = ite _ _ _
        rw [if_pos ⟨movePath, (stripPrefix?_eq_some.mp hmove).symm⟩]
      · rename_i hmove
        change _ = ite _ _ _
        rw [if_neg (stripPrefix?_eq_none.mp hmove)]
        exact place_readChunkStart h
  | first path movePath => exact place_readChunkStart h
  | opened path movePath chunks context =>
      obtain ⟨change, hchg, rfl⟩ := Option.map_eq_some_iff.mp h
      have heof : line ≠ eofMarker := by
        rintro rfl
        rw [readChunkLine_eofMarker] at hchg
        cases hchg
      change Place.lines = ite _ _ _
      rw [if_neg heof, if_pos (readChunkLine_head? hchg).1]
  | lines path movePath chunks chunk =>
      simp only [step] at h
      change _ = ite _ _ _
      split at h
      · rename_i heof
        cases h
        rw [if_pos heof]
        rfl
      · rename_i heof
        rw [if_neg heof]
        split at h
        · rename_i change hchg
          cases h
          rw [if_pos (readChunkLine_head? hchg).1]
          rfl
        · rename_i hchg
          rw [if_neg (by rw [isChunkLine_of_readChunkLine hchg]; simp)]
          exact place_readChunkStart h
  | next path movePath chunks => exact place_readChunkStart h

theorem Reading.Reads.place (h : Reads r ls r') : r'.hunk.place = r.hunk.place.after ls := by
  induction ls generalizing r with
  | nil => cases h; rfl
  | cons l ls ih =>
      obtain ⟨r₁, hstep, hrds⟩ := reads_cons.mp h
      rw [ih hrds, place_step hstep]
      rfl

/-! ## Lines that are read alike -/

def OpenHunk.Filled : OpenHunk → Prop
  | lines _ _ _ chunk => chunk.isEmpty = false
  | next _ _ chunks => chunks ≠ [] ∧ lastChunkIsEmpty chunks = false
  | _ => True

structure Follows (r : Reading) (s : StreamingParserState) : Prop where
  fits : Fits r.hunk s
  hunks : s.hunks = r.hunks
  filled : r.hunk.Filled

theorem ensure_of_chunks (t : Text) (hhs : s.hunks = pre ++ [.updateFile path movePath chunks]) (hne : chunks ≠ [])
    (hcks : lastChunkIsEmpty chunks = false) : ensureUpdateHunkIsNotEmpty n t s = .ok () := by
  obtain ⟨chunk, chunks, rfl⟩ := exists_cons_of_ne_nil hne
  simp [ensureUpdateHunkIsNotEmpty, hhs, hcks]

theorem filled_readHeader (h : readHeader done line = some r) : r.hunk.Filled := by
  unfold readHeader at h
  split at h
  · cases h; trivial
  · split at h
    · cases h; trivial
    · obtain ⟨path, -, rfl⟩ := Option.map_eq_some_iff.mp h
      trivial

theorem follows_readHeader (h : readHeader s.hunks line = some r)
    (hensure : ensureUpdateHunkIsNotEmpty n line.trim s = .ok ()) :
    ∃ s', (∀ other, handledOr (handleHunkHeadersAndEndPatch n line.trim s) other = .ok s') ∧ Follows r s' := by
  obtain ⟨hunk, mode, hhdl, hhs, -, hfits⟩ := handle_of_readHeader h n s
  refine ⟨_, fun other => ?_, ⟨hfits, hhs.symm, filled_readHeader h⟩⟩
  rw [hhdl, hensure]
  rfl

theorem lastChunkIsEmpty_concat (chunks : List UpdateFileChunk) (chunk : UpdateFileChunk) :
    lastChunkIsEmpty (chunks ++ [chunk]) = chunk.isEmpty := by
  simp [lastChunkIsEmpty]

theorem follows_readChunkStart (h : readChunkStart done path movePath chunks line = some r)
    (hmode : s.mode = .updateFile k) (hhs : s.hunks = done ++ [.updateFile path movePath chunks])
    (hcks : lastChunkIsEmpty chunks = false)
    (hap : ¬ (line.trim = [] ∨ changeContextMarker <+: line ∧ line.trimEnd ≠ line)) :
    ∃ s', processLine n line s = .ok s' ∧ Follows r s' := by
  have hbl : line.trim ≠ [] := fun h => hap (.inl h)
  unfold readChunkStart at h
  rw [if_neg hbl] at h
  split at h
  · rename_i hstar
    split at h
    · cases h
    · rename_i hne
      rw [← hhs] at h
      obtain ⟨s', hs', hfol⟩ := follows_readHeader (n := n) h (ensure_of_chunks _ hhs hne hcks)
      refine ⟨s', ?_, hfol⟩
      rw [trim_eq_trimEnd hstar (by decide)] at hs'
      simp only [processLine, hmode, hs']
  · rename_i hstar
    have hhdl : handleHunkHeadersAndEndPatch n line.trimEnd s = .ok none :=
      handle_of_head? fun h => hstar (head?_trimEnd h)
    rw [processLine_update hmode hhs hhdl]
    split at h
    · rename_i context hctx
      cases h
      obtain ⟨context', hread, heq, hle, hlt⟩ := readContext_trimEnd hctx
      have hctx' : context' = context := by
        by_cases hpre : changeContextMarker <+: line
        · exact heq (by by_contra hne; exact hap (.inr ⟨hpre, hne⟩))
        · unfold readContext at hctx
          split at hctx
          · rename_i hline
            exact heq (by rw [hline]; decide)
          · rw [stripPrefix?_eq_none.mpr hpre] at hctx
            cases hctx
      rw [processUpdateLine_of_readContext hread, hcks, hctx']
      exact ⟨_, rfl, ⟨⟨⟨k, hmode⟩, _, _, _, _, rfl⟩, rfl, trivial⟩⟩
    · split at h
      · rename_i hnil
        subst hnil
        obtain ⟨change, hchg, rfl⟩ := Option.map_eq_some_iff.mp h
        obtain ⟨w, -, hw⟩ := readChunkLine_excess hchg
        rw [processUpdateLine_of_readChunkLine hchg, pushLine_nil]
        exact ⟨_, rfl, ⟨⟨⟨k, hmode⟩, _, _, _, _, rfl⟩, rfl, (hw _).2⟩⟩
      · cases h

theorem processLine_of_handled (hmode : s.mode = .startedPatch ∧ isEnvironmentIdPreambleLine line = false ∨
      s.mode = .addFile ∨ s.mode = .deleteFile)
    (hs : ∀ other, handledOr (handleHunkHeadersAndEndPatch n line.trim s) other = .ok s') :
    processLine n line s = .ok s' := by
  rcases hmode with ⟨hmode, henv⟩ | hmode | hmode
  · simp only [processLine, hmode, henv, Bool.false_eq_true, if_false, hs]
  · simp only [processLine, hmode, hs]
  · simp only [processLine, hmode, hs]

theorem follows_readChunkLine {chunk : UpdateFileChunk} {change : UpdateFileChunk → UpdateFileChunk}
    (hchg : readChunkLine line = some change) (hmode : s.mode = .updateFile k)
    (hhs : s.hunks = done ++ [.updateFile path movePath (chunks ++ [chunk])]) :
    ∃ s', processLine n line s = .ok s' ∧ Follows ⟨done, .lines path movePath chunks (change chunk)⟩ s' := by
  obtain ⟨w, -, hw⟩ := readChunkLine_excess hchg
  have hhdl : handleHunkHeadersAndEndPatch n line.trimEnd s = .ok none :=
    handle_of_head? fun h => (readChunkLine_head? hchg).2.1 (head?_trimEnd h)
  rw [processLine_update hmode hhs hhdl, processUpdateLine_of_readChunkLine hchg, pushLine_concat]
  exact ⟨_, rfl, ⟨⟨⟨k, hmode⟩, _, _, _, _, rfl⟩, rfl, (hw _).2⟩⟩

theorem head?_trim_added {cs : Text} (h : stripPrefix? "+" line = some cs) : line.trim.head? ≠ some '*' := by
  rw [stripPrefix?_eq_some.mp h, trim_eq_trimEnd (c := '+') rfl (by decide)]
  intro hhead
  cases head?_trimEnd hhead

theorem follows_step (hfol : Follows r s) (h : r.step line = some r')
    (hap : ¬ r.hunk.place.apart line) : ∃ s', processLine n line s = .ok s' ∧ Follows r' s' := by
  obtain ⟨done, hunk⟩ := r
  obtain ⟨hfits, hhs, hfilled⟩ := hfol
  cases hunk with
  | closed =>
      rw [hunks, OpenHunk.hunks, append_nil] at hhs
      change readHeader done line = some r' at h
      obtain rfl : s.hunks = done := hhs
      have hensure : ensureUpdateHunkIsNotEmpty n line.trim s = .ok () := by
        rcases hfits with ⟨-, hnil⟩ | ⟨-, pre, path, hpre⟩
        · simp [ensureUpdateHunkIsNotEmpty, hnil]
        · simp [ensureUpdateHunkIsNotEmpty, hpre]
      obtain ⟨s', hs', hfol⟩ := follows_readHeader h hensure
      refine ⟨s', processLine_of_handled ?_ hs', hfol⟩
      rcases hfits with ⟨hmode, -⟩ | ⟨hmode, -⟩
      · exact .inl ⟨hmode, isEnvironmentIdPreambleLine_of_readHeader h⟩
      · exact .inr (.inr hmode)
  | added path contents =>
      obtain ⟨hmode, -⟩ := hfits
      have hhs' : s.hunks = done ++ [.addFile path contents] := hhs
      simp only [step] at h
      split at h
      · rename_i cs hcs
        cases h
        simp only [processLine, hmode, handle_of_head? (head?_trim_added hcs), handledOr, hcs, hhs', getLast?_concat,
          dropLast_concat]
        exact ⟨_, rfl, ⟨⟨rfl, _, _, _, rfl⟩, rfl, trivial⟩⟩
      · rw [← hhs'] at h
        have hensure : ensureUpdateHunkIsNotEmpty n line.trim s = .ok () := by
          simp [ensureUpdateHunkIsNotEmpty, hhs']
        obtain ⟨s', hs', hfol⟩ := follows_readHeader h hensure
        exact ⟨s', processLine_of_handled (.inr (.inl hmode)) hs', hfol⟩
  | header path =>
      obtain ⟨⟨k, hmode⟩, -⟩ := hfits
      have hhs' : s.hunks = done ++ [.updateFile path none []] := hhs
      simp only [step] at h
      split at h
      · rename_i movePath hmove
        cases h
        have hline := stripPrefix?_eq_some.mp hmove
        have htrim : line.trimEnd = line := by
          by_contra hne
          exact hap (.inr ⟨.inl ⟨movePath, hline.symm⟩, hne⟩)
        have hstem : moveToStem <+: line.trimEnd := by
          rw [htrim, hline]
          exact (show moveToStem <+: moveToMarker by decide).trans (prefix_append _ _)
        rw [processLine_update hmode hhs' (handle_moveTo hstem)]
        have hprocess : processUpdateLine n line none [] = .ok (some movePath, []) := by
          simp [processUpdateLine, htrim, hmove]
        rw [hprocess]
        exact ⟨_, rfl, ⟨⟨⟨k, hmode⟩, _, _, _, _, rfl⟩, rfl, trivial⟩⟩
      · refine follows_readChunkStart h hmode hhs' rfl fun hline => hap ?_
        rcases hline with hbl | ⟨hctx, hne⟩
        · exact .inl hbl
        · exact .inr ⟨.inr hctx, hne⟩
  | first path movePath =>
      obtain ⟨⟨k, hmode⟩, -⟩ := hfits
      exact follows_readChunkStart h hmode hhs rfl hap
  | opened path movePath chunks context =>
      obtain ⟨⟨k, hmode⟩, -⟩ := hfits
      obtain ⟨change, hchg, rfl⟩ := Option.map_eq_some_iff.mp h
      exact follows_readChunkLine hchg hmode hhs
  | lines path movePath chunks chunk =>
      obtain ⟨⟨k, hmode⟩, -⟩ := hfits
      have hemp : lastChunkIsEmpty (chunks ++ [chunk]) = false := by rw [lastChunkIsEmpty_concat]; exact hfilled
      simp only [step] at h
      split at h
      · rename_i heof
        subst heof
        cases h
        have htrim : eofMarker.trimEnd = eofMarker := by decide
        rw [processLine_update hmode hhs (by rw [htrim]; exact handle_eofMarker), processUpdateLine_eofMarker, hemp,
          modifyLast_concat]
        refine ⟨_, rfl, ⟨⟨⟨k, hmode⟩, _, _, _, _, rfl⟩, rfl, by simp, ?_⟩⟩
        rw [lastChunkIsEmpty_concat]
        exact hfilled
      · split at h
        · rename_i change hchg
          cases h
          exact follows_readChunkLine hchg hmode hhs
        · rename_i hchg
          exact follows_readChunkStart h hmode hhs hemp fun hline =>
            hap ⟨isChunkLine_of_readChunkLine hchg, hline⟩
  | next path movePath chunks =>
      obtain ⟨⟨k, hmode⟩, -⟩ := hfits
      exact follows_readChunkStart h hmode hhs hfilled.2 hap

theorem follows_reads (hfol : Follows r s) (h : Reads r ls r')
    (halike : r.hunk.place.ReadAlike ls) : ∃ s', processLines n ls s = .ok s' ∧ Follows r' s' := by
  induction ls generalizing n r s with
  | nil => cases h; exact ⟨s, rfl, hfol⟩
  | cons l ls ih =>
      obtain ⟨r₁, hstep, hrds⟩ := reads_cons.mp h
      obtain ⟨hap, hrest⟩ := halike
      obtain ⟨s₁, hline, hfol₁⟩ := follows_step (n := n + 1) hfol hstep hap
      rw [← place_step hstep] at hrest
      obtain ⟨s', hlns, hfol'⟩ := ih (n := n + 1) hfol₁ hrds hrest
      exact ⟨s', except_bind_eq_ok.mpr ⟨s₁, hline, hlns⟩, hfol'⟩

/-! ## Lines that are read apart -/

structure Outgrows (apart : Prop) (before : Int) (r : Reading) (start : Int) (s : StreamingParserState) : Prop where
  fits : Fits r.hunk s
  le : hunksExcess r.hunks - before ≤ hunksExcess s.hunks - start
  lt : apart → hunksExcess r.hunks - before < hunksExcess s.hunks - start

theorem outgrows_readHeader {apart : Prop} {t : Text} {other : Except ParseError StreamingParserState}
    (h : readHeader done line = some r) (ht : t = line.trim) (hap : ¬ apart)
    (hs : handledOr (handleHunkHeadersAndEndPatch n t s) other = .ok s') :
    Outgrows apart (hunksExcess done) r (hunksExcess s.hunks) s' := by
  obtain ⟨hunk, mode, hhdl, hhs, hexcess, hfits⟩ := handle_of_readHeader h n s
  rw [ht, hhdl] at hs
  cases hensure : ensureUpdateHunkIsNotEmpty n line.trim s with
  | error e => rw [hensure] at hs; cases hs
  | ok u =>
      rw [hensure] at hs
      cases hs
      refine ⟨hfits, ?_, fun h => absurd h hap⟩
      rw [hhs]
      simp only [hunksExcess_append, hunksExcess_singleton, hexcess]
      omega

variable {path₀ : Text} {movePath₀ : Option Text} {chunks₀ : List UpdateFileChunk}

theorem outgrows_readChunkStart
    (h : readChunkStart done path₀ movePath₀ chunks₀ line = some r) (hmode : s.mode = .updateFile k)
    (hhs : s.hunks = pre ++ [.updateFile path movePath chunks]) (hs : processLine n line s = .ok s') :
    Outgrows (line.trim = [] ∨ changeContextMarker <+: line ∧ line.trimEnd ≠ line)
      (hunksExcess (done ++ [.updateFile path₀ movePath₀ chunks₀])) r (hunksExcess s.hunks) s' := by
  unfold readChunkStart at h
  split at h
  · -- A blank line is passed over, but it is a line for the streaming parser if it is one at all.
    rename_i hbl
    cases h
    have hhdl : handleHunkHeadersAndEndPatch n line.trimEnd s = .ok none :=
      handle_of_head? (by rw [trimEnd_eq_nil hbl]; simp)
    rw [processLine_update hmode hhs hhdl] at hs
    cases hchg : readChunkLine line with
    | none =>
        obtain ⟨e, he⟩ := processUpdateLine_blank (n := n) hbl hchg movePath chunks
        rw [he] at hs
        cases hs
    | some change =>
        obtain ⟨w, hpos, hw⟩ := readChunkLine_excess hchg
        rw [processUpdateLine_of_readChunkLine hchg] at hs
        cases hs
        have hbetween := (atChunk_betweenChunks done path₀ movePath₀ chunks₀ []).hunks
        have hgrow : hunksExcess (pre ++ [.updateFile path movePath (pushLine change chunks)]) =
            hunksExcess s.hunks + w := by
          rw [hhs]
          simp only [hunksExcess_append, hunksExcess_singleton, excess_updateFile, pushLine_excess hw]
          omega
        refine ⟨?_, ?_, fun _ => ?_⟩
        · unfold betweenChunks
          split
          · exact ⟨⟨k, hmode⟩, _, _, _, _, rfl⟩
          · exact ⟨⟨k, hmode⟩, _, _, _, _, rfl⟩
        · rw [hbetween, hgrow]
          omega
        · rw [hbetween, hgrow]
          omega
  · rename_i hbl
    split at h
    · rename_i hstar
      split at h
      · cases h
      · have hap : ¬ (line.trim = [] ∨ changeContextMarker <+: line ∧ line.trimEnd ≠ line) := by
          rintro (hbl' | ⟨hctx, -⟩)
          · exact hbl hbl'
          · exact not_prefix_of_head? (c := '@') rfl (by rw [hstar]; decide) hctx
        simp only [processLine, hmode] at hs
        exact outgrows_readHeader h (trim_eq_trimEnd hstar (by decide)).symm hap hs
    · rename_i hstar
      have hhdl : handleHunkHeadersAndEndPatch n line.trimEnd s = .ok none :=
        handle_of_head? fun h => hstar (head?_trimEnd h)
      rw [processLine_update hmode hhs hhdl] at hs
      split at h
      · rename_i context hctx
        cases h
        obtain ⟨context', hread, -, hle, hlt⟩ := readContext_trimEnd hctx
        rw [processUpdateLine_of_readContext hread] at hs
        split at hs
        · cases hs
        · cases hs
          refine ⟨⟨⟨k, hmode⟩, _, _, _, _, rfl⟩, ?_, fun hap => ?_⟩
          · rw [hhs]
            simp only [hunks, OpenHunk.hunks, hunksExcess_append, hunksExcess_singleton, excess_updateFile,
              chunksExcess_append, chunksExcess_singleton, excess_emptyChunk]
            omega
          · rw [hhs]
            simp only [hunks, OpenHunk.hunks, hunksExcess_append, hunksExcess_singleton, excess_updateFile,
              chunksExcess_append, chunksExcess_singleton, excess_emptyChunk]
            have := hlt (hap.resolve_left hbl)
            omega
      · rename_i hctx
        split at h
        · rename_i hnil
          subst hnil
          obtain ⟨change, hchg, rfl⟩ := Option.map_eq_some_iff.mp h
          obtain ⟨w, -, hw⟩ := readChunkLine_excess hchg
          rw [processUpdateLine_of_readChunkLine hchg] at hs
          cases hs
          refine ⟨⟨⟨k, hmode⟩, _, _, _, _, rfl⟩, ?_, fun hap => ?_⟩
          · rw [hhs]
            simp only [hunks, OpenHunk.hunks, hunksExcess_append, hunksExcess_singleton, excess_updateFile,
              nil_append, chunksExcess_singleton, chunksExcess_nil, pushLine_excess hw, (hw _).1, excess_emptyChunk]
            simp only [contextLength, Option.elim_none]
            omega
          · have hpre := (hap.resolve_left hbl).1
            exact absurd hpre (not_prefix_of_head? (c := '@') rfl (readChunkLine_head? hchg).2.2)
        · cases h

/-- A line that names a destination: without the space at its end it names a shorter one, or none. -/
theorem processUpdateLine_moveTo {movePath : Text} (hline : line = moveToMarker ++ movePath) :
    (∃ e, processUpdateLine n line none [] = .error e) ∨
      movePath.trimEnd ≠ [] ∧ processUpdateLine n line none [] = .ok (some movePath.trimEnd, []) := by
  by_cases hbl : movePath.trimEnd = []
  · left
    have htrim : line.trimEnd = moveToStem := by
      rw [hline, trimEnd_append_blank _ hbl]
      decide
    have hmove : stripPrefix? moveToMarker moveToStem = none := by decide
    have hemp : moveToStem ≠ emptyChangeContextMarker := by decide
    have hctx : ¬ changeContextMarker <+: moveToStem := by decide
    have heof : moveToStem ≠ eofMarker := by decide
    obtain ⟨cs, hcs⟩ : ∃ cs, line = '*' :: cs := ⟨_, hline⟩
    simp only [processUpdateLine, htrim, hmove, ite_self, hemp, hctx, heof, or_self, false_and, if_false,
      stripPrefix?_eq_none.mpr hctx]
    subst hcs
    exact ⟨_, rfl⟩
  · right
    have htrim : line.trimEnd = moveToMarker ++ movePath.trimEnd := by rw [hline, trimEnd_append _ hbl]
    simp [processUpdateLine, htrim, stripPrefix?_append, hbl]

theorem moveToStem_prefix_trimEnd {movePath : Text} (hline : line = moveToMarker ++ movePath) :
    moveToStem <+: line.trimEnd := by
  by_cases hbl : movePath.trimEnd = []
  · rw [hline, trimEnd_append_blank _ hbl]
    decide
  · rw [hline, trimEnd_append _ hbl]
    exact (show moveToStem <+: moveToMarker by decide).trans (prefix_append _ _)

theorem outgrows_readChunkLine
    {chunk : UpdateFileChunk} {change : UpdateFileChunk → UpdateFileChunk} (hchg : readChunkLine line = some change)
    (hmode : s.mode = .updateFile k) (hhs : s.hunks = pre ++ [.updateFile path movePath chunks])
    (hs : processLine n line s = .ok s') :
    Outgrows (Place.lines.apart line) (hunksExcess (done ++ [.updateFile path₀ movePath₀ (chunks₀ ++ [chunk])]))
      ⟨done, .lines path₀ movePath₀ chunks₀ (change chunk)⟩ (hunksExcess s.hunks) s' := by
  obtain ⟨w, -, hw⟩ := readChunkLine_excess hchg
  obtain ⟨hline, hstar, -⟩ := readChunkLine_head? hchg
  have hhdl : handleHunkHeadersAndEndPatch n line.trimEnd s = .ok none :=
    handle_of_head? fun h => hstar (head?_trimEnd h)
  rw [processLine_update hmode hhs hhdl, processUpdateLine_of_readChunkLine hchg] at hs
  cases hs
  refine ⟨⟨⟨k, hmode⟩, _, _, _, _, rfl⟩, ?_, fun hap => ?_⟩
  · rw [hhs]
    simp only [hunks, OpenHunk.hunks, hunksExcess_append, hunksExcess_singleton, excess_updateFile,
      chunksExcess_append, chunksExcess_singleton, pushLine_excess hw, (hw _).1]
    omega
  · rw [hap.1] at hline
    cases hline

theorem outgrows_step (hfits : Fits r.hunk s) (h : r.step line = some r') (hs : processLine n line s = .ok s') :
    Outgrows (r.hunk.place.apart line) (hunksExcess r.hunks) r' (hunksExcess s.hunks) s' := by
  obtain ⟨done, hunk⟩ := r
  cases hunk with
  | closed =>
      have hdone : (⟨done, .closed⟩ : Reading).hunks = done := append_nil done
      rw [hdone]
      rcases hfits with ⟨hmode, -⟩ | ⟨hmode, -⟩
      · simp only [processLine, hmode, isEnvironmentIdPreambleLine_of_readHeader h, Bool.false_eq_true, if_false] at hs
        exact outgrows_readHeader h rfl id hs
      · simp only [processLine, hmode] at hs
        exact outgrows_readHeader h rfl id hs
  | added path contents =>
      obtain ⟨hmode, pre, path', contents', hhs⟩ := hfits
      simp only [processLine, hmode] at hs
      simp only [step] at h
      split at h
      · rename_i cs hcs
        cases h
        simp only [handle_of_head? (head?_trim_added hcs), handledOr, hcs, hhs, getLast?_concat, dropLast_concat] at hs
        cases hs
        refine ⟨⟨rfl, _, _, _, rfl⟩, ?_, fun hap => hap.elim⟩
        simp [hunks, OpenHunk.hunks, hhs, Hunk.excess]
      · exact outgrows_readHeader h rfl id hs
  | header path =>
      obtain ⟨⟨k, hmode⟩, pre, path', hhs⟩ := hfits
      simp only [step] at h
      split at h
      · rename_i movePath hmove
        cases h
        have hline := stripPrefix?_eq_some.mp hmove
        rw [processLine_update hmode hhs (handle_moveTo (moveToStem_prefix_trimEnd hline))] at hs
        rcases processUpdateLine_moveTo (n := n) hline with ⟨e, he⟩ | ⟨hsome, hok⟩
        · rw [he] at hs; cases hs
        · rw [hok] at hs
          cases hs
          have hle := (trimEnd_isPrefix movePath).length_le
          refine ⟨⟨⟨k, hmode⟩, _, _, _, _, rfl⟩, ?_, fun hap => ?_⟩
          · rw [hhs]
            simp only [hunks, OpenHunk.hunks, hunksExcess_append, hunksExcess_singleton, excess_updateFile,
              Option.elim_some, Option.elim_none, chunksExcess_nil]
            omega
          · have hne : movePath.trimEnd ≠ movePath := by
              intro heq
              rcases hap with hbl | ⟨-, hne⟩
              · rw [hline] at hbl
                exact trim_cons_ne_nil _ (by decide) hbl
              · rw [hline, trimEnd_append _ hsome, heq] at hne
                exact hne rfl
            have hlt := length_trimEnd_lt hne
            rw [hhs]
            simp only [hunks, OpenHunk.hunks, hunksExcess_append, hunksExcess_singleton, excess_updateFile,
              Option.elim_some, Option.elim_none, chunksExcess_nil]
            omega
      · rename_i hmove
        have hgr := outgrows_readChunkStart h hmode hhs hs
        refine ⟨hgr.fits, hgr.le, fun hap => hgr.lt ?_⟩
        rcases hap with hbl | ⟨hmove' | hctx, hne⟩
        · exact .inl hbl
        · exact absurd hmove' (stripPrefix?_eq_none.mp hmove)
        · exact .inr ⟨hctx, hne⟩
  | first path movePath =>
      obtain ⟨⟨k, hmode⟩, pre, path', movePath', chunks', hhs⟩ := hfits
      exact outgrows_readChunkStart h hmode hhs hs
  | opened path movePath chunks context =>
      obtain ⟨⟨k, hmode⟩, pre, path', movePath', chunks', hhs⟩ := hfits
      obtain ⟨change, hchg, rfl⟩ := Option.map_eq_some_iff.mp h
      exact outgrows_readChunkLine hchg hmode hhs hs
  | lines path movePath chunks chunk =>
      obtain ⟨⟨k, hmode⟩, pre, path', movePath', chunks', hhs⟩ := hfits
      simp only [step] at h
      split at h
      · rename_i heof
        subst heof
        cases h
        have htrim : eofMarker.trimEnd = eofMarker := by decide
        rw [processLine_update hmode hhs (by rw [htrim]; exact handle_eofMarker), processUpdateLine_eofMarker] at hs
        split at hs
        · cases hs
        · cases hs
          refine ⟨⟨⟨k, hmode⟩, _, _, _, _, rfl⟩, ?_, fun hap => ?_⟩
          · rw [hhs]
            have hck : ({ chunk with isEndOfFile := true } : UpdateFileChunk).excess = chunk.excess := rfl
            simp only [hunks, OpenHunk.hunks, hunksExcess_append, hunksExcess_singleton, excess_updateFile,
              chunksExcess_append, chunksExcess_singleton, modifyLast_eof_excess, hck]
            omega
          · exact absurd hap (show ¬ Place.lines.apart eofMarker by decide)
      · split at h
        · rename_i change hchg
          cases h
          exact outgrows_readChunkLine hchg hmode hhs hs
        · have hgr := outgrows_readChunkStart h hmode hhs hs
          exact ⟨hgr.fits, hgr.le, fun hap => hgr.lt hap.2⟩
  | next path movePath chunks =>
      obtain ⟨⟨k, hmode⟩, pre, path', movePath', chunks', hhs⟩ := hfits
      exact outgrows_readChunkStart h hmode hhs hs

theorem outgrows_reads (hfits : Fits r.hunk s) (h : Reads r ls r') (hs : processLines n ls s = .ok s') :
    Outgrows (¬ r.hunk.place.ReadAlike ls) (hunksExcess r.hunks) r' (hunksExcess s.hunks) s' := by
  induction ls generalizing n r s with
  | nil =>
      cases h
      cases hs
      exact ⟨hfits, by omega, fun hap => absurd trivial hap⟩
  | cons l ls ih =>
      obtain ⟨r₁, hstep, hrds⟩ := reads_cons.mp h
      obtain ⟨s₁, hline, hlns⟩ := except_bind_eq_ok.mp hs
      have hone := outgrows_step hfits hstep hline
      have hrest := ih hone.fits hrds hlns
      have hle := hone.le
      have hle' := hrest.le
      refine ⟨hrest.fits, by omega, fun hap => ?_⟩
      by_cases hfst : r.hunk.place.apart l
      · have := hone.lt hfst
        omega
      · have := hrest.lt fun halike => hap ⟨hfst, by rw [← place_step hstep]; exact halike⟩
        omega

end CodexStudy.ApplyPatch
