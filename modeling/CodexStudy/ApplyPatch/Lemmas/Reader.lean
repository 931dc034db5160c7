import CodexStudy.ApplyPatch.Lemmas.Headers

/-!
# The parser as a reader of lines
-/

namespace CodexStudy.ApplyPatch

open CodexStudy.Lib List Text

def readChunkLine (line : Text) : Option (UpdateFileChunk → UpdateFileChunk) :=
  match line with
  | [] => some fun chunk => { chunk with oldLines := chunk.oldLines ++ [[]], newLines := chunk.newLines ++ [[]] }
  | ' ' :: cs => some fun chunk => { chunk with oldLines := chunk.oldLines ++ [cs], newLines := chunk.newLines ++ [cs] }
  | '+' :: cs => some fun chunk => { chunk with newLines := chunk.newLines ++ [cs] }
  | '-' :: cs => some fun chunk => { chunk with oldLines := chunk.oldLines ++ [cs] }
  | _ => none

def readContext (line : Text) : Option (Option Text) :=
  if line = emptyChangeContextMarker then some none else (stripPrefix? changeContextMarker line).map some

inductive OpenHunk where
  | closed
  | added (path contents : Text)
  | header (path : Text)
  | first (path : Text) (movePath : Option Text)
  | opened (path : Text) (movePath : Option Text) (chunks : List UpdateFileChunk) (changeContext : Option Text)
  | lines (path : Text) (movePath : Option Text) (chunks : List UpdateFileChunk) (chunk : UpdateFileChunk)
  | next (path : Text) (movePath : Option Text) (chunks : List UpdateFileChunk)

structure Reading where
  done : List Hunk
  hunk : OpenHunk

def OpenHunk.hunks : OpenHunk → List Hunk
  | closed => []
  | added path contents => [.addFile path contents]
  | header path => [.updateFile path none []]
  | first path movePath => [.updateFile path movePath []]
  | opened path movePath chunks changeContext => [.updateFile path movePath (chunks ++ [emptyChunk changeContext])]
  | lines path movePath chunks chunk => [.updateFile path movePath (chunks ++ [chunk])]
  | next path movePath chunks => [.updateFile path movePath chunks]

/-- The patch may end here. -/
def OpenHunk.complete : OpenHunk → Bool
  | closed | added .. | lines .. | next .. => true
  | header _ | first .. | opened .. => false

variable (done : List Hunk) (path : Text) (movePath : Option Text) (chunks : List UpdateFileChunk)

namespace Reading

variable (r : Reading) (line : Text)

def hunks : List Hunk := r.done ++ r.hunk.hunks

def readHeader : Option Reading :=
  match stripPrefix? addFileMarker line.trim with
  | some path => some ⟨done, .added path []⟩
  | none => match stripPrefix? deleteFileMarker line.trim with
    | some path => some ⟨done ++ [.deleteFile path], .closed⟩
    | none => (stripPrefix? updateFileMarker line.trim).map fun path => ⟨done, .header path⟩

def betweenChunks : OpenHunk :=
  if chunks = [] then .first path movePath else .next path movePath chunks

def readChunkStart : Option Reading :=
  if line.trim = [] then some ⟨done, betweenChunks path movePath chunks⟩
  else if line.head? = some '*' then
    if chunks = [] then none else readHeader (done ++ [.updateFile path movePath chunks]) line
  else match readContext line with
    | some changeContext => some ⟨done, .opened path movePath chunks changeContext⟩
    | none =>
        if chunks = [] then
          (readChunkLine line).map fun change => ⟨done, .lines path movePath [] (change (emptyChunk none))⟩
        else none

def step : Option Reading :=
  match r.hunk with
  | .closed => readHeader r.done line
  | .added path contents =>
      match stripPrefix? ['+'] line with
      | some cs => some ⟨r.done, .added path (contents ++ cs ++ ['\n'])⟩
      | none => readHeader (r.done ++ [.addFile path contents]) line
  | .header path =>
      match stripPrefix? moveToMarker line with
      | some movePath => some ⟨r.done, .first path (some movePath)⟩
      | none => readChunkStart r.done path none [] line
  | .first path movePath => readChunkStart r.done path movePath [] line
  | .opened path movePath chunks changeContext =>
      (readChunkLine line).map fun change => ⟨r.done, .lines path movePath chunks (change (emptyChunk changeContext))⟩
  | .lines path movePath chunks chunk =>
      if line = eofMarker then some ⟨r.done, .next path movePath (chunks ++ [{ chunk with isEndOfFile := true }])⟩
      else match readChunkLine line with
        | some change => some ⟨r.done, .lines path movePath chunks (change chunk)⟩
        | none => readChunkStart r.done path movePath (chunks ++ [chunk]) line
  | .next path movePath chunks => readChunkStart r.done path movePath chunks line

def Reads (ls : List Text) (r' : Reading) : Prop := ls.foldlM step r = some r'

theorem Reads.nil : Reads r [] r := rfl

theorem reads_cons {r r' : Reading} {l : Text} {ls : List Text} :
    Reads r (l :: ls) r' ↔ ∃ r₁, r.step l = some r₁ ∧ Reads r₁ ls r' := by
  simp [Reads, foldlM_cons, Option.bind_eq_some_iff]

theorem Reads.append {r r₁ r' : Reading} {ls ls' : List Text} (h : Reads r ls r₁) (h' : Reads r₁ ls' r') :
    Reads r (ls ++ ls') r' := by
  rw [Reads, foldlM_append, h]
  exact h'

/-! ## Chunks -/

structure AtChunk (r : Reading) (done : List Hunk) (path : Text) (movePath : Option Text)
    (chunks : List UpdateFileChunk) (rest : List Text) : Prop where
  hunks : r.hunks = done ++ [.updateFile path movePath chunks]
  complete : chunks ≠ [] → r.hunk.complete = true
  step : ∀ l, rest.head? = some l → r.step l = readChunkStart done path movePath chunks l

theorem atChunk_betweenChunks (rest : List Text) :
    AtChunk ⟨done, betweenChunks path movePath chunks⟩ done path movePath chunks rest := by
  unfold betweenChunks
  split
  · rename_i hnil
    subst hnil
    exact ⟨rfl, fun h => absurd rfl h, fun _ _ => rfl⟩
  · exact ⟨rfl, fun _ => rfl, fun _ _ => rfl⟩

end Reading

theorem readChunkLine_eofMarker : readChunkLine eofMarker = none := by decide

variable {line : Text} {k n : Nat} {chunk : UpdateFileChunk} {rest ls : List Text} {isFirst : Bool} {r : Reading}

theorem parseChunkLines_cons (hline : line ≠ eofMarker) :
    parseChunkLines n (line :: rest) k chunk =
      match readChunkLine line with
      | some change => parseChunkLines n rest (k + 1) (change chunk)
      | none => if k = 0 then .error (.invalidHunk (unexpectedLineMessage line) (n + 1)) else .ok (chunk, k) := by
  rw [parseChunkLines.eq_def]
  dsimp only
  rw [if_neg hline]
  split
  · rfl
  · rfl
  · rfl
  · rfl
  · rename_i h₁ h₂ h₃ h₄
    rw [readChunkLine.eq_5 _ h₁ h₂ h₃ h₄]

open Reading in
theorem parseChunkLines_reads {k' : Nat} {chunk' : UpdateFileChunk}
    (h : parseChunkLines n ls (k + 1) chunk = .ok (chunk', k')) (done : List Hunk) (path : Text)
    (movePath : Option Text) (chunks : List UpdateFileChunk) :
    ∃ j r, k' = j + (k + 1) ∧ Reads ⟨done, .lines path movePath chunks chunk⟩ (ls.take j) r ∧
      AtChunk r done path movePath (chunks ++ [chunk']) (ls.drop j) := by
  induction ls generalizing k chunk with
  | nil =>
      cases h
      exact ⟨0, _, by omega, .nil _, ⟨rfl, fun _ => rfl, fun l hl => by cases hl⟩⟩
  | cons line rest ih =>
      by_cases heof : line = eofMarker
      · rw [parseChunkLines.eq_def] at h
        dsimp only at h
        rw [if_pos heof, if_neg (by omega)] at h
        cases h
        refine ⟨1, ⟨done, .next path movePath (chunks ++ [{ chunk with isEndOfFile := true }])⟩, by omega, ?_, ?_⟩
        · refine reads_cons.mpr ⟨_, ?_, .nil _⟩
          simp only [step, if_pos heof]
        · exact ⟨rfl, fun _ => rfl, fun _ _ => rfl⟩
      · rw [parseChunkLines_cons heof] at h
        cases hread : readChunkLine line with
        | none =>
            rw [hread] at h
            dsimp only at h
            rw [if_neg (by omega)] at h
            cases h
            refine ⟨0, _, by omega, .nil _, ⟨rfl, fun _ => rfl, ?_⟩⟩
            intro l hl
            cases hl
            simp only [step, if_neg heof, hread]
        | some change =>
            rw [hread] at h
            obtain ⟨j, r, hk, hreads, hr⟩ := ih h
            refine ⟨j + 1, r, by omega, ?_, hr⟩
            refine reads_cons.mpr ⟨_, ?_, hreads⟩
            simp only [step, if_neg heof, hread]

theorem parseChunkLines_first {chunk' : UpdateFileChunk} (hls : ls ≠ [])
    (h : parseChunkLines n ls 0 chunk = .ok (chunk', k)) :
    ∃ line rest change, ls = line :: rest ∧ readChunkLine line = some change ∧
      parseChunkLines n rest 1 (change chunk) = .ok (chunk', k) := by
  cases ls with
  | nil => exact absurd rfl hls
  | cons line rest =>
      by_cases heof : line = eofMarker
      · rw [parseChunkLines.eq_def] at h
        dsimp only at h
        rw [if_pos heof, if_pos rfl] at h
        cases h
      · rw [parseChunkLines_cons heof] at h
        cases hread : readChunkLine line with
        | none => rw [hread] at h; cases h
        | some change =>
            rw [hread] at h
            exact ⟨line, rest, change, rfl, hread, h⟩

theorem parseChangeContext_eq_ok {context : Option Text} (h : parseChangeContext line n isFirst = .ok (context, k)) :
    readContext line = some context ∧ k = 1 ∨ readContext line = none ∧ isFirst = true ∧ context = none ∧ k = 0 := by
  unfold parseChangeContext at h
  unfold readContext
  split at h
  · rename_i hline
    cases h
    rw [if_pos hline]
    exact .inl ⟨rfl, rfl⟩
  · rename_i hline
    rw [if_neg hline]
    split at h
    · rename_i hctx
      cases h
      rw [hctx]
      exact .inl ⟨rfl, rfl⟩
    · rename_i hctx
      split at h
      · rename_i hfst
        cases h
        rw [hctx]
        exact .inr ⟨rfl, hfst, rfl, rfl⟩
      · cases h

open Reading in
theorem parseUpdateFileChunk_reads (h : parseUpdateFileChunk (line :: rest) n isFirst = .ok (chunk, k))
    (hblank : line.trim ≠ []) (hstar : line.head? ≠ some '*') {done : List Hunk} {path : Text} {movePath : Option Text}
    {chunks : List UpdateFileChunk} (hr : AtChunk r done path movePath chunks (line :: rest))
    (hfirst : isFirst = true → chunks = []) : ∃ j r', k = j + 1 ∧ Reads r (line :: rest.take j) r' ∧
      AtChunk r' done path movePath (chunks ++ [chunk]) (rest.drop j) := by
  have hstep := hr.step line rfl
  unfold readChunkStart at hstep
  rw [if_neg hblank, if_neg hstar] at hstep
  obtain ⟨⟨context, startIndex⟩, hcontext, h⟩ := except_bind_eq_ok.mp h
  dsimp only at h
  split at h
  · cases h
  · rename_i hlength
    obtain ⟨⟨chunk', parsed⟩, hlines, h⟩ := except_bind_eq_ok.mp h
    cases h
    rcases parseChangeContext_eq_ok hcontext with ⟨hread, rfl⟩ | ⟨hread, hisFirst, rfl, rfl⟩
    · -- The chunk starts with its context; its lines follow.
      rw [hread] at hstep
      have hrest : rest ≠ [] := by rintro rfl; simp at hlength
      obtain ⟨line', rest', change, rfl, hchange, hlines⟩ := parseChunkLines_first hrest hlines
      obtain ⟨j, r', hparsed, hreads, hr'⟩ := parseChunkLines_reads hlines done path movePath chunks
      refine ⟨j + 1, r', by omega, ?_, hr'⟩
      refine reads_cons.mpr ⟨_, hstep, reads_cons.mpr ⟨_, ?_, hreads⟩⟩
      simp only [step, hchange, Option.map_some]
    · rw [hread] at hstep
      obtain rfl := hfirst hisFirst
      obtain ⟨line', rest', change, heq, hchange, hlines⟩ := parseChunkLines_first (by simp) hlines
      cases heq
      obtain ⟨j, r', hparsed, hreads, hr'⟩ := parseChunkLines_reads hlines done path movePath []
      refine ⟨j, r', by omega, ?_, hr'⟩
      refine reads_cons.mpr ⟨_, ?_, hreads⟩
      simpa only [if_pos, hchange, Option.map_some] using hstep

open Reading in
theorem parseChunks_reads {skip : Nat} {cs : List UpdateFileChunk} (h : parseChunks skip ls n isFirst = .ok (cs, k))
    {done : List Hunk} {path : Text} {movePath : Option Text} {chunks : List UpdateFileChunk}
    (hr : AtChunk r done path movePath chunks (ls.drop skip)) (hfirst : isFirst = true → chunks = []) :
    ∃ r', Reads r ((ls.drop skip).take k) r' ∧
      AtChunk r' done path movePath (chunks ++ cs) ((ls.drop skip).drop k) := by
  induction ls generalizing skip n k isFirst cs r chunks with
  | nil =>
      rw [parseChunks] at h
      cases h
      rw [drop_nil, append_nil]
      exact ⟨r, .nil r, by simpa using hr⟩
  | cons line rest ih =>
      cases skip with
      | succ skip =>
          rw [parseChunks] at h
          exact ih h hr hfirst
      | zero =>
          rw [parseChunks] at h
          rw [drop_zero] at hr ⊢
          split at h
          · rename_i hblank
            obtain ⟨⟨cs', k'⟩, hrest, h⟩ := except_bind_eq_ok.mp h
            cases h
            have hstep := hr.step line rfl
            unfold readChunkStart at hstep
            rw [if_pos hblank] at hstep
            obtain ⟨r', hreads, hr'⟩ := ih hrest (atChunk_betweenChunks done path movePath chunks _) hfirst
            exact ⟨r', reads_cons.mpr ⟨_, hstep, hreads⟩, hr'⟩
          · rename_i hblank
            split at h
            · cases h
              rw [append_nil]
              exact ⟨r, .nil r, hr⟩
            · rename_i hstar
              obtain ⟨⟨chunk, k₁⟩, hchunk, h⟩ := except_bind_eq_ok.mp h
              obtain ⟨⟨cs', k'⟩, hrest, h⟩ := except_bind_eq_ok.mp h
              cases h
              obtain ⟨j, r₁, rfl, hreads₁, hr₁⟩ := parseUpdateFileChunk_reads hchunk hblank hstar hr hfirst
              obtain ⟨r', hreads, hr'⟩ := ih hrest hr₁ (by intro hf; cases hf)
              refine ⟨r', ?_, ?_⟩
              · have hadd : k' + (j + 1) = (j + k') + 1 := by omega
                rw [hadd, take_succ_cons, take_add, ← cons_append]
                exact hreads₁.append hreads
              · have hadd : k' + (j + 1) = (j + k') + 1 := by omega
                rw [hadd, drop_succ_cons, ← drop_drop]
                simpa using hr'

/-! ## Hunks -/

namespace Reading

structure AtHunk (r : Reading) (read : List Hunk) (rest : List Text) : Prop where
  hunks : r.hunks = read
  complete : r.hunk.complete = true
  step : ∀ l, rest.head? = some l → r.step l = readHeader read l

theorem reads_added (path contents : Text) {ls : List Text} (h : ∀ l ∈ ls, l.head? = some '+') :
    Reads ⟨done, .added path contents⟩ ls ⟨done, .added path (contents ++ ofLines (ls.map tail))⟩ := by
  induction ls generalizing contents with
  | nil => simpa [ofLines] using Reads.nil _
  | cons l ls ih =>
      obtain ⟨cs, rfl⟩ := head?_eq_some_iff.mp (h l mem_cons_self)
      refine reads_cons.mpr ⟨⟨done, .added path (contents ++ cs ++ ['\n'])⟩, ?_, ?_⟩
      · have hstrip : stripPrefix? ['+'] ('+' :: cs) = some cs := stripPrefix?_eq_some.mpr rfl
        simp only [step, hstrip]
      · have hrest := ih (contents ++ cs ++ ['\n']) fun l hl => h l (mem_cons_of_mem _ hl)
        simpa [ofLines] using hrest

theorem reads_movePath (rest : List Text) :
    ∃ r, Reads ⟨done, .header path⟩ (rest.take (rest.length - (parseMovePath rest).2.length)) r ∧
      AtChunk r done path (parseMovePath rest).1 [] (parseMovePath rest).2 := by
  cases rest with
  | nil => exact ⟨_, .nil _, ⟨rfl, fun h => absurd rfl h, fun l hl => by cases hl⟩⟩
  | cons l rest =>
      cases hmove : stripPrefix? moveToMarker l with
      | some movePath =>
          have hprs : parseMovePath (l :: rest) = (some movePath, rest) := by simp [parseMovePath, hmove]
          rw [hprs]
          refine ⟨⟨done, .first path (some movePath)⟩, ?_, ⟨rfl, fun h => absurd rfl h, fun _ _ => rfl⟩⟩
          have hone : (l :: rest).length - rest.length = 1 := by simp
          rw [hone]
          exact reads_cons.mpr ⟨_, by simp only [step, hmove], .nil _⟩
      | none =>
          have hprs : parseMovePath (l :: rest) = (none, l :: rest) := by simp [parseMovePath, hmove]
          rw [hprs]
          refine ⟨⟨done, .header path⟩, by simpa using Reads.nil _, ⟨rfl, fun h => absurd rfl h, ?_⟩⟩
          intro l' hl'
          cases hl'
          simp only [step, hmove]

theorem headerLines_take (rest : List Text) (parsed : Nat) :
    rest.take (1 + (rest.length - (parseMovePath rest).2.length) + parsed - 1) =
      rest.take (rest.length - (parseMovePath rest).2.length) ++ (parseMovePath rest).2.take parsed := by
  have hn : 1 + (rest.length - (parseMovePath rest).2.length) + parsed - 1 =
      (rest.length - (parseMovePath rest).2.length) + parsed := by omega
  rw [hn, take_add, parseMovePath_drop]

end Reading

open Reading in
theorem parseOneHunk_reads {hunk : Hunk} (h : parseOneHunk line rest n = .ok (hunk, k)) {hunks : List Hunk}
    (hr : AtHunk r hunks (line :: rest)) :
    ∃ r', Reads r (line :: rest.take (k - 1)) r' ∧ AtHunk r' (hunks ++ [hunk]) (rest.drop (k - 1)) := by
  have hstep := hr.step line rfl
  unfold readHeader at hstep
  unfold parseOneHunk at h
  dsimp only at h
  cases hadd : Text.stripPrefix? addFileMarker line.trim with
  | some path =>
      rw [hadd] at h hstep
      cases h
      have hsplit := takeWhile_append_dropWhile (p := fun l : Text => l.head? == some '+') (l := rest)
      have htake : rest.take (rest.takeWhile fun l : Text => l.head? == some '+').length =
          rest.takeWhile fun l : Text => l.head? == some '+' :=
        (congrArg (take _) hsplit.symm).trans take_left
      have hdrop : rest.drop (rest.takeWhile fun l : Text => l.head? == some '+').length =
          rest.dropWhile fun l : Text => l.head? == some '+' :=
        (congrArg (drop _) hsplit.symm).trans drop_left
      rw [Nat.add_sub_cancel_left, htake, hdrop]
      have hplus : ∀ l ∈ rest.takeWhile fun l : Text => l.head? == some '+', l.head? = some '+' :=
        fun l hl => by simpa using mem_takeWhile_imp hl
      refine ⟨_, reads_cons.mpr ⟨_, hstep, reads_added hunks path [] hplus⟩, ⟨rfl, rfl, ?_⟩⟩
      intro l hl
      have hnot : Text.stripPrefix? ['+'] l = none := by
        have hhead := head?_dropWhile_not (fun l : Text => l.head? == some '+') rest
        rw [hl] at hhead
        rw [Text.stripPrefix?, if_neg]
        rintro ⟨cs, rfl⟩
        simp at hhead
      simp only [step, hnot]
      rfl
  | none =>
      rw [hadd] at h hstep
      cases hdelete : Text.stripPrefix? deleteFileMarker line.trim with
      | some path =>
          rw [hdelete] at h hstep
          cases h
          refine ⟨⟨hunks ++ [.deleteFile path], .closed⟩, reads_cons.mpr ⟨_, hstep, .nil _⟩, ⟨?_, rfl, fun _ _ => rfl⟩⟩
          simp [Reading.hunks, OpenHunk.hunks]
      | none =>
          rw [hdelete] at h hstep
          cases hupdate : Text.stripPrefix? updateFileMarker line.trim with
          | none => rw [hupdate] at h; cases h
          | some path =>
              rw [hupdate] at h hstep
              obtain ⟨⟨chunks, parsed⟩, hchunks, h⟩ := except_bind_eq_ok.mp h
              dsimp only at h
              split at h
              · cases h
              · rename_i hne
                cases h
                rw [headerLines_drop]
                obtain ⟨r₁, hreads₁, hr₁⟩ := reads_movePath hunks path rest
                obtain ⟨r', hreads, hr'⟩ := parseChunks_reads hchunks (by simpa using hr₁) fun _ => rfl
                simp only [drop_zero, nil_append] at hreads hr'
                refine ⟨r', ?_, ⟨hr'.hunks, hr'.complete hne, ?_⟩⟩
                · refine reads_cons.mpr ⟨_, hstep, ?_⟩
                  rw [headerLines_take]
                  exact hreads₁.append hreads
                · intro l hl
                  have hstops := parseChunks_stops hchunks
                  have hstar : l.head? = some '*' := hstops.2 l hl
                  have hblank : l.trim ≠ [] := by
                    obtain ⟨cs, rfl⟩ := head?_eq_some_iff.mp hstar
                    exact Text.trim_cons_ne_nil cs (by decide)
                  rw [hr'.step l hl, readChunkStart, if_neg hblank, if_pos hstar, if_neg hne]

open Reading in
theorem parseHunks_reads {skip : Nat} {hs : List Hunk} (h : parseHunks skip ls n = .ok hs) {hunks : List Hunk}
    (hr : AtHunk r hunks (ls.drop skip)) :
    ∃ r', Reads r (ls.drop skip) r' ∧ r'.hunks = hunks ++ hs ∧ r'.hunk.complete = true := by
  induction ls generalizing skip n hs r hunks with
  | nil =>
      rw [parseHunks] at h
      cases h
      rw [drop_nil, append_nil]
      exact ⟨r, .nil r, hr.hunks, hr.complete⟩
  | cons line rest ih =>
      cases skip with
      | succ skip =>
          rw [parseHunks] at h
          exact ih h hr
      | zero =>
          rw [parseHunks] at h
          obtain ⟨⟨hunk, k⟩, hhunk, h⟩ := except_bind_eq_ok.mp h
          obtain ⟨hs', hrest, h⟩ := except_bind_eq_ok.mp h
          cases h
          obtain ⟨r₁, hreads₁, hr₁⟩ := parseOneHunk_reads hhunk hr
          obtain ⟨r', hreads, hhunks, hcomplete⟩ := ih hrest hr₁
          refine ⟨r', ?_, by simpa using hhunks, hcomplete⟩
          have := hreads₁.append hreads
          rwa [cons_append, take_append_drop] at this

end CodexStudy.ApplyPatch
