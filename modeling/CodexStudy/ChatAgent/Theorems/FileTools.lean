import CodexStudy.ChatAgent.FileTools

/-!
# What is read and changed in files

No message about an edit looks at a line that is not there.
-/

namespace CodexStudy.ChatAgent.Executor

open CodexStudy.Lib List Text Nat
open CodexStudy.Lib.Text (OccursAt byteLen_append byteLen_cons byteLen_nil byteLen_pos first_match lastLine join lines
  matchIndices matchesFrom ofLines occursAt_iff replaceFrom_zero replacen split_of_le)

/-! ## Lines that are there -/

section

variable {content front back search pattern : Text} {pos : Nat}

theorem slice_eq_some {α : Type} {xs : List α} {start stop : Nat} (h : start ≤ stop ∧ stop ≤ xs.length) :
    slice xs start stop = some ((xs.take stop).drop start) := if_pos h

theorem takeWhile_charIndicesFrom :
    (charIndicesFrom pos (front ++ back)).takeWhile (fun (index, _) => index < pos + Text.byteLen front) =
      charIndicesFrom pos front := by
  induction front generalizing pos with
  | nil =>
      cases back with
      | nil => rfl
      | cons c back =>
          rw [nil_append]
          exact takeWhile_cons_of_neg (by simp)
  | cons c front ih =>
      have hpos := c.utf8Size_pos
      rw [cons_append, charIndicesFrom, charIndicesFrom,
        takeWhile_cons_of_pos (by rw [byteLen_cons]; simp only [decide_eq_true_eq]; omega), byteLen_cons,
        ← add_assoc, ih]

theorem countP_charIndicesFrom (s : Text) :
    (charIndicesFrom pos s).countP (fun (_, character) => character = '\n') = s.count '\n' := by
  induction s generalizing pos with
  | nil => rfl
  | cons c s ih =>
      rw [charIndicesFrom, countP_cons, ih, count_cons]
      simp only [decide_eq_true_eq, beq_iff_eq]

theorem countLinesBefore_append (front back : Text) :
    countLinesBefore (front ++ back) (Text.byteLen front) = front.count '\n' + 1 := by
  have htake := @takeWhile_charIndicesFrom front back 0
  rw [zero_add] at htake
  rw [countLinesBefore, htake, countP_charIndicesFrom]

theorem count_ofLines {ls : List Text} (h : ∀ l ∈ ls, '\n' ∉ l) : (ofLines ls).count '\n' = ls.length := by
  induction ls with
  | nil => rfl
  | cons l ls ih =>
      have hl : l.count '\n' = 0 := count_eq_zero.mpr (h l mem_cons_self)
      have hls := ih fun l' hl' => h l' (mem_cons_of_mem _ hl')
      rw [ofLines] at hls
      rw [ofLines, flatMap_cons, count_append, count_append, hl, hls, length_cons]
      simp only [count_cons_self, count_nil]
      omega

theorem count_lt_length_lines (hback : back ≠ []) : front.count '\n' < (lines (front ++ back)).length := by
  obtain ⟨ls, rest, heq, hls, hrest⟩ := exists_ofLines (front ++ back)
  have hcnt : front.count '\n' + back.count '\n' = ls.length := by
    rw [← count_append, heq, count_append, count_ofLines hls, count_eq_zero.mpr hrest, add_zero]
  rw [heq, lines_ofLines_append hls hrest, length_append, length_map]
  by_cases hnil : rest = []
  · -- The content ends with a line feed, which is the last character of `back`.
    subst hnil
    rw [append_nil] at heq
    have hmem : '\n' ∈ back := by
      obtain ⟨init, last, rfl⟩ := (eq_nil_or_concat' back).resolve_left hback
      rcases eq_nil_or_concat' ls with rfl | ⟨ls, l, rfl⟩
      · simp [ofLines] at heq
      · rw [ofLines_append] at heq
        have hlast := congrArg getLast? heq
        simp [ofLines] at hlast
        simp [hlast]
    have hpos := count_pos_iff.mpr hmem
    omega
  · rw [lastLine, if_neg hnil, length_singleton]
    omega

theorem getLineContext_isSome {targetLine : Nat} (context : Nat) (h : targetLine ≤ (lines content).length) :
    ∃ text, getLineContext content targetLine context = some text := by
  unfold getLineContext
  dsimp only
  rw [slice_eq_some ⟨by omega, min_le_right ..⟩]
  exact ⟨_, rfl⟩

theorem findSimilarContext_isSome (content search : Text) : ∃ hint, findSimilarContext content search = some hint := by
  unfold findSimilarContext
  split
  next => exact ⟨none, rfl⟩
  next firstLine _ =>
    split
    next => exact ⟨none, rfl⟩
    next =>
      split
      next index hindex =>
        have hlt := (findIdx?_eq_some_iff_getElem.mp hindex).1
        obtain ⟨text, htext⟩ := @getLineContext_isSome content (index + 1) 2 hlt
        exact ⟨some text, by rw [htext]; rfl⟩
      next => exact ⟨none, rfl⟩

theorem buildFilePreview_isSome (content : Text) (maxLines : Nat) :
    ∃ preview, buildFilePreview content maxLines = some preview := by
  unfold buildFilePreview
  split
  next => exact ⟨_, rfl⟩
  next =>
    dsimp only
    rw [slice_eq_some ⟨zero_le _, min_le_left ..⟩, Option.bind_eq_bind, Option.bind_some]
    split
    next => exact ⟨_, rfl⟩
    next => exact ⟨_, rfl⟩

theorem buildNoMatchMessage_isSome (content search : Text) :
    ∃ message, buildNoMatchMessage content search = some message := by
  obtain ⟨hint, hhint⟩ := findSimilarContext_isSome content search
  obtain ⟨preview, hpreview⟩ := buildFilePreview_isSome content NO_MATCH_PREVIEW_LINES
  rw [buildNoMatchMessage, hhint, hpreview]
  exact ⟨_, rfl⟩

theorem matchText_isSome (hpat : pattern ≠ []) {found : Nat × Text} (h : found ∈ matchIndices content pattern)
    (index : Nat) : ∃ text, matchText content (found, index) = some text := by
  obtain ⟨front, back, rfl, hpl⟩ := Text.exists_of_mem_matchesFrom h
  rw [zero_add] at hpl
  have hne : pattern ++ back ≠ [] := fun hnil => hpat (append_eq_nil_iff.mp hnil).1
  have hline := countLinesBefore_append front (pattern ++ back)
  rw [← append_assoc, ← hpl] at hline
  have hlt := @count_lt_length_lines front _ hne
  rw [← append_assoc] at hlt
  rw [← succ_le_iff, succ_eq_add_one, ← hline] at hlt
  obtain ⟨text, htext⟩ := getLineContext_isSome 1 hlt
  exact ⟨_, by rw [matchText, htext]; rfl⟩

theorem mapM_isSome {α β : Type} {f : α → Option β} {l : List α} (h : ∀ a ∈ l, ∃ b, f a = some b) :
    ∃ bs, l.mapM f = some bs := by
  induction l with
  | nil => exact ⟨[], rfl⟩
  | cons a l ih =>
      obtain ⟨b, hb⟩ := h a mem_cons_self
      obtain ⟨bs, hbs⟩ := ih fun a' ha' => h a' (mem_cons_of_mem _ ha')
      exact ⟨b :: bs, by rw [mapM_cons, hb, hbs]; rfl⟩

theorem buildMultipleMatchMessage_isSome (hpat : pattern ≠ []) (count : Nat) :
    ∃ message, buildMultipleMatchMessage content count (matchIndices content pattern) = some message := by
  have htexts : ∃ texts, ((matchIndices content pattern).take 2).zipIdx.mapM (matchText content) = some texts := by
    refine mapM_isSome fun entry hent => ?_
    have hmem := (mem_zipIdx' hent).2
    exact matchText_isSome hpat (mem_of_mem_take (hmem ▸ getElem_mem _)) entry.2
  obtain ⟨texts, htexts⟩ := htexts
  rw [buildMultipleMatchMessage, htexts]
  exact ⟨_, rfl⟩

end

/-! ## Edits -/

section

variable {content oldStr newStr : Text}

theorem matchesFrom_eq_nil_iff {pos : Nat} (hold : oldStr ≠ []) :
    matchesFrom oldStr 0 pos content = [] ↔ ¬ oldStr <:+: content := by
  constructor
  · intro h hinfix
    obtain ⟨front, back, -, -, hmatches, -⟩ := @first_match oldStr [] content hold hinfix
    rw [hmatches] at h
    cases h
  · exact matchesFrom_of_not_infix

theorem isInfix_iff_occursAt (hold : oldStr ≠ []) : oldStr <:+: content ↔ ∃ pos, OccursAt oldStr content pos := by
  constructor
  · rintro ⟨front, back, h⟩
    exact ⟨_, (occursAt_iff hold).mpr ⟨front, back, h.symm, rfl⟩⟩
  · rintro ⟨pos, h⟩
    obtain ⟨front, back, h, -⟩ := (occursAt_iff hold).mp h
    exact ⟨front, back, h.symm⟩

/-- There is one match if the text stands somewhere and no two of its places are so far apart that both are found. -/
theorem length_matchIndices_eq_one_iff (hold : oldStr ≠ []) :
    (matchIndices content oldStr).length = 1 ↔ (∃ pos, OccursAt oldStr content pos) ∧
      ∀ p q, OccursAt oldStr content p → OccursAt oldStr content q → q < p + Text.byteLen oldStr := by
  by_cases hinfix : oldStr <:+: content
  · obtain ⟨front, back, rfl, hfst, hmatches, -⟩ := @first_match oldStr [] content hold hinfix
    rw [matchIndices, hmatches, length_cons, Nat.add_eq_right, length_eq_zero_iff,
      matchesFrom_eq_nil_iff hold]
    constructor
    · intro hback
      refine ⟨(isInfix_iff_occursAt hold).mp hinfix, fun p q hp hq => Nat.lt_of_not_le fun hle => hback ?_⟩
      obtain ⟨frontp, backp, heqp, rfl⟩ := (occursAt_iff hold).mp hp
      obtain ⟨frontq, backq, heqq, rfl⟩ := (occursAt_iff hold).mp hq
      have hle' := hfst frontp backp heqp
      rw [append_assoc frontq] at heqq
      obtain ⟨mid, -, rfl⟩ := split_of_le heqq (by rw [byteLen_append]; omega)
      exact ⟨mid, backq, append_assoc ..⟩
    · rintro ⟨-, hclose⟩ ⟨mid, rest, rfl⟩
      have hlt := hclose (Text.byteLen front) (Text.byteLen (front ++ oldStr ++ mid))
        ((occursAt_iff hold).mpr ⟨front, mid ++ oldStr ++ rest, rfl, rfl⟩)
        ((occursAt_iff hold).mpr ⟨front ++ oldStr ++ mid, rest, by simp only [append_assoc], rfl⟩)
      rw [byteLen_append, byteLen_append] at hlt
      omega
  · have hnone := (@matchesFrom_eq_nil_iff content oldStr 0 hold).mpr hinfix
    rw [matchIndices, hnone]
    refine iff_of_false (by simp) fun h => hinfix ((isInfix_iff_occursAt hold).mpr h.1)

theorem exists_replacen (hold : oldStr ≠ []) (h : oldStr <:+: content) :
    ∃ front back, content = front ++ oldStr ++ back ∧ replacen content oldStr newStr 1 = front ++ newStr ++ back := by
  obtain ⟨front, back, rfl, -, -, hreplace⟩ := @first_match oldStr newStr content hold h
  exact ⟨front, back, rfl, by rw [replacen, hreplace, replaceFrom_zero]⟩

theorem stringReplace_cases (content oldStr newStr : Text) :
    ∃ outcome, stringReplace content oldStr newStr = some outcome ∧
      ((∃ newContent, outcome = .applied newContent) ↔ oldStr ≠ [] ∧ (matchIndices content oldStr).length = 1) ∧
      ∀ newContent, outcome = .applied newContent →
        ∃ front back, content = front ++ oldStr ++ back ∧ newContent = front ++ newStr ++ back := by
  unfold stringReplace
  split
  next hnil =>
    refine ⟨_, rfl, iff_of_false ?_ fun h => h.1 hnil, ?_⟩
    · rintro ⟨newContent, h⟩
      cases h
    · intro newContent h
      cases h
  next hold =>
    dsimp only
    split
    next hlen =>
      obtain ⟨message, hmsg⟩ := buildNoMatchMessage_isSome content oldStr
      rw [hmsg]
      refine ⟨_, rfl, iff_of_false ?_ fun h => by omega, ?_⟩
      · rintro ⟨newContent, h⟩
        cases h
      · intro newContent h
        cases h
    next hlen =>
      refine ⟨_, rfl, iff_of_true ⟨_, rfl⟩ ⟨hold, hlen⟩, fun newContent h => ?_⟩
      cases h
      have hpl := ((length_matchIndices_eq_one_iff hold).mp hlen).1
      exact exists_replacen hold ((isInfix_iff_occursAt hold).mpr hpl)
    next hzero hone =>
      obtain ⟨message, hmsg⟩ := @buildMultipleMatchMessage_isSome content oldStr hold
        (matchIndices content oldStr).length
      rw [hmsg]
      refine ⟨_, rfl, iff_of_false ?_ fun h => hone h.2, ?_⟩
      · rintro ⟨newContent, h⟩
        cases h
      · intro newContent h
        cases h

/-- The edit is applied exactly if the text stands at one place, and then changes this place alone. -/
def EditsUniqueMatch (content oldStr newStr : Text) : Prop :=
  ∃ outcome, stringReplace content oldStr newStr = some outcome ∧
    ((∃ newContent, outcome = .applied newContent) ↔ oldStr ≠ [] ∧ ∃! pos, OccursAt oldStr content pos) ∧
    ∀ newContent, outcome = .applied newContent →
      ∃ front back, content = front ++ oldStr ++ back ∧ newContent = front ++ newStr ++ back

/-- Places that all overlap count as one. -/
theorem editsUniqueMatch_iff (content oldStr newStr : Text) : EditsUniqueMatch content oldStr newStr ↔
      oldStr = [] ∨ (∀ p q, OccursAt oldStr content p → OccursAt oldStr content q → p = q) ∨
        ∃ p q, OccursAt oldStr content p ∧ OccursAt oldStr content q ∧ p + Text.byteLen oldStr ≤ q := by
  obtain ⟨outcome, houtcome, happlied, hedit⟩ := stringReplace_cases content oldStr newStr
  have hunique : EditsUniqueMatch content oldStr newStr ↔
      ((oldStr ≠ [] ∧ (matchIndices content oldStr).length = 1) ↔
        (oldStr ≠ [] ∧ ∃! pos, OccursAt oldStr content pos)) := by
    constructor
    · rintro ⟨outcome', houtcome', hiff, -⟩
      rw [houtcome] at houtcome'
      cases houtcome'
      exact happlied.symm.trans hiff
    · intro hiff
      exact ⟨outcome, houtcome, happlied.trans hiff, hedit⟩
  rw [hunique]
  by_cases hold : oldStr = []
  · exact iff_of_true (iff_of_false (fun h => h.1 hold) fun h => h.1 hold) (.inl hold)
  · have hpos := byteLen_pos hold
    rw [length_matchIndices_eq_one_iff hold]
    constructor
    · intro hiff
      by_cases hfar : ∃ p q, OccursAt oldStr content p ∧ OccursAt oldStr content q ∧ p + Text.byteLen oldStr ≤ q
      · exact .inr (.inr hfar)
      · refine .inr (.inl fun p q hp hq => ?_)
        have hclose : ∀ p q, OccursAt oldStr content p → OccursAt oldStr content q → q < p + Text.byteLen oldStr :=
          fun p q hp hq => Nat.lt_of_not_le fun hle => hfar ⟨p, q, hp, hq, hle⟩
        exact (hiff.mp ⟨hold, ⟨p, hp⟩, hclose⟩).2.unique hp hq
    · rintro (h | hsame | ⟨p, q, hp, hq, hfar⟩)
      · exact absurd h hold
      · refine and_congr_right fun _ => ⟨fun h => ?_, fun h => ?_⟩
        · obtain ⟨pos, hpl⟩ := h.1
          exact ⟨pos, hpl, fun pos' hpl' => hsame _ _ hpl' hpl⟩
        · refine ⟨h.exists, fun p q hp hq => ?_⟩
          rw [hsame p q hp hq]
          omega
      · refine iff_of_false (fun h => ?_) fun h => ?_
        · have hlt := h.2.2 p q hp hq
          omega
        · have heq := h.2.unique hp hq
          omega

/-- In three equal characters two of them stand at two places, and the edit is applied. -/
theorem overlapping_matches_are_edited : ¬ EditsUniqueMatch "aaa".toList "aa".toList "b".toList := by
  rintro ⟨outcome, houtcome, hiff, -⟩
  have happlied : stringReplace "aaa".toList "aa".toList "b".toList = some (.applied "ba".toList) := by
    decide +kernel
  rw [happlied] at houtcome
  cases houtcome
  have hunique := (hiff.mp ⟨_, rfl⟩).2
  have hplaces : OccursAt "aa".toList "aaa".toList 0 ∧ OccursAt "aa".toList "aaa".toList 1 := by
    have hne : "aa".toList ≠ [] := by decide
    exact ⟨(occursAt_iff hne).mpr ⟨[], ['a'], rfl, rfl⟩, (occursAt_iff hne).mpr ⟨['a'], [], rfl, rfl⟩⟩
  exact absurd (hunique.unique hplaces.1 hplaces.2) (by decide)

end

/-! ## Windows of lines -/

section

variable {W : Type}

def requestedLines (content : Text) (lineStart lineEnd : Option Nat) : List (Text × Nat) :=
  ((lines content).zipIdx 1).filter fun (_, number) =>
    max 1 (lineStart.getD 1) ≤ number ∧ number ≤ min (lineEnd.getD (lines content).length) (lines content).length

def labelled (entry : Text × Nat) : Text := alignRight 6 (natText entry.2) ++ "| " ++ entry.1

/-- The reading succeeds, and its artifact has the requested lines with their numbers. -/
def ReadsWindow (content : Text) (lineStart lineEnd : Option Nat)
    (result : Option (Except ChatAgentError Observation)) : Prop :=
  ∃ observation, result = some (.ok observation) ∧ observation.ok = true ∧
    observation.artifacts.map Artifact.content =
      [join ['\n'] ((requestedLines content lineStart lineEnd).map labelled)]

theorem filter_zipIdx {α : Type} (xs : List α) (k start stop : Nat) (hst : k ≤ start) (hstop : stop ≤ k + xs.length) :
    (xs.zipIdx k).filter (fun (_, number) => start ≤ number ∧ number < stop) =
      ((xs.take (stop - k)).drop (start - k)).zipIdx start := by
  induction xs generalizing k start with
  | nil => simp
  | cons x xs ih =>
      rw [length_cons] at hstop
      rw [zipIdx_cons]
      rcases Nat.lt_or_ge k stop with hk | hk
      · obtain ⟨m, hm⟩ : ∃ m, stop - k = m + 1 := ⟨stop - k - 1, by omega⟩
        have hm' : m = stop - (k + 1) := by omega
        rw [hm, take_succ_cons, hm']
        rcases Nat.eq_or_lt_of_le hst with rfl | hlt
        · rw [filter_cons_of_pos (by simp [hk]), Nat.sub_self, drop_zero, zipIdx_cons]
          have hrest := ih (k + 1) (k + 1) (Nat.le_refl _) (by omega)
          rw [Nat.sub_self, drop_zero] at hrest
          rw [← hrest]
          congr 1
          refine filter_congr fun entry hent => ?_
          have hle := le_snd_of_mem_zipIdx hent
          simp only [decide_eq_decide]
          omega
        · obtain ⟨j, hj⟩ : ∃ j, start - k = j + 1 := ⟨start - k - 1, by omega⟩
          have hj' : j = start - (k + 1) := by omega
          rw [filter_cons_of_neg (by simp; omega), hj, drop_succ_cons, hj']
          exact ih (k + 1) start hlt (by omega)
      · have hnone : stop - k = 0 := by omega
        rw [hnone, take_zero, drop_nil, zipIdx_nil, filter_eq_nil_iff]
        intro entry hent
        rw [← zipIdx_cons] at hent
        have hle := le_snd_of_mem_zipIdx hent
        simp only [decide_eq_true_eq]
        omega

theorem requestedLines_eq {content : Text} {lineStart lineEnd : Option Nat} {start stop : Nat}
    (hst : start = max (lineStart.getD 1) 1)
    (hstop : stop = min (lineEnd.getD (lines content).length) (lines content).length) :
    requestedLines content lineStart lineEnd = (((lines content).take stop).drop (start - 1)).zipIdx start := by
  have h := filter_zipIdx (lines content) 1 start (stop + 1) (by omega) (by omega)
  rw [Nat.add_sub_cancel] at h
  rw [← h, requestedLines]
  refine filter_congr fun entry _ => ?_
  simp only [decide_eq_decide]
  omega

theorem map_labelled_zipIdx (xs : List Text) (start : Nat) :
    (xs.zipIdx start).map labelled = xs.zipIdx.map (numberedLine start) := by
  rw [zipIdx_eq_map_add, map_map]
  exact map_congr_left fun _ _ => rfl

variable (files : Files W) {workspaceRoot path filePath content : Text} (lineStart lineEnd : Option Nat) {w : W}

/-- A window that begins more than one line behind its end stops the program, if the file has lines. -/
theorem readFile_readsWindow_iff (hpath : resolveWorkspacePath files workspaceRoot path w = .ok filePath)
    (hcontent : files.readToString filePath w = .ok content) :
    ReadsWindow content lineStart lineEnd (readFile files workspaceRoot path lineStart lineEnd w) ↔ lines content = [] ∨
        max 1 (lineStart.getD 1) ≤ min (lineEnd.getD (lines content).length) (lines content).length + 1 := by
  unfold readFile
  rw [hpath]
  dsimp only
  rw [hcontent]
  dsimp only
  have hwindow := @requestedLines_eq content lineStart lineEnd _ _ rfl rfl
  by_cases hnone : lines content = []
  · have hemp : requestedLines content lineStart lineEnd = [] := by rw [requestedLines, hnone]; rfl
    rw [if_pos hnone]
    refine iff_of_true ⟨_, rfl, rfl, ?_⟩ (.inl hnone)
    rw [hemp]
    rfl
  · rw [if_neg hnone]
    by_cases hin : max 1 (lineStart.getD 1) ≤ min (lineEnd.getD (lines content).length) (lines content).length + 1
    · rw [slice_eq_some ⟨by omega, min_le_right ..⟩]
      refine iff_of_true ⟨_, rfl, rfl, ?_⟩ (.inr hin)
      rw [hwindow, map_labelled_zipIdx]
      rfl
    · have hpanic : slice (lines content) (max (lineStart.getD 1) 1 - 1)
          (min (lineEnd.getD (lines content).length) (lines content).length) = none := if_neg (by omega)
      rw [hpanic]
      refine iff_of_false ?_ fun h => h.elim hnone hin
      rintro ⟨observation, h, -⟩
      cases h

def oneFile : Files Unit where
  canonicalize path _ := .ok path
  readToString _ _ := .ok "line\n"
  write _ _ w := (.ok (), w)

theorem readFile_of_oneFile : resolveWorkspacePath oneFile "/w" "f" () = .ok "/w/f" ∧
      oneFile.readToString "/w/f" () = .ok "line\n" ∧ ReadsWindow "line\n" (some 2) (some 1)
        (readFile oneFile "/w" "f" (some 2) (some 1) ()) := by
  have hpath : resolveWorkspacePath oneFile "/w" "f" () = .ok "/w/f" := by decide +kernel
  exact ⟨hpath, rfl, (readFile_readsWindow_iff oneFile (some 2) (some 1) hpath rfl).mpr (.inr (by decide +kernel))⟩

theorem start_past_end_panics : oneFile.readToString "/w/f" () = .ok "line\n" ∧
      readFile oneFile "/w" "f" (some 3) none () = none ∧
      ¬ ReadsWindow "line\n" (some 3) none (readFile oneFile "/w" "f" (some 3) none ()) := by
  have hpath : resolveWorkspacePath oneFile "/w" "f" () = .ok "/w/f" := by decide +kernel
  have hlns : lines "line\n" = ["line"] := by decide +kernel
  have hpanic : readFile oneFile "/w" "f" (some 3) none () = none := by
    unfold readFile
    rw [hpath]
    have hread : oneFile.readToString "/w/f" () = .ok "line\n" := rfl
    dsimp only
    rw [hread]
    dsimp only
    rw [hlns]
    rfl
  refine ⟨rfl, hpanic, ?_⟩
  rw [hpanic]
  rintro ⟨observation, h, -⟩
  cases h

end

end CodexStudy.ChatAgent.Executor
