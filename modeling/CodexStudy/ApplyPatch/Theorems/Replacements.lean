import CodexStudy.ApplyPatch.Apply
import CodexStudy.Lib.Splices
import CodexStudy.Lib.Lists

/-!
# Replacements that stay apart

Chunks are located from the first line to the last, so that the lines they replace do not overlap.
-/

namespace CodexStudy.ApplyPatch

open CodexStudy.Lib List Replacement Text Nat

variable {r : Replacement}

section

/-! ## Blocks of lines -/

/-- The ways in which lines are looked at, from the strictest to the most permissive. -/
def matchViews : List (Text → Text) := [id, trimEnd, trim, normalise]

/-- The lines from `i` on are the pattern, up to the normalization of the search. -/
structure StandsAt (lines pattern : List Text) (i : Nat) : Prop where
  inside : i + pattern.length ≤ lines.length
  alike : ∃ view ∈ matchViews, ((lines.drop i).take pattern.length).map view = pattern.map view

theorem standsAt_nil {lines : List Text} {i : Nat} (h : i ≤ lines.length) : StandsAt lines [] i :=
  ⟨h, id, by simp [matchViews], rfl⟩

variable {lines pattern : List Text} {start i : Nat} {eof : Bool}

theorem seekPass_eq_some {view : Text → Text} (hview : view ∈ matchViews) (hlen : pattern.length ≤ lines.length)
    (h : seekPass view lines pattern start = some i) : start ≤ i ∧ StandsAt lines pattern i := by
  have hmem := mem_of_find?_eq_some h
  have halike := find?_some h
  rw [mem_range'_1] at hmem
  exact ⟨hmem.1, by omega, view, hview, beq_iff_eq.mp halike⟩

def searchStart (lines pattern : List Text) (start : Nat) (eof : Bool) : Nat :=
  if eof then lines.length - pattern.length else start

theorem seekSequence_eq_some (hpat : pattern ≠ []) (h : seekSequence lines pattern start eof = some i) :
    searchStart lines pattern start eof ≤ i ∧ StandsAt lines pattern i := by
  rw [seekSequence, if_neg hpat] at h
  split at h
  · cases h
  · rename_i hlen
    have hlen : pattern.length ≤ lines.length := by omega
    simp only [Option.orElse_eq_orElse, Option.orElse_eq_or, Option.or_eq_some_iff] at h
    rcases h with h | ⟨-, h | ⟨-, h | ⟨-, h⟩⟩⟩
    · exact seekPass_eq_some (by simp [matchViews]) hlen h
    · exact seekPass_eq_some (by simp [matchViews]) hlen h
    · exact seekPass_eq_some (by simp [matchViews]) hlen h
    · exact seekPass_eq_some (by simp [matchViews]) hlen h

theorem seekSequence_nil : seekSequence lines [] start eof = some start := if_pos rfl

/-! ## Chunks -/

def Replacement.stop (r : Replacement) : Nat := r.start + r.oldLen

/-- A chunk can be matched as it is, or without the empty line at its end. -/
inductive Variant (chunk : UpdateFileChunk) : (pattern newLines : List Text) → Prop where
  | whole : Variant chunk chunk.oldLines chunk.newLines
  | withoutLast : chunk.oldLines.getLast? = some [] →
      Variant chunk chunk.oldLines.dropLast (dropFinalEmpty chunk.newLines)

/-- The replacement puts the new lines of the chunk in the place of lines that are like its old ones. -/
structure Matched (lines : List Text) (chunk : UpdateFileChunk) (r : Replacement) : Prop where
  block : ∃ pattern, Variant chunk pattern r.newLines ∧ r.oldLen = pattern.length ∧ StandsAt lines pattern r.start

theorem Matched.inside {chunk : UpdateFileChunk} (h : Matched lines chunk r) :
    r.stop ≤ lines.length := by
  obtain ⟨pattern, -, hlen, hstands⟩ := h.block
  have hins := hstands.inside
  rwa [← hlen] at hins

variable {path : Text} {chunk : UpdateFileChunk} {lineIndex : Nat}

theorem seekContext_eq_ok (h : seekContext lines path chunk lineIndex = .ok i)
    (hle : lineIndex ≤ lines.length) : lineIndex ≤ i ∧ i ≤ lines.length := by
  unfold seekContext at h
  cases hctx : chunk.changeContext with
  | none =>
      rw [hctx] at h
      cases h
      exact ⟨le_rfl, hle⟩
  | some context =>
      rw [hctx] at h
      dsimp only at h
      split at h
      · rename_i j hseek
        cases h
        obtain ⟨hst, hstands⟩ := seekSequence_eq_some (cons_ne_nil _ _) hseek
        have hins : j + 1 ≤ lines.length := hstands.inside
        have hst : lineIndex ≤ j := hst
        omega
      · cases h

inductive FoundFrom (lines : List Text) (lineIndex : Nat) (eof : Bool) (r : Replacement) : Prop where
  | insertion : r.oldLen = 0 → r.start = lineIndex → FoundFrom lines lineIndex eof r
  | behind : eof = false → 0 < r.oldLen → lineIndex ≤ r.start → FoundFrom lines lineIndex eof r
  | atEnd : eof = true → 0 < r.oldLen → r.stop = lines.length → FoundFrom lines lineIndex eof r

theorem foundFrom_of_seekSequence {newLines : List Text} (h : seekSequence lines pattern lineIndex eof = some i) :
    FoundFrom lines lineIndex eof ⟨i, pattern.length, newLines⟩ := by
  by_cases hpat : pattern = []
  · subst hpat
    rw [seekSequence_nil] at h
    cases h
    exact .insertion rfl rfl
  · obtain ⟨hst, hstands⟩ := seekSequence_eq_some hpat h
    have hpos : 0 < pattern.length := length_pos_iff.mpr hpat
    cases eof with
    | false => exact .behind rfl hpos hst
    | true =>
        refine .atEnd rfl hpos ?_
        have hst : lines.length - pattern.length ≤ i := hst
        have hins := hstands.inside
        show i + pattern.length = lines.length
        omega

theorem standsAt_of_seekSequence (hle : lineIndex ≤ lines.length)
    (h : seekSequence lines pattern lineIndex eof = some i) : StandsAt lines pattern i := by
  by_cases hpat : pattern = []
  · subst hpat
    rw [seekSequence_nil] at h
    cases h
    exact standsAt_nil hle
  · exact (seekSequence_eq_some hpat h).2

theorem locateOldLines_eq_ok (h : locateOldLines lines path chunk lineIndex = .ok r)
    (hle : lineIndex ≤ lines.length) : Matched lines chunk r ∧ FoundFrom lines lineIndex chunk.isEndOfFile r := by
  unfold locateOldLines at h
  split at h
  · rename_i i hseek
    cases h
    exact ⟨⟨chunk.oldLines, .whole, rfl, standsAt_of_seekSequence hle hseek⟩, foundFrom_of_seekSequence hseek⟩
  · dsimp only at h
    split at h
    · rename_i hlast
      split at h
      · rename_i i hseek
        cases h
        exact ⟨⟨chunk.oldLines.dropLast, .withoutLast hlast, rfl, standsAt_of_seekSequence hle hseek⟩,
          foundFrom_of_seekSequence hseek⟩
      · cases h
    · cases h

/-! ## Replacements as splices -/

def Replacement.splice (r : Replacement) : Splice Text := ⟨r.start, r.oldLen, r.newLines⟩

theorem applyReplacements_eq_foldr (lines : List Text) (rs : List Replacement) :
    applyReplacements lines rs = (rs.map splice).foldr Splice.apply lines := by
  rw [applyReplacements, foldl_reverse, foldr_map]
  rfl

/-- The replaced lines of `r` end before those of `r'` start. -/
def Replacement.Before (r r' : Replacement) : Prop := r.stop ≤ r'.start

instance (r r' : Replacement) : Decidable (r.Before r') := inferInstanceAs (Decidable (_ ≤ _))

/-- Replacements inside the file, one behind the other, amount to a substitution in all places at once. -/
theorem substitutes_applyReplacements {rs : List Replacement} (hins : ∀ r ∈ rs, r.stop ≤ lines.length)
    (h : rs.Pairwise Replacement.Before) : Splice.Substitutes 0 (rs.map splice) lines (applyReplacements lines rs) := by
  rw [applyReplacements_eq_foldr]
  refine Splice.substitutes_foldr ?_ (pairwise_map.mpr h)
  intro s hs
  obtain ⟨r, hr, rfl⟩ := mem_map.mp hs
  exact hins r hr

end

/-! ## The order of replacements -/

def Replacement.Apart (r r' : Replacement) : Prop := if r.start ≤ r'.start then r.Before r' else r'.Before r

variable (lines : List Text)

def additionIndex : Nat := (dropFinalEmpty lines).length

/-- The replacements lie inside the file, each covers only lines that its chunk matches, sorted they do not overlap, and
making them is one substitution. -/
structure Substituted (chunks : List UpdateFileChunk) (rs : List Replacement) : Prop where
  inside : ∀ r ∈ rs, r.stop ≤ lines.length
  matched : ∀ r ∈ rs, ∃ chunk ∈ chunks, Matched lines chunk r
  disjoint : rs.Pairwise Replacement.Before
  substitution : Splice.Substitutes 0 (rs.map splice) lines (applyReplacements lines rs)

/-! ## When they stay apart -/

/-- A chunk that only adds lines does so before an empty last line, which must not have been replaced. -/
def AdditionFits (taken : Nat) : Prop :=
  lines.getLast? = some [] → taken < lines.length

/-- A chunk that ends the file does not reach back into replaced lines; and when lines were added before an empty last
line, that line is replaced alone. -/
def BlockFits (taken : Nat) (added eof : Bool) (found : Replacement) : Prop :=
  (eof = true → 0 < found.oldLen → taken + found.oldLen ≤ lines.length) ∧
    (lines.getLast? = some [] → added = true → found.stop = lines.length → found.oldLen ≤ 1)

instance (taken : Nat) : Decidable (AdditionFits lines taken) :=
  inferInstanceAs (Decidable (_ → _))

instance (taken : Nat) (added eof : Bool) (found : Replacement) :
    Decidable (BlockFits lines taken added eof found) := inferInstanceAs (Decidable (_ ∧ _))

def takenAfter (taken : Nat) (found : Replacement) : Nat :=
  if found.start < lines.length then found.stop else taken

/-- Looked for from `lineIndex` on, every chunk fits at its turn: the lines from `taken` on have not been replaced, and
`added` says whether lines were added at the end. -/
def StayApart (lines : List Text) (path : Text) : (lineIndex taken : Nat) → (added : Bool) →
    List UpdateFileChunk → Prop
  | _, _, _, [] => True
  | lineIndex, taken, added, chunk :: chunks =>
      match seekContext lines path chunk lineIndex with
      | .error _ => True
      | .ok lineIndex =>
          if chunk.oldLines = [] then
            AdditionFits lines taken ∧ StayApart lines path lineIndex taken true chunks
          else
            match locateOldLines lines path chunk lineIndex with
            | .error _ => True
            | .ok found =>
                BlockFits lines taken added chunk.isEndOfFile found ∧
                  StayApart lines path found.stop (takenAfter lines taken found) added chunks

/-! ## The replacements of the chunks -/

variable {lines : List Text} {path : Text} {chunk : UpdateFileChunk} {chunks : List UpdateFileChunk}
  {lineIndex taken : Nat} {added : Bool} {rs prev : List Replacement} {found : Replacement}

theorem additionIndex_of_blank (h : lines.getLast? = some []) : additionIndex lines + 1 = lines.length := by
  obtain ⟨init, rfl⟩ := getLast?_eq_some_iff.mp h
  simp [additionIndex, dropFinalEmpty]

theorem additionIndex_of_not_blank (h : lines.getLast? ≠ some []) : additionIndex lines = lines.length := by
  rw [additionIndex, dropFinalEmpty, if_neg h]

theorem additionIndex_le (lines : List Text) : additionIndex lines ≤ lines.length := by
  by_cases h : lines.getLast? = some []
  · have := additionIndex_of_blank h
    omega
  · exact (additionIndex_of_not_blank h).le

theorem locateChunks_cons (h : locateChunks lines path lineIndex (chunk :: chunks) = .ok rs) :
    ∃ i, seekContext lines path chunk lineIndex = .ok i ∧
      (chunk.oldLines = [] ∧ (∃ rs', locateChunks lines path i chunks = .ok rs' ∧
          rs = ⟨additionIndex lines, 0, chunk.newLines⟩ :: rs') ∨
        chunk.oldLines ≠ [] ∧ ∃ found rs', locateOldLines lines path chunk i = .ok found ∧
          locateChunks lines path found.stop chunks = .ok rs' ∧ rs = found :: rs') := by
  rw [locateChunks] at h
  obtain ⟨i, hctx, h⟩ := except_bind_eq_ok.mp h
  refine ⟨i, hctx, ?_⟩
  by_cases hold : chunk.oldLines = []
  · rw [if_pos hold] at h
    obtain ⟨rs', hrest, h⟩ := except_bind_eq_ok.mp h
    cases h
    exact .inl ⟨hold, rs', hrest, rfl⟩
  · rw [if_neg hold] at h
    obtain ⟨found, hfnd, h⟩ := except_bind_eq_ok.mp h
    obtain ⟨rs', hrest, h⟩ := except_bind_eq_ok.mp h
    cases h
    exact .inr ⟨hold, found, rs', hfnd, hrest, rfl⟩

theorem matched_addition (hold : chunk.oldLines = []) :
    Matched lines chunk ⟨additionIndex lines, 0, chunk.newLines⟩ := by
  refine ⟨chunk.oldLines, .whole, ?_, ?_⟩
  · rw [hold]
    rfl
  · rw [hold]
    exact standsAt_nil (additionIndex_le lines)

theorem locateChunks_matched (h : locateChunks lines path lineIndex chunks = .ok rs) (hle : lineIndex ≤ lines.length) :
    List.Forall₂ (Matched lines) chunks rs := by
  induction chunks generalizing lineIndex rs with
  | nil => cases h; exact .nil
  | cons chunk chunks ih =>
      obtain ⟨i, hctx, ⟨hold, rs', hrest, rfl⟩ | ⟨-, found, rs', hfnd, hrest, rfl⟩⟩ := locateChunks_cons h
      · exact .cons (matched_addition hold) (ih hrest (seekContext_eq_ok hctx hle).2)
      · obtain ⟨hmtd, -⟩ := locateOldLines_eq_ok hfnd (seekContext_eq_ok hctx hle).2
        exact .cons hmtd (ih hrest hmtd.inside)

/-! ## The state between two chunks -/

/-- The replacements `prev` have been found, and the search goes on from `lineIndex`. Each ends before `taken`, or is an
insertion at the end or before an empty last line, which `added` records. -/
structure Turn (lines : List Text) (prev : List Replacement) (lineIndex taken : Nat) (added : Bool) : Prop where
  taken_le : taken ≤ lineIndex
  lineIndex_le : lineIndex ≤ lines.length
  placed : ∀ r ∈ prev, r.stop ≤ taken ∨
    r.oldLen = 0 ∧ (r.start = lines.length ∨ added = true ∧ r.start = additionIndex lines)
  reached : taken = 0 ∨ ∃ r ∈ prev, r.stop = taken ∧ r.start < lines.length
  addition : added = true → ∃ r ∈ prev, r.oldLen = 0 ∧ r.start = additionIndex lines

theorem turn_start : Turn lines [] 0 0 false :=
  ⟨le_rfl, zero_le _, by simp, .inl rfl, by simp⟩

theorem Turn.forward {i : Nat} (h : Turn lines prev lineIndex taken added) (hle : lineIndex ≤ i)
    (hi : i ≤ lines.length) : Turn lines prev i taken added :=
  { h with taken_le := h.taken_le.trans hle, lineIndex_le := hi }

variable (h : Turn lines prev lineIndex taken added)

include h in
theorem Turn.inside (hr : r ∈ prev) :
    r.stop ≤ lines.length := by
  have htaken := h.taken_le
  have hindex := h.lineIndex_le
  have hadd := additionIndex_le lines
  rcases h.placed r hr with hstop | ⟨hlen, hst⟩
  · omega
  · unfold stop
    omega

include h in
theorem Turn.push_addition (newLines : List Text) :
    Turn lines (prev ++ [⟨additionIndex lines, 0, newLines⟩]) lineIndex taken true where
  taken_le := h.taken_le
  lineIndex_le := h.lineIndex_le
  placed := by
    intro r hr
    rcases mem_append.mp hr with hr | hr
    · rcases h.placed r hr with hstop | ⟨hlen, hst | ⟨-, hst⟩⟩
      · exact .inl hstop
      · exact .inr ⟨hlen, .inl hst⟩
      · exact .inr ⟨hlen, .inr ⟨rfl, hst⟩⟩
    · cases mem_singleton.mp hr
      exact .inr ⟨rfl, .inr ⟨rfl, rfl⟩⟩
  reached := by
    rcases h.reached with hzero | ⟨r, hr, hstop⟩
    · exact .inl hzero
    · exact .inr ⟨r, mem_append_left _ hr, hstop⟩
  addition := fun _ => ⟨_, mem_append_right _ mem_cons_self, rfl, rfl⟩

theorem FoundFrom.le_stop {eof : Bool} (h : FoundFrom lines lineIndex eof found) (hle : lineIndex ≤ lines.length) :
    lineIndex ≤ found.stop := by
  cases h with
  | insertion hlen hst => rw [stop, hlen, hst, add_zero]
  | behind _ _ hst => exact hst.trans (le_add_right _ _)
  | atEnd _ _ hstop => exact hle.trans hstop.ge

include h in
theorem Turn.push_found {eof : Bool} (hfnd : FoundFrom lines lineIndex eof found) (hins : found.stop ≤ lines.length) :
    Turn lines (prev ++ [found]) found.stop (takenAfter lines taken found) added := by
  have hle := hfnd.le_stop h.lineIndex_le
  have htaken := h.taken_le
  have haft : taken ≤ takenAfter lines taken found ∧ takenAfter lines taken found ≤ found.stop := by
    unfold takenAfter
    split <;> omega
  refine ⟨haft.2, hins, ?_, ?_, ?_⟩
  · intro r hr
    rcases mem_append.mp hr with hr | hr
    · rcases h.placed r hr with hstop | hend
      · exact .inl (hstop.trans haft.1)
      · exact .inr hend
    · cases mem_singleton.mp hr
      by_cases hst : found.start < lines.length
      · left
        rw [takenAfter, if_pos hst]
      · unfold stop at hins
        exact .inr ⟨by omega, .inl (by omega)⟩
  · unfold takenAfter
    split
    · rename_i hst
      exact .inr ⟨found, mem_append_right _ mem_cons_self, rfl, hst⟩
    · rcases h.reached with hzero | ⟨r, hr, hstop⟩
      · exact .inl hzero
      · exact .inr ⟨r, mem_append_left _ hr, hstop⟩
  · intro hadd
    obtain ⟨r, hr, hr'⟩ := h.addition hadd
    exact ⟨r, mem_append_left _ hr, hr'⟩

/-! ## One chunk -/

theorem apart_iff {r' : Replacement} : r.Apart r' ↔
    (r.start ≤ r'.start → r.start + r.oldLen ≤ r'.start) ∧ (r'.start < r.start → r'.start + r'.oldLen ≤ r.start) := by
  unfold Replacement.Apart Replacement.Before stop
  split <;> omega

include h in
theorem Turn.addition_apart_iff (newLines : List Text) :
    (∀ r ∈ prev, r.Apart ⟨additionIndex lines, 0, newLines⟩) ↔ AdditionFits lines taken := by
  simp only [apart_iff, add_zero]
  by_cases hbl : lines.getLast? = some []
  · have hindex := additionIndex_of_blank hbl
    rw [AdditionFits, forall_prop_of_true hbl]
    constructor
    · intro hap
      rcases h.reached with hzero | ⟨r, hr, hstop, hst⟩
      · omega
      · have hr := (hap r hr).1 (by omega)
        unfold stop at hstop
        omega
    · intro hlt r hr
      rcases h.placed r hr with hstop | ⟨hlen, -⟩
      · unfold stop at hstop
        omega
      · omega
  · have hindex := additionIndex_of_not_blank hbl
    refine iff_of_true (fun r hr => ?_) (fun h => absurd h hbl)
    have hins := h.inside hr
    unfold stop at hins
    omega

include h in
theorem Turn.found_apart_iff {eof : Bool}
    (hfnd : FoundFrom lines lineIndex eof found) (hins : found.stop ≤ lines.length) :
    (∀ r ∈ prev, r.Apart found) ↔ BlockFits lines taken added eof found := by
  have htaken := h.taken_le
  have hadd := additionIndex_le lines
  simp only [apart_iff, BlockFits]
  unfold stop at hins ⊢
  cases hfnd with
  | insertion hlen hst =>
      refine iff_of_true (fun r hr => ?_) ⟨fun _ hpos => by omega, fun _ _ _ => by omega⟩
      rcases h.placed r hr with hstop | ⟨hlen', -⟩
      · unfold stop at hstop
        omega
      · omega
  | behind heof hlen hst =>
      constructor
      · intro hap
        refine ⟨fun heof' => absurd (heof.symm.trans heof') Bool.false_ne_true, fun hbl hadded hend => ?_⟩
        obtain ⟨r, hr, hlen', hst'⟩ := h.addition hadded
        have hindex := additionIndex_of_blank hbl
        have hr := hap r hr
        omega
      · rintro ⟨-, halone⟩ r hr
        rcases h.placed r hr with hstop | ⟨hlen', hst' | ⟨hadded, hst'⟩⟩
        · unfold stop at hstop
          omega
        · omega
        · by_cases hbl : lines.getLast? = some []
          · have hindex := additionIndex_of_blank hbl
            have halone := halone hbl hadded
            omega
          · have hindex := additionIndex_of_not_blank hbl
            omega
  | atEnd heof hlen hstop =>
      unfold stop at hstop
      constructor
      · intro hap
        refine ⟨fun _ _ => ?_, fun hbl hadded _ => ?_⟩
        · rcases h.reached with hzero | ⟨r, hr, hstop', hst'⟩
          · omega
          · have hr := hap r hr
            unfold stop at hstop'
            omega
        · obtain ⟨r, hr, hlen', hst'⟩ := h.addition hadded
          have hindex := additionIndex_of_blank hbl
          have hr := hap r hr
          omega
      · rintro ⟨hback, halone⟩ r hr
        have hback := hback heof hlen
        rcases h.placed r hr with hstop' | ⟨hlen', hst' | ⟨hadded, hst'⟩⟩
        · unfold stop at hstop'
          omega
        · omega
        · by_cases hbl : lines.getLast? = some []
          · have hindex := additionIndex_of_blank hbl
            have halone := halone hbl hadded hstop
            omega
          · have hindex := additionIndex_of_not_blank hbl
            omega

/-! ## All chunks -/

theorem apart_cons_iff : (∀ r ∈ prev, ∀ r' ∈ found :: rs, r.Apart r') ∧ (found :: rs).Pairwise Replacement.Apart ↔
    (∀ r ∈ prev, r.Apart found) ∧ (∀ r ∈ prev ++ [found], ∀ r' ∈ rs, r.Apart r') ∧ rs.Pairwise Replacement.Apart := by
  simp only [mem_cons, forall_eq_or_imp, pairwise_cons, mem_append, not_mem_nil, or_false]
  constructor
  · rintro ⟨hprev, hfnd, hrs⟩
    refine ⟨fun r hr => (hprev r hr).1, ?_, hrs⟩
    rintro r (hr | rfl) r' hr'
    · exact (hprev r hr).2 r' hr'
    · exact hfnd r' hr'
  · rintro ⟨hfnd, hprev, hrs⟩
    exact ⟨fun r hr => ⟨hfnd r hr, hprev r (.inl hr)⟩, hprev found (.inr rfl), hrs⟩

include h in
theorem Turn.apart_iff_stayApart (hlocate : locateChunks lines path lineIndex chunks = .ok rs) :
    (∀ r ∈ prev, ∀ r' ∈ rs, r.Apart r') ∧ rs.Pairwise Replacement.Apart ↔
      StayApart lines path lineIndex taken added chunks := by
  induction chunks generalizing prev lineIndex taken added rs with
  | nil =>
      cases hlocate
      simp [StayApart]
  | cons chunk chunks ih =>
      obtain ⟨i, hctx, hck⟩ := locateChunks_cons hlocate
      obtain ⟨hle, hi⟩ := seekContext_eq_ok hctx h.lineIndex_le
      have hturn := h.forward hle hi
      rw [StayApart, hctx]
      obtain ⟨hold, rs', hrest, rfl⟩ | ⟨hold, found, rs', hfnd, hrest, rfl⟩ := hck
      · rw [apart_cons_iff, hturn.addition_apart_iff, ih (hturn.push_addition _) hrest]
        dsimp only
        rw [if_pos hold]
      · obtain ⟨hmtd, hfrom⟩ := locateOldLines_eq_ok hfnd hi
        rw [apart_cons_iff, hturn.found_apart_iff hfrom hmtd.inside,
          ih (hturn.push_found hfrom hmtd.inside) hrest]
        dsimp only
        rw [if_neg hold, hfnd]

/-- The computed replacements lie apart and amount to one substitution exactly when every chunk fits at its turn. -/
theorem computeReplacements_substituted_iff (h : computeReplacements lines path chunks = .ok rs) :
    Substituted lines chunks rs ↔ StayApart lines path 0 0 false chunks := by
  obtain ⟨located, hlocate, h⟩ := except_bind_eq_ok.mp h
  cases h
  have hmtd := locateChunks_matched hlocate (zero_le _)
  have hins : ∀ r ∈ located.insertionSort fun r r' => r.start ≤ r'.start, ∃ chunk ∈ chunks, Matched lines chunk r := by
    intro r hr
    obtain ⟨chunk, hck, hr⟩ := exists_of_mem_forall₂ hmtd ((mem_insertionSort _).mp hr)
    exact ⟨chunk, hck, hr⟩
  have hsrt : (located.insertionSort fun r r' => r.start ≤ r'.start).Pairwise Replacement.Before ↔
      StayApart lines path 0 0 false chunks := by
    rw [pairwise_insertionSort_iff, ← turn_start.apart_iff_stayApart hlocate]
    exact (and_iff_right (by simp)).symm
  constructor
  · intro hsub
    exact hsrt.mp hsub.disjoint
  · intro hstay
    have hstop : ∀ r ∈ located.insertionSort fun r r' => r.start ≤ r'.start, r.stop ≤ lines.length := by
      intro r hr
      obtain ⟨chunk, -, hr⟩ := hins r hr
      exact hr.inside
    have hdisjoint := hsrt.mpr hstay
    exact ⟨hstop, hins, hdisjoint, substitutes_applyReplacements hstop hdisjoint⟩

/-! ## Two chunks at the end of a file -/

def sampleChunk (oldLines newLines : List String) (isEndOfFile : Bool) : UpdateFileChunk :=
  { changeContext := none, oldLines := oldLines.map String.toList, newLines := newLines.map String.toList,
    isEndOfFile }

/-- A line is replaced and lines are added behind the last one. -/
theorem substituted_of_sampleChunks : Substituted ["a", "b"] [sampleChunk ["b"] ["x"] false, sampleChunk [] ["y"] false]
      [⟨1, 1, ["x"]⟩, ⟨2, 0, ["y"]⟩] := by
  have h : computeReplacements ["a", "b"] [] [sampleChunk ["b"] ["x"] false, sampleChunk [] ["y"] false] =
      .ok [⟨1, 1, ["x"]⟩, ⟨2, 0, ["y"]⟩] := by decide +kernel
  refine (computeReplacements_substituted_iff h).mpr ?_
  have hfnd : locateOldLines ["a", "b"] [] (sampleChunk ["b"] ["x"] false) 0 =
      .ok ⟨1, 1, ["x"]⟩ := by decide +kernel
  have hblock : BlockFits ["a", "b"] 0 false false ⟨1, 1, ["x"]⟩ := by decide +kernel
  have haddition : AdditionFits ["a", "b"] 2 := by decide +kernel
  simp only [StayApart]
  refine ⟨hblock, ?_⟩
  exact ⟨haddition, trivial⟩

/-- A chunk that ends the file is found there although the last line has been replaced, and lines added before an empty
last line land inside a block that reaches the end. -/
theorem replacements_overlap_at_the_end :
    computeReplacements ["a", "b"] [] [sampleChunk ["b"] ["x"] false, sampleChunk ["a", "b"] ["y"] true] =
        .ok [⟨0, 2, ["y"]⟩, ⟨1, 1, ["x"]⟩] ∧
      ¬ Substituted ["a", "b"] [sampleChunk ["b"] ["x"] false, sampleChunk ["a", "b"] ["y"] true]
        [⟨0, 2, ["y"]⟩, ⟨1, 1, ["x"]⟩] ∧
      computeReplacements ["a", []] [] [sampleChunk ["a", ""] ["x"] false, sampleChunk [] ["y"] false] =
        .ok [⟨0, 2, ["x"]⟩, ⟨1, 0, ["y"]⟩] ∧
      ¬ Substituted ["a", []] [sampleChunk ["a", ""] ["x"] false, sampleChunk [] ["y"] false]
        [⟨0, 2, ["x"]⟩, ⟨1, 0, ["y"]⟩] := by
  refine ⟨by decide +kernel, fun h => ?_, by decide +kernel, fun h => ?_⟩
  · exact absurd h.disjoint (by decide +kernel)
  · exact absurd h.disjoint (by decide +kernel)

/-! ## Ordinary chunks -/

/-- The chunk has old lines, and does not end the file. -/
def UpdateFileChunk.Ordinary (chunk : UpdateFileChunk) : Prop := chunk.oldLines ≠ [] ∧ chunk.isEndOfFile = false

theorem locateChunks_ordered (hordinary : ∀ chunk ∈ chunks, chunk.Ordinary)
    (h : locateChunks lines path lineIndex chunks = .ok rs) (hle : lineIndex ≤ lines.length) :
    (∀ r ∈ rs, lineIndex ≤ r.start) ∧ rs.Pairwise Replacement.Before := by
  induction chunks generalizing lineIndex rs with
  | nil =>
      cases h
      exact ⟨by simp, .nil⟩
  | cons chunk chunks ih =>
      obtain ⟨hold, heof⟩ := hordinary chunk mem_cons_self
      obtain ⟨i, hctx, ⟨hnil, -⟩ | ⟨-, found, rs', hfnd, hrest, rfl⟩⟩ := locateChunks_cons h
      · exact absurd hnil hold
      · obtain ⟨hi, hlen⟩ := seekContext_eq_ok hctx hle
        obtain ⟨hmtd, hfrom⟩ := locateOldLines_eq_ok hfnd hlen
        obtain ⟨hst, hord⟩ := ih (fun c hc => hordinary c (mem_cons_of_mem _ hc)) hrest hmtd.inside
        have hfst : i ≤ found.start := by
          cases hfrom with
          | insertion _ hst => exact hst.ge
          | behind _ _ hst => exact hst
          | atEnd hend => rw [heof] at hend; cases hend
        have hstop : found.start ≤ found.stop := le_add_right _ _
        refine ⟨?_, .cons hst hord⟩
        intro r hr
        rcases mem_cons.mp hr with rfl | hr
        · exact hi.trans hfst
        · exact hi.trans (hfst.trans (hstop.trans (hst r hr)))

def fileLines (contents : Text) : List Text := dropFinalEmpty (contents.splitOn '\n')

theorem newContentsFromChunks_eq_ok {contents new : Text} (h : newContentsFromChunks path contents chunks = .ok new) :
    ∃ rs, computeReplacements (fileLines contents) path chunks = .ok rs ∧
      (new = ofLines (applyReplacements (fileLines contents) rs) ↔
        (applyReplacements (fileLines contents) rs).getLast? ≠ some []) := by
  obtain ⟨rs, hrs, h⟩ := except_bind_eq_ok.mp h
  refine ⟨rs, hrs, ?_⟩
  have hnew : join ['\n'] (if (applyReplacements (fileLines contents) rs).getLast? = some [] then
      applyReplacements (fileLines contents) rs else applyReplacements (fileLines contents) rs ++ [[]]) = new :=
    Except.ok.inj h
  rw [← hnew]
  generalize applyReplacements (fileLines contents) rs = newLines
  by_cases hlast : newLines.getLast? = some []
  · obtain ⟨init, rfl⟩ := getLast?_eq_some_iff.mp hlast
    rw [if_pos hlast, join_concat, ofLines_append]
    simp [ofLines]
  · rw [if_neg hlast, join_concat]
    simp [hlast]

theorem computeReplacements_ordered (hordinary : ∀ chunk ∈ chunks, chunk.Ordinary)
    (h : computeReplacements lines path chunks = .ok rs) :
    List.Forall₂ (Matched lines) chunks rs ∧ rs.Pairwise Replacement.Before := by
  obtain ⟨located, hlocate, h⟩ := except_bind_eq_ok.mp h
  obtain ⟨-, hord⟩ := locateChunks_ordered hordinary hlocate (zero_le _)
  have hsrt : located.Pairwise fun r r' => r.start ≤ r'.start :=
    hord.imp fun {r r'} hbef => (le_add_right r.start r.oldLen).trans hbef
  have hrs : rs = located := by
    rw [← hsrt.insertionSort_eq]
    exact (Except.ok.inj h).symm
  rw [hrs]
  exact ⟨locateChunks_matched hlocate (zero_le _), hord⟩

/-- The new contents put the new lines of the chunks, in order, in the place of disjoint blocks that match their old
lines; the other lines stay, and each line ends with a line break. -/
structure BlocksReplaced (lines : List Text) (path : Text) (chunks : List UpdateFileChunk) (new : Text)
    (rs : List Replacement) : Prop where
  located : computeReplacements lines path chunks = .ok rs
  matched : List.Forall₂ (Matched lines) chunks rs
  disjoint : rs.Pairwise Replacement.Before
  rest : ∃ newLines, Splice.Substitutes 0 (rs.map splice) lines newLines ∧ new = ofLines newLines

/-- With the blocks of the chunks replaced the lines end with an empty one. -/
def LeavesBlankEnd (lines : List Text) (path : Text) (chunks : List UpdateFileChunk) : Prop :=
  ∃ rs newLines, computeReplacements lines path chunks = .ok rs ∧
    Splice.Substitutes 0 (rs.map splice) lines newLines ∧ newLines.getLast? = some []

/-- An update with ordinary chunks replaces their blocks and preserves the rest exactly if it leaves no empty line at
the end. -/
theorem ordinary_update_preserves_rest_iff {contents new : Text} (hordinary : ∀ chunk ∈ chunks, chunk.Ordinary)
    (h : newContentsFromChunks path contents chunks = .ok new) :
    (∃ rs, BlocksReplaced (fileLines contents) path chunks new rs) ↔ ¬ LeavesBlankEnd (fileLines contents) path chunks := by
  obtain ⟨rs, hrs, hnew⟩ := newContentsFromChunks_eq_ok h
  obtain ⟨hmtd, hdisjoint⟩ := computeReplacements_ordered hordinary hrs
  have hins : ∀ r ∈ rs, r.stop ≤ (fileLines contents).length := by
    intro r hr
    obtain ⟨chunk, -, hr⟩ := exists_of_mem_forall₂ hmtd hr
    exact hr.inside
  have hsub := substitutes_applyReplacements hins hdisjoint
  constructor
  · rintro ⟨rs', hblocks⟩ ⟨rs'', newLines', hrs'', hsub'', hlast⟩
    cases hrs.symm.trans hblocks.located
    cases hrs.symm.trans hrs''
    obtain ⟨newLines, hsub', hnew'⟩ := hblocks.rest
    rw [hsub'.unique hsub] at hnew'
    rw [hsub''.unique hsub] at hlast
    exact hnew.mp hnew' hlast
  · intro hbl
    have hlast : (applyReplacements (fileLines contents) rs).getLast? ≠ some [] :=
      fun hlast => hbl ⟨rs, _, hrs, hsub, hlast⟩
    exact ⟨rs, hrs, hmtd, hdisjoint, _, hsub, hnew.mpr hlast⟩

theorem ordinary_update_preserves_rest_of_sample :
    ∃ rs, BlocksReplaced (fileLines "a\nb\n") [] [sampleChunk ["a"] ["x", "y"] false] "x\ny\nb\n" rs := by
  have hordinary : ∀ chunk ∈ [sampleChunk ["a"] ["x", "y"] false], chunk.Ordinary := by
    intro chunk hck
    cases mem_singleton.mp hck
    exact ⟨by decide, rfl⟩
  have h : newContentsFromChunks [] "a\nb\n" [sampleChunk ["a"] ["x", "y"] false] = .ok "x\ny\nb\n" := by
    decide +kernel
  refine (ordinary_update_preserves_rest_iff hordinary h).mpr ?_
  rintro ⟨rs, newLines, hrs, hsub, hlast⟩
  have hrs' : computeReplacements (fileLines "a\nb\n") [] [sampleChunk ["a"] ["x", "y"] false] =
      .ok [⟨0, 1, ["x", "y"]⟩] := by decide +kernel
  cases hrs.symm.trans hrs'
  have hnew := hsub.unique (substitutes_applyReplacements (by decide +kernel) (by decide +kernel))
  rw [hnew] at hlast
  revert hlast
  decide +kernel

/-- The first line of a file is replaced, and the empty line at its end is lost. -/
theorem blank_line_at_the_end_is_lost : newContentsFromChunks [] "a\n\n" [sampleChunk ["a"] ["x"] false] = .ok "x\n" ∧
      ¬ ∃ rs, BlocksReplaced (fileLines "a\n\n") [] [sampleChunk ["a"] ["x"] false] "x\n" rs := by
  refine ⟨by decide +kernel, ?_⟩
  rintro ⟨rs, hblocks⟩
  have hrs : computeReplacements (fileLines "a\n\n") [] [sampleChunk ["a"] ["x"] false] =
      .ok [⟨0, 1, ["x"]⟩] := by decide +kernel
  cases hblocks.located.symm.trans hrs
  obtain ⟨newLines, hsub, hnew⟩ := hblocks.rest
  have hlns := hsub.unique (substitutes_applyReplacements (by decide +kernel) (by decide +kernel))
  rw [hlns] at hnew
  revert hnew
  decide +kernel

end CodexStudy.ApplyPatch
