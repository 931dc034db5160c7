import CodexStudy.NewCore.Theorems.DiffParsing
import CodexStudy.NewCore.Engine

/-!
# Merging hunks

The diff of two lists of lines, what a merge of some of its hunks should give, and which merges give it.
-/

namespace CodexStudy.NewCore

open CodexStudy.Lib List HunkLine Text Diff.ParsedHunk

/-! ## The diff of two lists of lines -/

namespace GitHunk

def old (hunk : GitHunk) : List Text := hunk.lines.filterMap old?

def new (hunk : GitHunk) : List Text := hunk.lines.filterMap new?

end GitHunk

structure Segment where
  gap : List Text
  hunk : GitHunk

def rangeStart (before : Nat) (lines : List Text) : Nat := if lines = [] then before else before + 1

def Numbered : Nat → Nat → List Segment → Prop
  | _, _, [] => True
  | old, new, ⟨gap, hunk⟩ :: segments =>
      (hunk.oldStart = rangeStart (old + gap.length) hunk.old ∧ hunk.oldLines = hunk.old.length ∧
        hunk.newStart = rangeStart (new + gap.length) hunk.new ∧ hunk.newLines = hunk.new.length) ∧
      Numbered (old + gap.length + hunk.old.length) (new + gap.length + hunk.new.length) segments

def patched (chosen : List Nat) (rest : List Text) : Nat → List Segment → List Text
  | _, [] => rest
  | i, ⟨gap, hunk⟩ :: segments =>
      gap ++ (if i ∈ chosen then hunk.new else hunk.old) ++ patched chosen rest (i + 1) segments

structure LineDiff where
  file : GitFile
  segments : List Segment
  rest : List Text
  hunks : file.hunks = segments.map Segment.hunk
  numbered : Numbered 0 0 segments

namespace LineDiff

variable (diff : LineDiff)

def oldLines : List Text := diff.segments.flatMap (fun segment => segment.gap ++ segment.hunk.old) ++ diff.rest

def newLines : List Text := diff.segments.flatMap (fun segment => segment.gap ++ segment.hunk.new) ++ diff.rest

def withHunks (chosen : List Nat) : List Text := patched chosen diff.rest 0 diff.segments

/-- What `apply_parsed_hunks` makes of the old lines with the hunks that are parsed from the diff. -/
def MergesTo (chosen : List Nat) (merged : List Text) : Prop :=
  ∃ found, (Diff.parseUnifiedDiff (renderDiff [diff.file])).lookup diff.file.path = some found ∧
    applyParsedHunks diff.oldLines (found.hunks.map forget) chosen = .ok merged

end LineDiff

theorem patched_of_all {chosen : List Nat} {rest : List Text} {i : Nat} {segments : List Segment}
    (h : ∀ j, i ≤ j → j < i + segments.length → j ∈ chosen) :
    patched chosen rest i segments = segments.flatMap (fun segment => segment.gap ++ segment.hunk.new) ++ rest := by
  induction segments generalizing i with
  | nil => rfl
  | cons segment segments ih =>
      have hi : i ∈ chosen := h i le_rfl (by simp)
      have hrest := ih (i := i + 1) fun j hj hlt => h j (by omega) (by rw [length_cons]; omega)
      rw [patched, if_pos hi, hrest]
      simp

theorem patched_of_none {chosen : List Nat} {rest : List Text} {i : Nat} {segments : List Segment}
    (h : ∀ j, i ≤ j → j < i + segments.length → j ∉ chosen) :
    patched chosen rest i segments = segments.flatMap (fun segment => segment.gap ++ segment.hunk.old) ++ rest := by
  induction segments generalizing i with
  | nil => rfl
  | cons segment segments ih =>
      have hi : i ∉ chosen := h i le_rfl (by simp)
      have hrest := ih (i := i + 1) fun j hj hlt => h j (by omega) (by rw [length_cons]; omega)
      rw [patched, if_neg hi, hrest]
      simp

theorem LineDiff.withHunks_of_all (diff : LineDiff) {chosen : List Nat} (h : ∀ i < diff.segments.length, i ∈ chosen) :
    diff.withHunks chosen = diff.newLines :=
  patched_of_all fun j _ hj => h j (by omega)

/-! ## One hunk at its place -/

/-- The hunk has added and removed lines only, each added one is kept by the parser, and one that only adds lines stands
at the beginning or copies the line before it. -/
structure SplicesRight (before : List Text) (hunk : GitHunk) : Prop where
  noContext : ∀ text, context text ∉ hunk.lines
  kept : ∀ text ∈ hunk.additions, text ≠ [] ∧ text.getLast? ≠ some '\r'
  insertion : hunk.old = [] → ∀ last ∈ before.getLast?, ∀ text ∈ hunk.additions, text = last

section

variable {hunk : GitHunk} {parsed : Diff.ParsedHunk} {before behind : List Text}

theorem length_additions_le (lines : List HunkLine) : (lines.filterMap added?).length ≤ (lines.filterMap new?).length ∧
      ((lines.filterMap added?).length = (lines.filterMap new?).length → ∀ text, context text ∉ lines) := by
  induction lines with
  | nil => exact ⟨le_rfl, fun _ text h => absurd h not_mem_nil⟩
  | cons line lines ih =>
      obtain ⟨hle, hno⟩ := ih
      cases line with
      | context text =>
          have hadd : (context text :: lines).filterMap added? = lines.filterMap added? := rfl
          have hnew : (context text :: lines).filterMap new? =
              text :: lines.filterMap new? := rfl
          rw [hadd, hnew, length_cons]
          exact ⟨by omega, fun heq => by omega⟩
      | removed text =>
          refine ⟨hle, fun heq text' hmem => hno heq text' ?_⟩
          simpa using hmem
      | added text =>
          have hadd : (added text :: lines).filterMap added? =
              text :: lines.filterMap added? := rfl
          have hnew : (added text :: lines).filterMap new? =
              text :: lines.filterMap new? := rfl
          rw [hadd, hnew, length_cons, length_cons]
          refine ⟨by omega, fun heq text' hmem => hno (by omega) text' ?_⟩
          simpa using hmem
      | noNewline =>
          refine ⟨hle, fun heq text' hmem => hno heq text' ?_⟩
          simpa using hmem

theorem additions_eq_new (h : ∀ text, context text ∉ hunk.lines) : hunk.additions = hunk.new := by
  refine filterMap_congr fun line hline => ?_
  cases line with
  | context text => exact absurd hline (h text)
  | _ => rfl

theorem keptTexts_length_le (texts : List Text) : (keptTexts texts).length ≤ texts.length :=
  (length_filter_le _ _).trans (by rw [length_map])

theorem keptTexts_additions_eq_new : keptTexts hunk.additions = hunk.new ↔ (∀ text, context text ∉ hunk.lines) ∧
      ∀ text ∈ hunk.additions, text ≠ [] ∧ text.getLast? ≠ some '\r' := by
  obtain ⟨hle, hno⟩ := length_additions_le hunk.lines
  rw [← keptTexts_eq_self]
  constructor
  · intro heq
    have hlen := congrArg length heq
    have hkept := keptTexts_length_le hunk.additions
    have hctx : ∀ text, context text ∉ hunk.lines := by
      refine hno ?_
      change hunk.additions.length = hunk.new.length
      have hle' : hunk.additions.length ≤ hunk.new.length := hle
      omega
    exact ⟨hctx, heq.trans (additions_eq_new hctx).symm⟩
  · rintro ⟨hctx, hkept⟩
    exact hkept.trans (additions_eq_new hctx)

theorem spliceHunk_of_le {lines : List Text} {parsed : ParsedHunk}
    (h : parsed.oldStart - 1 + parsed.oldLines ≤ lines.length) :
    spliceHunk lines parsed = .ok (lines.take (parsed.oldStart - 1) ++ parsed.additions ++
      lines.drop (parsed.oldStart - 1 + parsed.oldLines)) := by
  rw [spliceHunk]
  simp only [min_eq_left h]
  exact if_pos (Nat.le_add_right _ _)

theorem length_between {f : Text → Text} (hf : ∀ text, (f text).length ≤ text.length) {texts : List Text} {first last : Text}
    (h : texts.map f ++ [last] = first :: texts) : ∀ text ∈ texts, first.length ≤ text.length ∧ text.length ≤ last.length := by
  induction texts generalizing first with
  | nil => exact fun text htext => absurd htext not_mem_nil
  | cons second texts ih =>
      rw [map_cons, cons_append, cons.injEq] at h
      obtain ⟨hfst, hrest⟩ := h
      have hsecond : first.length ≤ second.length := hfst ▸ hf second
      have hbetween := ih hrest
      intro text htext
      rcases mem_cons.mp htext with rfl | htext
      · cases texts with
        | nil =>
            cases hrest
            exact ⟨hsecond, le_rfl⟩
        | cons third texts =>
            obtain ⟨hlow, hhigh⟩ := hbetween third mem_cons_self
            exact ⟨hsecond, hlow.trans hhigh⟩
      · obtain ⟨hlow, hhigh⟩ := hbetween text htext
        exact ⟨hsecond.trans hlow, hhigh⟩

theorem length_stripCr_le (text : Text) : (stripCr text).length ≤ text.length := by
  unfold stripCr
  split
  · rw [length_dropLast]
    omega
  · exact le_rfl

theorem stripCr_eq_of_length {text : Text} (h : (stripCr text).length = text.length) : stripCr text = text := by
  unfold stripCr at h ⊢
  split at h
  · rename_i hlast
    have hpos : 0 < text.length := length_pos_of_mem (mem_of_getLast? hlast)
    rw [length_dropLast] at h
    omega
  · rename_i hlast
    rw [if_neg hlast]

/-- Lines added in front of the last one instead of behind it are in place exactly if all are kept and copies of it. -/
theorem insertion_iff {last : Text} : keptTexts hunk.additions ++ [last] = last :: hunk.new ↔
      keptTexts hunk.additions = hunk.new ∧ ∀ text ∈ hunk.additions, text = last := by
  obtain ⟨hle, hno⟩ := length_additions_le hunk.lines
  constructor
  · intro heq
    have hlen := congrArg length heq
    rw [length_append, length_singleton, length_cons] at hlen
    have hkept := keptTexts_length_le hunk.additions
    have hle' : hunk.additions.length ≤ hunk.new.length := hle
    have hnew : hunk.additions = hunk.new := additions_eq_new (hno (by change hunk.additions.length = hunk.new.length; omega))
    have hall : keptTexts hunk.additions = hunk.additions.map stripCr := by
      refine filter_eq_self.mpr (length_filter_eq_length_iff.mp ?_)
      change (keptTexts hunk.additions).length = _
      rw [length_map]
      omega
    rw [← hnew, hall] at heq
    have hsame : ∀ text ∈ hunk.additions, text.length = last.length := by
      intro text htext
      obtain ⟨hlow, hhigh⟩ := length_between length_stripCr_le heq text htext
      omega
    have hself : hunk.additions.map stripCr = hunk.additions := by
      refine (map_congr_left fun text htext => stripCr_eq_of_length ?_).trans (map_id _)
      have hmem : stripCr text ∈ last :: hunk.additions := by
        rw [← heq]
        exact mem_append_left _ (mem_map_of_mem htext)
      rw [hsame text htext]
      rcases mem_cons.mp hmem with hlast | hmem
      · rw [hlast]
      · exact hsame _ hmem
    rw [hself] at heq
    refine ⟨hall.trans (hself.trans hnew), ?_⟩
    -- The texts are shifted by one, so each of them is the one behind it.
    have hshift : ∀ (texts : List Text), texts ++ [last] = last :: texts → ∀ text ∈ texts, text = last := by
      intro texts
      induction texts with
      | nil => exact fun _ text htext => absurd htext not_mem_nil
      | cons first texts ih =>
          intro h text htext
          rw [cons_append, cons.injEq] at h
          obtain ⟨rfl, h⟩ := h
          rcases mem_cons.mp htext with rfl | htext
          · rfl
          · exact ih h text htext
    exact hshift hunk.additions heq
  · rintro ⟨hkept, hcopies⟩
    have hnew := keptTexts_additions_eq_new.mp hkept
    rw [hkept, ← additions_eq_new hnew.1, eq_replicate_of_mem hcopies, ← replicate_succ,
      ← replicate_succ']

theorem spliceHunk_right_iff (hrds : Reads hunk parsed) (hst : hunk.oldStart = rangeStart before.length hunk.old)
    (hcnt : hunk.oldLines = hunk.old.length) :
    spliceHunk (before ++ hunk.old ++ behind) parsed.forget = .ok (before ++ hunk.new ++ behind) ↔
      SplicesRight before hunk := by
  have hparsedStart : parsed.forget.oldStart = rangeStart before.length hunk.old := hrds.ranges.1.trans hst
  have hparsedLines : parsed.forget.oldLines = hunk.old.length := hrds.ranges.2.1.trans hcnt
  have hadditions : parsed.forget.additions = keptTexts hunk.additions := hrds.additions
  have hright : SplicesRight before hunk ↔ keptTexts hunk.additions = hunk.new ∧
      (hunk.old = [] → ∀ last ∈ before.getLast?, ∀ text ∈ hunk.additions, text = last) := by
    rw [keptTexts_additions_eq_new]
    exact ⟨fun h => ⟨⟨h.noContext, h.kept⟩, h.insertion⟩, fun h => ⟨h.1.1, h.1.2, h.2⟩⟩
  rw [hright]
  by_cases hold : hunk.old = []
  · have hpl : parsed.forget.oldStart - 1 = before.length - 1 := by rw [hparsedStart, rangeStart, if_pos hold]
    have hnone : parsed.forget.oldLines = 0 := by rw [hparsedLines, hold, length_nil]
    rw [spliceHunk_of_le (by rw [hpl, hnone, length_append, length_append]; omega), hpl, hnone, hadditions,
      hold, append_nil, Nat.add_zero, Except.ok.injEq]
    rcases eq_nil_or_concat before with rfl | ⟨front, last, rfl⟩
    · simp
    · rw [concat_eq_append]
      have htake : (front ++ [last] ++ behind).take ((front ++ [last]).length - 1) = front := by simp
      have hdrop : (front ++ [last] ++ behind).drop ((front ++ [last]).length - 1) = last :: behind := by simp
      rw [htake, hdrop]
      have hassoc : front ++ keptTexts hunk.additions ++ last :: behind =
          front ++ (keptTexts hunk.additions ++ [last]) ++ behind := by simp
      have hassoc' : front ++ [last] ++ hunk.new ++ behind = front ++ (last :: hunk.new) ++ behind := by simp
      rw [hassoc, hassoc', append_left_inj, append_right_inj, insertion_iff]
      simp
  · have hpl : parsed.forget.oldStart - 1 = before.length := by
      rw [hparsedStart, rangeStart, if_neg hold, Nat.add_sub_cancel]
    rw [spliceHunk_of_le (by rw [hpl, hparsedLines]; simp), hpl, hparsedLines, hadditions]
    rw [append_assoc before, take_left, ← append_assoc before, ← length_append, drop_left,
      Except.ok.injEq, append_left_inj, append_right_inj]
    exact ⟨fun h => ⟨h, fun hnil => absurd hnil hold⟩, fun h => h.1⟩

end

/-! ## The chosen hunks, one after the other -/

/-- Every chosen hunk is spliced right, and the hunks chosen before it have not changed the number of lines. -/
def InPlace (chosen : List Nat) : Nat → List Text → Nat → List Segment → Prop
  | _, _, _, [] => True
  | i, before, old, ⟨gap, hunk⟩ :: segments =>
      (i ∈ chosen → before.length = old ∧ SplicesRight (before ++ gap) hunk) ∧
      InPlace chosen (i + 1) (before ++ gap ++ if i ∈ chosen then hunk.new else hunk.old)
        (old + gap.length + hunk.old.length) segments

def LineDiff.InPlace (diff : LineDiff) (chosen : List Nat) : Prop := NewCore.InPlace chosen 0 [] 0 diff.segments

def picked (chosen : List Nat) (i : Nat) (parsed : List ParsedHunk) : List ParsedHunk :=
  ((parsed.zipIdx i).filter fun h => chosen.contains h.2).map Prod.fst

section

variable {chosen : List Nat} {rest : List Text} {segments : List Segment} {parseds : List Diff.ParsedHunk}

theorem picked_cons (i : Nat) (parsed : ParsedHunk) (more : List ParsedHunk) :
    picked chosen i (parsed :: more) =
      if i ∈ chosen then parsed :: picked chosen (i + 1) more else picked chosen (i + 1) more := by
  unfold picked
  rw [zipIdx_cons, filter_cons]
  by_cases hi : i ∈ chosen
  · rw [if_pos (by simpa using hi), if_pos hi, map_cons]
  · rw [if_neg (by simpa using hi), if_neg hi]

variable {i old new : Nat} {before : List Text}

theorem picked_of_none {parsed : List ParsedHunk} (h : ∀ j, i ≤ j → j < i + parsed.length → j ∉ chosen) :
    picked chosen i parsed = [] := by
  induction parsed generalizing i with
  | nil => rfl
  | cons first parsed ih =>
      rw [picked_cons, if_neg (h i le_rfl (by simp))]
      exact ih fun j hj hlt => h j (by omega) (by rw [length_cons]; omega)

variable (hnum : Numbered old new segments) (hrds : List.Forall₂ Reads (segments.map Segment.hunk) parseds)

include hnum hrds in
theorem pairwise_oldStart :
    (∀ parsed ∈ parseds.map forget, old ≤ parsed.oldStart) ∧
      (parseds.map forget).Pairwise fun a b => a.oldStart ≤ b.oldStart := by
  induction segments generalizing old new parseds with
  | nil =>
      cases hrds
      exact ⟨fun parsed h => absurd h not_mem_nil, .nil⟩
  | cons segment segments ih =>
      obtain ⟨gap, hunk⟩ := segment
      cases hrds with
      | @cons _ parsed _ parseds hread hrds =>
          obtain ⟨⟨hst, -⟩, hnum⟩ := hnum
          obtain ⟨hlow, hsrt⟩ := ih hnum hrds
          have hparsed : parsed.forget.oldStart = rangeStart (old + gap.length) hunk.old := hread.ranges.1.trans hst
          have hbounds : old ≤ parsed.forget.oldStart ∧ parsed.forget.oldStart ≤ old + gap.length + hunk.old.length := by
            rw [hparsed, rangeStart]
            split
            · omega
            · rename_i hne
              have := length_pos_iff.mpr hne
              omega
          rw [map_cons]
          refine ⟨fun parsed' h => ?_, pairwise_cons.mpr ⟨fun parsed' h => hbounds.2.trans (hlow parsed' h), hsrt⟩⟩
          rcases mem_cons.mp h with rfl | h
          · exact hbounds.1
          · have := hlow parsed' h
            omega

include hnum hrds in
theorem applyParsedHunks_eq_foldlM (original : List Text) :
    applyParsedHunks original (parseds.map forget) chosen =
      (picked chosen 0 (parseds.map forget)).foldlM spliceHunk original := by
  have hsublist : (picked chosen 0 (parseds.map forget)).Sublist (parseds.map forget) := by
    have hfst : ((parseds.map forget).zipIdx 0).map Prod.fst = parseds.map forget :=
      zipIdx_map_fst _ _
    conv => rhs; rw [← hfst]
    exact filter_sublist.map _
  have hsrt := (pairwise_oldStart hnum hrds).2.sublist hsublist
  exact congrArg (foldlM spliceHunk original) hsrt.insertionSort_eq

theorem oldLines_cons (before gap : List Text) (hunk : GitHunk) (segments : List Segment) (rest : List Text) :
    before ++ ((Segment.mk gap hunk :: segments).flatMap (fun segment => segment.gap ++ segment.hunk.old) ++ rest) =
      before ++ gap ++ hunk.old ++ (segments.flatMap (fun segment => segment.gap ++ segment.hunk.old) ++ rest) := by
  simp

theorem patched_cons (before gap : List Text) (hunk : GitHunk) (segments : List Segment) (i : Nat) :
    before ++ patched chosen rest i (Segment.mk gap hunk :: segments) =
      before ++ gap ++ (if i ∈ chosen then hunk.new else hunk.old) ++ patched chosen rest (i + 1) segments := by
  simp [patched]

include hnum hrds in
theorem foldlM_of_inPlace
    (hpl : NewCore.InPlace chosen i before old segments) : (picked chosen i (parseds.map forget)).foldlM spliceHunk
        (before ++ (segments.flatMap (fun segment => segment.gap ++ segment.hunk.old) ++ rest)) =
      .ok (before ++ patched chosen rest i segments) := by
  induction segments generalizing i old new before parseds with
  | nil =>
      cases hrds
      rfl
  | cons segment segments ih =>
      obtain ⟨gap, hunk⟩ := segment
      cases hrds with
      | @cons _ parsed _ parseds hread hrds =>
          obtain ⟨⟨hst, hcnt, -⟩, hnum⟩ := hnum
          obtain ⟨hhere, hpl⟩ := hpl
          have hrest := ih hnum hrds hpl
          rw [map_cons, picked_cons, oldLines_cons, patched_cons]
          by_cases hi : i ∈ chosen
          · obtain ⟨hlen, hright⟩ := hhere hi
            have hst' : hunk.oldStart = rangeStart (before ++ gap).length hunk.old := by
              rw [hst, length_append, hlen]
            have hsplice : ∀ behind, spliceHunk (before ++ gap ++ hunk.old ++ behind) parsed.forget =
                .ok (before ++ gap ++ hunk.new ++ behind) :=
              fun behind => (spliceHunk_right_iff hread hst' hcnt).mpr hright
            rw [if_pos hi] at hrest ⊢
            rw [if_pos hi, foldlM_cons, hsplice]
            exact hrest
          · rw [if_neg hi] at hrest ⊢
            rw [if_neg hi]
            exact hrest

theorem inPlace_of_none (h : ∀ j, i ≤ j → j < i + segments.length → j ∉ chosen) :
    NewCore.InPlace chosen i before old segments := by
  induction segments generalizing i old before with
  | nil => trivial
  | cons segment segments ih =>
      refine ⟨fun hi => absurd hi (h i le_rfl (by simp)), ih fun j hj hlt => h j (by omega) ?_⟩
      rw [length_cons]
      omega

theorem foldlM_single_iff {n : Nat} (hnum : Numbered old new segments)
    (hrds : List.Forall₂ Reads (segments.map Segment.hunk) parseds) (hlen : before.length = old) (hle : i ≤ n)
    (hlt : n < i + segments.length) (hone : ∀ j, i ≤ j → j < i + segments.length → (j ∈ chosen ↔ j = n)) :
    (picked chosen i (parseds.map forget)).foldlM spliceHunk
        (before ++ (segments.flatMap (fun segment => segment.gap ++ segment.hunk.old) ++ rest)) =
      .ok (before ++ patched chosen rest i segments) ↔ NewCore.InPlace chosen i before old segments := by
  induction segments generalizing i old new before parseds with
  | nil =>
      rw [length_nil] at hlt
      omega
  | cons segment segments ih =>
      obtain ⟨gap, hunk⟩ := segment
      rw [length_cons] at hlt hone
      cases hrds with
      | @cons _ parsed _ parseds hread hrds =>
          obtain ⟨⟨hst, hcnt, -⟩, hnum⟩ := hnum
          rw [map_cons, picked_cons, oldLines_cons, patched_cons, NewCore.InPlace]
          by_cases hi : i = n
          · have hcho : i ∈ chosen := (hone i le_rfl (by omega)).mpr hi
            have hnone : ∀ j, i + 1 ≤ j → j < i + 1 + segments.length → j ∉ chosen := by
              intro j hj hj' hmem
              have := (hone j (by omega) (by omega)).mp hmem
              omega
            have hst' : hunk.oldStart = rangeStart (before ++ gap).length hunk.old := by
              rw [hst, length_append, hlen]
            have hlast : picked chosen (i + 1) (parseds.map forget) = [] := by
              refine picked_of_none fun j hj hj' => hnone j hj ?_
              rwa [length_map, ← hrds.length_eq, length_map] at hj'
            have hend : ∀ spliced : Except CodexNewError (List Text), (spliced >>= fun lines => [].foldlM spliceHunk lines) =
                spliced := by
              intro spliced
              cases spliced with
              | ok _ => rfl
              | error _ => rfl
            rw [if_pos hcho, if_pos hcho, hlast, patched_of_none hnone, foldlM_cons, hend,
              spliceHunk_right_iff hread hst' hcnt]
            exact ⟨fun h => ⟨fun _ => ⟨hlen, h⟩, inPlace_of_none hnone⟩, fun h => (h.1 hcho).2⟩
          · have hcho : i ∉ chosen := fun hmem => hi ((hone i le_rfl (by omega)).mp hmem)
            have hlen' : (before ++ gap ++ hunk.old).length = old + gap.length + hunk.old.length := by
              rw [length_append, length_append, hlen]
            rw [if_neg hcho, if_neg hcho]
            refine (ih hnum hrds hlen' (by omega) (by omega) fun j hj hj' => ?_).trans ?_
            · exact hone j (by omega) (by omega)
            · exact ⟨fun h => ⟨fun hmem => absurd hmem hcho, h⟩, fun h => h.2⟩

end

/-! ## The whole diff -/

/-- A file whose path needs no quotation marks is returned, and no other one. -/
theorem parseUnifiedDiff_single (file : GitFile) :
    (file.Plain ∧ ∃ found, (Diff.parseUnifiedDiff (renderDiff [file])).lookup file.path = some found ∧
        List.Forall₂ Reads file.hunks found.hunks) ∨
      (¬ file.Plain ∧ (Diff.parseUnifiedDiff (renderDiff [file])).lookup file.path = none) := by
  obtain ⟨entries, hents, hparsed⟩ := parseUnifiedDiff_renderDiff [file]
  have hfnd := lookup_isSome_iff_kept hents file.path
  rw [← hparsed] at hfnd
  by_cases hpl : file.Plain
  · rw [keptFiles, if_pos hpl] at hents hfnd
    obtain ⟨found, hlk⟩ := Option.isSome_iff_exists.mp (hfnd.mpr mem_cons_self)
    rw [hparsed] at hlk ⊢
    have hrds := file_of_lookup hents (nodup_singleton _) mem_cons_self hlk
    exact .inl ⟨hpl, found, hlk, hrds⟩
  · rw [keptFiles, if_neg hpl] at hfnd
    refine .inr ⟨hpl, Option.not_isSome_iff_eq_none.mp fun hsome => ?_⟩
    exact not_mem_nil (hfnd.mp hsome)

/-- A merge of hunks gives the old lines with these hunks applied when the path needs no quotation marks and the hunks
are in their places; for a single hunk only then. All hunks give the new lines. -/
theorem merge_applies_hunks (diff : LineDiff) (chosen : List Nat) :
    (diff.file.Plain → diff.InPlace chosen → diff.MergesTo chosen (diff.withHunks chosen)) ∧
      ((∃ n < diff.segments.length, ∀ j < diff.segments.length, j ∈ chosen ↔ j = n) →
        (diff.MergesTo chosen (diff.withHunks chosen) ↔ diff.file.Plain ∧ diff.InPlace chosen)) ∧
      ((∀ i < diff.segments.length, i ∈ chosen) → diff.withHunks chosen = diff.newLines) := by
  refine ⟨fun hpl hplace => ?_, ?_, fun hall => diff.withHunks_of_all hall⟩
  · rcases parseUnifiedDiff_single diff.file with ⟨-, found, hlk, hrds⟩ | ⟨hquoted, -⟩
    · rw [diff.hunks] at hrds
      refine ⟨found, hlk, ?_⟩
      rw [applyParsedHunks_eq_foldlM diff.numbered hrds]
      exact foldlM_of_inPlace diff.numbered hrds hplace
    · exact absurd hpl hquoted
  · rintro ⟨n, hn, hone⟩
    rcases parseUnifiedDiff_single diff.file with ⟨hpl, found, hlk, hrds⟩ | ⟨hquoted, hlk⟩
    · rw [diff.hunks] at hrds
      have hiff : (picked chosen 0 (found.hunks.map forget)).foldlM spliceHunk diff.oldLines =
          .ok (diff.withHunks chosen) ↔ diff.InPlace chosen :=
        foldlM_single_iff diff.numbered hrds (length_nil) (Nat.zero_le n) (by omega)
          fun j _ hj => hone j (by omega)
      rw [← applyParsedHunks_eq_foldlM diff.numbered hrds] at hiff
      constructor
      · rintro ⟨found', hlk', hmrg⟩
        cases hlk.symm.trans hlk'
        exact ⟨hpl, hiff.mp hmrg⟩
      · exact fun h => ⟨found, hlk, hiff.mpr h.2⟩
    · refine iff_of_false ?_ fun h => hquoted h.1
      rintro ⟨found, hfnd, -⟩
      cases hlk.symm.trans hfnd

/-! ## A line of context -/

/-- The second line of two is replaced, and the hunk shows the first one too. -/
def sampleContextHunk : GitHunk :=
  { oldStart := 1, oldLines := 2, newStart := 1, newLines := 2, heading := " f",
    lines := [.context "x", .removed "y", .added "z"], fits := by decide,
    heading_oneLine := by decide, lines_oneLine := by decide }

def sampleContextDiff : LineDiff :=
  { file :=
      { path := "b.txt", headers := ["--- a/b.txt", "+++ b/b.txt"], hunks := [sampleContextHunk],
        path_noSpace := by decide, headers_plain := by decide }
    segments := [⟨[], sampleContextHunk⟩], rest := ["end"], hunks := rfl,
    numbered := ⟨⟨rfl, rfl, rfl, rfl⟩, trivial⟩ }

/-- The line of context is gone after the merge. -/
theorem context_is_lost : sampleContextDiff.MergesTo [0] ["z".toList, "end".toList] ∧
      sampleContextDiff.newLines = ["x".toList, "z".toList, "end".toList] ∧
      ¬ sampleContextDiff.MergesTo [0] sampleContextDiff.newLines := by
  rcases parseUnifiedDiff_single sampleContextDiff.file with ⟨-, found, hlk, hrds⟩ | ⟨hquoted, -⟩
  · have hhs : found.hunks.map forget = [⟨1, 2, ["z".toList]⟩] := by
      generalize found.hunks = parseds at hrds
      cases hrds with
      | @cons _ parsed _ _ hread hnil =>
          cases hnil
          have hparsed : parsed.forget = ⟨1, 2, ["z".toList]⟩ := by
            rw [forget, hread.ranges.1, hread.ranges.2.1, hread.additions]
            decide
          rw [map_singleton, hparsed]
    have hmrg : applyParsedHunks sampleContextDiff.oldLines [⟨1, 2, ["z".toList]⟩] [0] =
        .ok ["z".toList, "end".toList] := rfl
    refine ⟨⟨found, hlk, by rw [hhs, hmrg]⟩, rfl, ?_⟩
    rintro ⟨found', hlk', hmrg'⟩
    cases hlk.symm.trans hlk'
    rw [hhs, hmrg] at hmrg'
    exact absurd hmrg' (by decide)
  · exact absurd (by decide) hquoted

end CodexStudy.NewCore
