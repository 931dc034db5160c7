import CodexStudy.NewCore.GitDiff
import CodexStudy.Lib.Lists

/-!
# The parsed diff

Which files and which lines of a diff the parser returns.
-/

namespace CodexStudy.NewCore

open CodexStudy.Lib List GitFile Text Diff.Parser

/-! ## What a faithful parser returns -/

/-- What is parsed has the ranges and the lines of the hunk. -/
structure ShowsHunk (hunk : GitHunk) (parsed : Diff.ParsedHunk) : Prop where
  ranges : parsed.oldStart = hunk.oldStart ∧ parsed.oldLines = hunk.oldLines ∧ parsed.newStart = hunk.newStart ∧
    parsed.newLines = hunk.newLines
  removals : parsed.removals = hunk.removals
  additions : parsed.additions = hunk.additions

/-- The parsed map has exactly the paths of the files, and under each the hunks of its file in their order. -/
structure ShowsFiles (files : List GitFile) (parsed : List (Text × Diff.ParsedFileDiff)) : Prop where
  paths : ∀ path, (parsed.lookup path).isSome ↔ path ∈ files.map GitFile.path
  hunks : ∀ file ∈ files, ∀ found, parsed.lookup file.path = some found → List.Forall₂ ShowsHunk file.hunks found.hunks

/-- A removed or added line is kept as it is: it is not empty, and no carriage return ends it. -/
def HunkLine.Kept : HunkLine → Prop
  | removed text => text ≠ [] ∧ text.getLast? ≠ some '\r'
  | added text => text ≠ [] ∧ text.getLast? ≠ some '\r'
  | _ => True

/-- No path needs quotation marks, every file but the last has a hunk, and the lines are kept. -/
structure ReadableDiff (files : List GitFile) : Prop where
  plain : ∀ file ∈ files, file.Plain
  hunks : ∀ file ∈ files.dropLast, file.hunks ≠ []
  lines : ∀ file ∈ files, ∀ hunk ∈ file.hunks, ∀ line ∈ hunk.lines, line.Kept

/-! ## The files that are returned -/

def keptFiles : List GitFile → List GitFile
  | [] => []
  | [file] => if file.Plain then [file] else []
  | file :: next :: files =>
      if file.Plain ∧ file.hunks ≠ [] then file :: keptFiles (next :: files) else keptFiles (next :: files)

variable (file : GitFile) (files : List GitFile)

def EntryOf (entry : Text × Diff.ParsedFileDiff) : Prop :=
  entry.1 = file.path ∧ List.Forall₂ Reads file.hunks entry.2.hunks

theorem foldl_file (st : Diff.Parser) : ∃ st',
    (file.render.map stripCr).foldl line st = st' ∧ st'.files = st.flush ∧
    st'.currentPath = (if file.Plain then some file.path else none) ∧
    List.Forall₂ Reads file.hunks st'.file.hunks ∧ (st'.currentHunk.isSome ↔ file.hunks ≠ []) := by
  have hname : st.line (stripCr file.nameLine) =
      { files := st.flush, currentPath := if file.Plain then some file.path else none, current := ⟨false, []⟩,
        currentHunk := none } := by
    rw [stripCr_eq_self (nameLine_oneLine file (.inr rfl)), line, parseDiffGitPath_nameLine, if_pos]
    exact prefix_append _ _
  obtain ⟨isBinary, hheaders⟩ := foldl_headers (fun line hline => (file.headers_plain line hline).2)
    { files := st.flush, currentPath := if file.Plain then some file.path else none, current := ⟨false, []⟩,
      currentHunk := none } rfl
  obtain ⟨parseds, st', hparseds, hfold, hfs, hpath, hfile, hsome⟩ := foldl_hunks file.hunks
    { files := st.flush, currentPath := if file.Plain then some file.path else none, current := ⟨isBinary, []⟩,
      currentHunk := none }
  refine ⟨st', ?_, hfs, hpath, ?_, ?_⟩
  · rw [render, map_cons, foldl_cons, hname, map_append, foldl_append, hheaders]
    exact hfold
  · rw [hfile]
    exact hparseds
  · rw [hsome]
    simp

theorem foldl_files (st : Diff.Parser) :
    ∃ entries, List.Forall₂ EntryOf (keptFiles (file :: files)) entries ∧
      ((((file :: files).flatMap render).map stripCr).foldl line st).finish = entries.reverse ++ st.flush := by
  induction files generalizing file st with
  | nil =>
      obtain ⟨st', hfold, hfs, hpath, hhs, -⟩ := foldl_file file st
      rw [flatMap_singleton, hfold, keptFiles, finish, hpath, hfs]
      by_cases hpl : file.Plain
      · rw [if_pos hpl, if_pos hpl]
        exact ⟨[(file.path, st'.file)], .cons ⟨rfl, hhs⟩ .nil, rfl⟩
      · rw [if_neg hpl, if_neg hpl]
        exact ⟨[], .nil, rfl⟩
  | cons next files ih =>
      obtain ⟨st', hfold, hfs, hpath, hhs, hsome⟩ := foldl_file file st
      obtain ⟨entries, hents, hrest⟩ := ih next st'
      rw [flatMap_cons, map_append, foldl_append, hfold, hrest, keptFiles, flush, hpath]
      by_cases hkept : file.Plain ∧ file.hunks ≠ []
      · obtain ⟨hunk, hhunk⟩ := Option.isSome_iff_exists.mp (hsome.mpr hkept.2)
        rw [if_pos hkept, if_pos hkept.1, hhunk, hfs]
        refine ⟨(file.path, st'.file) :: entries, .cons ⟨rfl, hhs⟩ hents, ?_⟩
        simp
      · refine ⟨entries, by rwa [if_neg hkept], ?_⟩
        by_cases hpl : file.Plain
        · have hnone : st'.currentHunk = none := by
            rw [← Option.not_isSome_iff_eq_none, hsome]
            exact fun hne => hkept ⟨hpl, hne⟩
          rw [if_pos hpl, hnone, hfs]
        · rw [if_neg hpl, hfs]

theorem render_oneLine : ∀ line ∈ file.render, '\n' ∉ line := by
  intro line hline
  rcases mem_cons.mp hline with rfl | hline
  · exact nameLine_oneLine file (.inl rfl)
  · rcases mem_append.mp hline with hline | hline
    · exact (file.headers_plain line hline).1
    · obtain ⟨hunk, -, hline⟩ := mem_flatMap.mp hline
      rcases mem_cons.mp hline with rfl | hline
      · unfold GitHunk.header
        simp only [mem_append, not_or]
        refine ⟨by decide, ?_, by decide, hunk.heading_oneLine⟩
        intro hmem
        rcases ranges_mem hunk hmem with h | h
        · exact absurd h (by decide)
        · exact absurd h (by decide)
      · obtain ⟨line', hline', rfl⟩ := mem_map.mp hline
        exact hunk.lines_oneLine line' hline'

theorem parseUnifiedDiff_renderDiff : ∃ entries, List.Forall₂ EntryOf (keptFiles files) entries ∧
      Diff.parseUnifiedDiff (renderDiff files) = entries.reverse := by
  cases files with
  | nil => exact ⟨[], .nil, rfl⟩
  | cons file files =>
      have hlns : (renderDiff (file :: files)).lines = ((file :: files).flatMap render).map stripCr := by
        have hall : ∀ line ∈ (file :: files).flatMap render, '\n' ∉ line := by
          intro line hline
          obtain ⟨f, -, hline⟩ := mem_flatMap.mp hline
          exact render_oneLine f line hline
        have hlns := lines_ofLines_append (b := []) hall (by simp)
        rwa [append_nil, lastLine, if_pos rfl, append_nil] at hlns
      have htrim : (renderDiff (file :: files)).trim ≠ [] := by
        have hd : ∃ rest, renderDiff (file :: files) = 'd' :: rest := ⟨_, rfl⟩
        obtain ⟨rest, hrest⟩ := hd
        rw [hrest]
        exact trim_cons_ne_nil rest (by decide)
      obtain ⟨entries, hents, hfold⟩ := foldl_files file files .start
      refine ⟨entries, hents, ?_⟩
      rw [Diff.parseUnifiedDiff, if_neg htrim, hlns, hfold]
      exact append_nil _

/-! ## When all is returned -/

theorem keptFiles_sublist : (keptFiles files).Sublist files := by
  induction files using keptFiles.induct with
  | case1 => exact .slnil
  | case2 file hpl => rw [keptFiles, if_pos hpl]
  | case3 file hpl =>
      rw [keptFiles, if_neg hpl]
      exact nil_sublist _
  | case4 file next files hkept ih =>
      rw [keptFiles, if_pos hkept]
      exact ih.cons_cons file
  | case5 file next files hkept ih =>
      rw [keptFiles, if_neg hkept]
      exact ih.cons file

theorem keptFiles_eq_self {files : List GitFile} :
    keptFiles files = files ↔ (∀ file ∈ files, file.Plain) ∧ ∀ file ∈ files.dropLast, file.hunks ≠ [] := by
  induction files using keptFiles.induct with
  | case1 => simp [keptFiles]
  | case2 file hpl => simp [keptFiles, hpl]
  | case3 file hpl => simp [keptFiles, hpl]
  | case4 file next files hkept ih =>
      rw [keptFiles, if_pos hkept, cons.injEq, ih, dropLast_cons_cons]
      simp [hkept]
  | case5 file next files hkept ih =>
      rw [keptFiles, if_neg hkept, dropLast_cons_cons]
      refine iff_of_false (fun heq => ?_) fun h => hkept ⟨h.1 file mem_cons_self, h.2 file mem_cons_self⟩
      have hlen := (keptFiles_sublist (next :: files)).length_le
      rw [heq, length_cons] at hlen
      omega

theorem keptTexts_eq_self {texts : List Text} :
    keptTexts texts = texts ↔ ∀ text ∈ texts, text ≠ [] ∧ text.getLast? ≠ some '\r' := by
  have hstrip : ∀ text : Text, text.getLast? ≠ some '\r' ↔ stripCr text = text := by
    intro text
    unfold stripCr
    split
    · rename_i hlast
      refine iff_of_false (fun h => h hlast) fun heq => ?_
      have hlen := congrArg length heq
      have hpos : 0 < text.length := length_pos_of_mem (mem_of_getLast? hlast)
      rw [length_dropLast] at hlen
      omega
    · rename_i hlast
      exact iff_of_true hlast rfl
  constructor
  · intro heq
    have hlen : (keptTexts texts).length = (texts.map stripCr).length := by rw [heq, length_map]
    have hall := length_filter_eq_length_iff.mp hlen
    have hmap : texts.map stripCr = texts := (filter_eq_self.mpr hall).symm.trans heq
    intro text htext
    have hself : stripCr text = text := map_inj_left.mp (hmap.trans (map_id texts).symm) text htext
    refine ⟨?_, (hstrip text).mpr hself⟩
    have hne := hall (stripCr text) (mem_map_of_mem htext)
    rw [hself] at hne
    simpa using hne
  · intro h
    have hmap : texts.map stripCr = texts := by
      refine (map_congr_left fun text htext => ?_).trans (map_id texts)
      exact (hstrip text).mp (h text htext).2
    rw [keptTexts, hmap, filter_eq_self]
    intro text htext
    simpa using (h text htext).1

theorem forall_kept_iff (hunk : GitHunk) : (∀ line ∈ hunk.lines, line.Kept) ↔
      keptTexts hunk.removals = hunk.removals ∧ keptTexts hunk.additions = hunk.additions := by
  rw [keptTexts_eq_self, keptTexts_eq_self]
  simp only [GitHunk.removals, GitHunk.additions, mem_filterMap]
  constructor
  · intro h
    constructor
    · rintro text ⟨line, hline, htext⟩
      cases line with
      | removed _ =>
          cases htext
          exact h _ hline
      | _ => cases htext
    · rintro text ⟨line, hline, htext⟩
      cases line with
      | added _ =>
          cases htext
          exact h _ hline
      | _ => cases htext
  · rintro ⟨hrem, hadd⟩ line hline
    cases line with
    | context _ => trivial
    | removed text => exact hrem text ⟨_, hline, rfl⟩
    | added text => exact hadd text ⟨_, hline, rfl⟩
    | noNewline => trivial

theorem Reads.shows_iff {hunk : GitHunk} {parsed : Diff.ParsedHunk} (h : Reads hunk parsed) :
    ShowsHunk hunk parsed ↔ ∀ line ∈ hunk.lines, line.Kept := by
  rw [forall_kept_iff, ← h.removals, ← h.additions]
  exact ⟨fun hshows => ⟨hshows.removals, hshows.additions⟩, fun hlns => ⟨h.ranges, hlns.1, hlns.2⟩⟩

section

variable {files : List GitFile} {entries : List (Text × Diff.ParsedFileDiff)}

variable (h : List.Forall₂ EntryOf files entries)

include h in
theorem paths_of_entries : entries.map Prod.fst = files.map path := by
  induction h with
  | nil => rfl
  | cons hent _ ih => rw [map_cons, map_cons, hent.1, ih]

include h in
theorem file_of_lookup (hdist : (files.map path).Nodup)
    {file : GitFile} (hfile : file ∈ files) {found : Diff.ParsedFileDiff}
    (hfnd : entries.reverse.lookup file.path = some found) : List.Forall₂ Reads file.hunks found.hunks := by
  obtain ⟨before, behind, hspl, -⟩ := lookup_eq_some_iff.mp hfnd
  have hmem : (file.path, found) ∈ entries := by
    rw [← mem_reverse, hspl]
    simp
  obtain ⟨file', hfile', hpath, hhs⟩ := exists_of_mem_forall₂ h hmem
  rwa [inj_on_of_nodup_map hdist hfile hfile' hpath]

include h in
theorem lookup_isSome_iff_kept (path : Text) :
    (entries.reverse.lookup path).isSome ↔ path ∈ files.map GitFile.path := by
  rw [← paths_of_entries h, lookup_isSome_iff]
  simp [mem_map]

end

/-- The parsed map is that of the diff exactly when no path is quoted, every file but the last has a hunk, and no
removed or added line is empty or ends with a carriage return. -/
theorem parseUnifiedDiff_shows_iff {files : List GitFile} (hdistinct : (files.map path).Nodup) :
    ShowsFiles files (Diff.parseUnifiedDiff (renderDiff files)) ↔ ReadableDiff files := by
  obtain ⟨entries, hents, hparsed⟩ := parseUnifiedDiff_renderDiff files
  rw [hparsed]
  have hsub : ((keptFiles files).map path).Sublist (files.map path) := (keptFiles_sublist files).map _
  have hkeys := lookup_isSome_iff_kept hents
  constructor
  · intro hshows
    have hall : keptFiles files = files := by
      have hperm : (keptFiles files |>.map path).Perm (files.map path) := by
        rw [perm_ext_iff_of_nodup (hsub.nodup hdistinct) hdistinct]
        exact fun path => (hkeys path).symm.trans (hshows.paths path)
      refine (keptFiles_sublist files).eq_of_length ?_
      simpa using hperm.length_eq
    obtain ⟨hpl, hhs⟩ := keptFiles_eq_self.mp hall
    rw [hall] at hents hkeys
    refine ⟨hpl, hhs, fun file hfile hunk hhunk => ?_⟩
    obtain ⟨found, hfnd⟩ := Option.isSome_iff_exists.mp ((hkeys file.path).mpr (mem_map_of_mem hfile))
    have hrds := file_of_lookup hents hdistinct hfile hfnd
    obtain ⟨i, hi, rfl⟩ := mem_iff_getElem.mp hhunk
    have hi' : i < found.hunks.length := by rwa [← hrds.length_eq]
    exact (Reads.shows_iff (hrds.get hi hi')).mp ((hshows.hunks file hfile found hfnd).get hi hi')
  · intro hrdb
    have hall : keptFiles files = files := keptFiles_eq_self.mpr ⟨hrdb.plain, hrdb.hunks⟩
    rw [hall] at hents hkeys
    refine ⟨hkeys, fun file hfile found hfnd => ?_⟩
    have hrds := file_of_lookup hents hdistinct hfile hfnd
    rw [forall₂_iff_get] at hrds ⊢
    refine ⟨hrds.1, fun i hi hi' => ?_⟩
    exact (hrds.2 i hi hi').shows_iff.mpr (hrdb.lines file hfile _ (getElem_mem _))

/-! ## Files that are not returned -/

/-- A script that becomes executable. -/
def sampleModeChange : GitFile :=
  { path := "run.sh", headers := ["old mode 100644", "new mode 100755"], hunks := [],
    path_noSpace := by decide, headers_plain := by decide }

def sampleHunk (text : Text) (h : '\n' ∉ text) : GitHunk :=
  { oldStart := 1, oldLines := 1, newStart := 1, newLines := 2, heading := [],
    lines := [.added text, .context "x"], fits := by decide, heading_oneLine := by decide,
    lines_oneLine := forall_mem_cons.mpr
      ⟨fun hmem => h (mem_of_ne_of_mem (by decide) hmem), forall_mem_singleton.mpr (by decide)⟩ }

def sampleEdit (text : Text) (h : '\n' ∉ text) : GitFile :=
  { path := "a.txt", headers := ["--- a/a.txt", "+++ b/a.txt"], hunks := [sampleHunk text h],
    path_noSpace := by decide, headers_plain := by decide }

theorem parseUnifiedDiff_shows_of_sampleEdit :
    ShowsFiles [sampleEdit "b" (by decide), sampleModeChange]
      (Diff.parseUnifiedDiff (renderDiff [sampleEdit "b" (by decide), sampleModeChange])) := by
  have hdist : ([sampleEdit "b" (by decide), sampleModeChange].map path).Nodup := by decide
  refine (parseUnifiedDiff_shows_iff hdist).mpr ⟨?_, ?_, ?_⟩
  · refine forall_mem_cons.mpr ⟨?_, forall_mem_singleton.mpr ?_⟩
    · decide
    · decide
  · exact forall_mem_singleton.mpr (cons_ne_nil _ _)
  · refine forall_mem_cons.mpr ⟨forall_mem_singleton.mpr ?_, forall_mem_singleton.mpr ?_⟩
    · refine forall_mem_cons.mpr ⟨?_, forall_mem_singleton.mpr trivial⟩
      exact ⟨by decide, by decide⟩
    · exact fun hunk hhunk => absurd hhunk not_mem_nil

/-- A file without a hunk is lost before another one, and an added line without text is lost everywhere. -/
theorem file_without_hunk_is_lost :
    (([sampleModeChange, sampleEdit "b" (by decide)].map GitFile.path).Nodup ∧
      ¬ ShowsFiles [sampleModeChange, sampleEdit "b" (by decide)]
        (Diff.parseUnifiedDiff (renderDiff [sampleModeChange, sampleEdit "b" (by decide)]))) ∧
    ¬ ShowsFiles [sampleEdit [] (by decide)] (Diff.parseUnifiedDiff (renderDiff [sampleEdit [] (by decide)])) := by
  refine ⟨⟨by decide, fun hshows => ?_⟩, fun hshows => ?_⟩
  · obtain ⟨entries, hents, hparsed⟩ :=
      parseUnifiedDiff_renderDiff [sampleModeChange, sampleEdit "b" (by decide)]
    have hfnd := (hshows.paths sampleModeChange.path).mpr mem_cons_self
    have hlost : sampleModeChange.path ∉
        (keptFiles [sampleModeChange, sampleEdit "b" (by decide)]).map GitFile.path := by
      rw [keptFiles, if_neg (fun h => h.2 rfl)]
      intro hmem
      obtain ⟨file, hfile, hpath⟩ := mem_map.mp hmem
      rw [mem_singleton.mp ((keptFiles_sublist _).subset hfile)] at hpath
      exact absurd hpath (by decide)
    rw [hparsed, lookup_isSome_iff_kept hents] at hfnd
    exact hlost hfnd
  · obtain ⟨entries, hents, hparsed⟩ := parseUnifiedDiff_renderDiff [sampleEdit [] (by decide)]
    rw [hparsed] at hshows
    obtain ⟨found, hfnd⟩ := Option.isSome_iff_exists.mp ((hshows.paths _).mpr mem_cons_self)
    have hall : keptFiles [sampleEdit [] (by decide)] = [sampleEdit [] (by decide)] := by
      have hpl : (sampleEdit [] (by decide)).Plain := by decide
      exact if_pos hpl
    rw [hall] at hents
    have hrds := file_of_lookup hents (by decide) mem_cons_self hfnd
    have hhs := hshows.hunks _ mem_cons_self found hfnd
    generalize found.hunks = parseds at hrds hhs
    cases hrds with
    | cons hread _ =>
        cases hhs with
        | cons hhunk _ => exact (hread.shows_iff.mp hhunk (.added []) mem_cons_self).1 rfl

end CodexStudy.NewCore
