import CodexStudy.ApplyPatch.Lemmas.Local

/-!
# The preview and the result

For a patch whose hunks have no path in common the preview of each hunk and its application see the same
file, so the changes that were shown are the changes that are made, unless a path that the patch writes
is, or lies below, a path that it removes.
-/

namespace CodexStudy.ApplyPatch

open CodexStudy.Lib List FileTree Option AbsolutePath

variable {unifiedDiff : Text → Text → Text} {home : Option Text} {cwd : AbsolutePath}

/-- No two hunks name a common path, as the path they start from or as the destination of a move. -/
def NoCommonPath (home : Option Text) (cwd : AbsolutePath) (hunks : List Hunk) : Prop :=
  hunks.Pairwise fun hunk hunk' => ∀ p ∈ hunk.touched home cwd, p ∉ hunk'.touched home cwd

/-- No path that the patch writes is, or lies below, a path that it removes. -/
def RemovedStayClear (home : Option Text) (cwd : AbsolutePath) (hunks : List Hunk) : Prop :=
  ∀ hunk ∈ hunks, ∀ p ∈ hunk.removed home cwd, ∀ hunk' ∈ hunks, ∀ q ∈ hunk'.written home cwd,
    ¬ p.names <+: q.names

/-- The files `t'` have at the path `key` what the change says. -/
def ChangeMade (t' : Files) (key : AbsolutePath) : ApplyPatchFileChange → Prop
  | .add content => t'.file? key.names = some content
  | .delete _ => t'.node? key.names = none
  | .update _ none newContent => t'.file? key.names = some newContent
  | .update _ (some dest) newContent => t'.file? dest.names = some newContent ∧ t'.node? key.names = none

/-- Every change is made, and elsewhere every file is as it was: only directories above the changed paths can be new. -/
structure PreviewMatches (action : ApplyPatchAction) (t t' : Files) : Prop where
  made : ∀ key change, action.changes.lookup key = some change → ChangeMade t' key change
  unchanged : ∀ q, (∀ p, action.Covers p → q ≠ p.names) → t'.file? q = t.file? q ∧
    (t'.node? q = t.node? q ∨
      t.node? q = none ∧ t'.node? q = some .dir ∧ ∃ p, action.Covers p ∧ q <+: p.names)

/-! ## Hunks without a common path -/

variable {hunk : Hunk} {t' t : Files} {c : ApplyPatchFileChange}

theorem NoCommonPath.apart {before after : List Hunk} (h : NoCommonPath home cwd (before ++ hunk :: after))
    {other : Hunk} (hmem : other ∈ before ∨ other ∈ after) {p : AbsolutePath}
    (hp : p ∈ hunk.touched home cwd) : p ∉ other.touched home cwd := by
  obtain ⟨-, haft, hbef⟩ := pairwise_append.mp h
  rcases hmem with hmem | hmem
  · exact fun hp' => hbef other hmem hunk mem_cons_self p hp' hp
  · exact (pairwise_cons.mp haft).1 other hmem p hp

theorem NoCommonPath.isLast {hunks : List Hunk} (h : NoCommonPath home cwd hunks) (hmem : hunk ∈ hunks) :
    hunk.IsLast home cwd hunks := by
  obtain ⟨before, after, rfl⟩ := append_of_mem hmem
  refine ⟨before, after, rfl, ?_⟩
  intro other hoth hpath
  refine h.apart (.inr hoth) (p := hunk.resolvePath home cwd) mem_cons_self ?_
  rw [← hpath]
  exact mem_cons_self

/-! ## The change of a hunk -/

/-- The change that the preview of a hunk shows on the local files. -/
inductive Shows (home : Option Text) (cwd : AbsolutePath) (t : Files) : Hunk → ApplyPatchFileChange → Prop where
  | add {path contents} : Shows home cwd t (.addFile path contents) (.add contents)
  | delete {path content} : Shows home cwd t (.deleteFile path) (.delete content)
  | update {path movePath chunks old new diff} :
      t.file? (resolvePathAgainstBase home path cwd).names = some old →
      newContentsFromChunks (resolvePathAgainstBase home path cwd).display old chunks = .ok new →
      Shows home cwd t (.updateFile path movePath chunks)
        (.update diff (movePath.map fun dest => resolvePathAgainstBase home dest cwd) new)

theorem shows_of_previewHunk
    (h : previewHunk localFileSystem unifiedDiff home cwd hunk t = (.ok c, t')) : Shows home cwd t hunk c := by
  cases hunk with
  | addFile path contents => cases h; exact .add
  | deleteFile path =>
      unfold previewHunk at h
      dsimp only at h
      split at h
      · cases h; exact .delete
      · cases h
  | updateFile path movePath chunks =>
      obtain ⟨patch, t₁, hderive, h₁⟩ := Eff.bind_eq_ok.mp h
      obtain ⟨-, hold, hnew⟩ := deriveNewContents_eq_ok hderive
      cases h₁
      exact .update hold hnew

theorem Shows.of_made (h : Shows home cwd t hunk c) (hmade : ChangeMade t' (hunk.resolvePath home cwd) c) :
    (∀ p ∈ hunk.removed home cwd, t'.node? p.names = none) ∧ ∀ p ∈ hunk.written home cwd, t'.file? p.names ≠ none := by
  cases h with
  | add =>
      refine ⟨by simp [Hunk.removed], ?_⟩
      intro p hp
      cases mem_singleton.mp hp
      have hfile : t'.file? _ = some _ := hmade
      exact fun hnone => some_ne_none _ (hfile.symm.trans hnone)
  | delete =>
      refine ⟨?_, by simp [Hunk.written]⟩
      intro p hp
      cases mem_singleton.mp hp
      exact hmade
  | @update path movePath chunks old new diff hold hnew =>
      cases movePath with
      | none =>
          refine ⟨by simp [Hunk.removed], ?_⟩
          intro p hp
          cases mem_singleton.mp hp
          have hfile : t'.file? _ = some _ := hmade
          exact fun hnone => some_ne_none _ (hfile.symm.trans hnone)
      | some dest =>
          obtain ⟨hfile, hgone⟩ := hmade
          constructor
          · intro p hp
            cases mem_singleton.mp hp
            exact hgone
          · intro p hp
            cases mem_singleton.mp hp
            exact fun hnone => some_ne_none _ (hfile.symm.trans hnone)

theorem Shows.made {t₁ t₂ : Files} (h : Shows home cwd t hunk c)
    (hbef : ∀ p ∈ hunk.touched home cwd, t₁.file? p.names = t.file? p.names) (heff : HunkEffect home cwd hunk t₁ t₂)
    (haft : ∀ p ∈ hunk.touched home cwd, t'.file? p.names = t₂.file? p.names)
    (hclear : ∀ p ∈ hunk.removed home cwd, t₂.node? p.names = none → t'.node? p.names = none)
    (hself : ∀ p ∈ hunk.removed home cwd, ∀ q ∈ hunk.written home cwd, p ≠ q) :
    ChangeMade t' (hunk.resolvePath home cwd) c := by
  have hafterSource := haft _ mem_cons_self
  cases h with
  | add =>
      cases heff with
      | add hw => exact hafterSource.trans ((hw.file _).trans (if_pos rfl))
  | delete =>
      cases heff with
      | delete hr => exact hclear _ mem_cons_self ((hr.node _).trans (if_pos rfl))
  | @update path movePath chunks old new diff hold hnew =>
      have hsrc : t₁.file? (resolvePathAgainstBase home path cwd).names = some old :=
        (hbef _ mem_cons_self).trans hold
      cases heff with
      | update hold' hnew' hw =>
          rw [hsrc] at hold'
          cases hold'
          rw [hnew] at hnew'
          cases hnew'
          exact hafterSource.trans ((hw.file _).trans (if_pos rfl))
      | @move _ dest _ _ t₃ _ old' new' hold' hnew' hw hr =>
          rw [hsrc] at hold'
          cases hold'
          rw [hnew] at hnew'
          cases hnew'
          have hne : (resolvePathAgainstBase home dest cwd).names ≠ (resolvePathAgainstBase home path cwd).names := by
            intro hnms
            exact hself _ mem_cons_self _ mem_cons_self (ext_names hnms.symm)
          constructor
          · have hdest := haft _ (mem_cons_of_mem _ mem_cons_self)
            exact hdest.trans ((hr.frame hne).trans ((hw.file _).trans (if_pos rfl)))
          · exact hclear _ mem_cons_self ((hr.node _).trans (if_pos rfl))

/-! ## The whole patch -/

/-- For an applied patch whose hunks have no path in common, the preview shows the changes of the files exactly when
nothing is written at or below a removed path. -/
theorem preview_matches_iff_removedStayClear {args : ApplyPatchArgs} {cwd : AbsolutePath} {t t₀ : Files}
    {action : ApplyPatchAction}
    (hverify : verifyApplyPatchArgs localFileSystem unifiedDiff home args cwd t = (.body action, t₀))
    (hcommon : NoCommonPath home action.cwd args.hunks)
    (happly : (applyHunks localFileSystem home action.cwd args.hunks t).result.isOk = true) :
    PreviewMatches action t (applyHunks localFileSystem home action.cwd args.hunks t).fs ↔
      RemovedStayClear home action.cwd args.hunks := by
  have hcov := covers_iff hverify
  have hkeep : ∀ (cwd : AbsolutePath) (hunk : Hunk) (s : Files) (c : ApplyPatchFileChange) (s' : Files), s = t →
      previewHunk localFileSystem unifiedDiff home cwd hunk s = (.ok c, s') → s' = t := by
    rintro cwd hunk s c s' rfl h
    have := previewHunk_local unifiedDiff home cwd hunk s
    rw [h] at this
    exact this
  have hchgs := verifyApplyPatchArgs_changes (I := fun s => s = t) hkeep rfl hverify
  have hent : ∀ hunk ∈ args.hunks, ∃ c, action.changes.lookup (hunk.resolvePath home action.cwd) = some c ∧
      Shows home action.cwd t hunk c := by
    intro hunk hmem
    obtain ⟨c, hc, s, s', rfl, hpreview⟩ := hchgs.entry hunk (hcommon.isLast hmem)
    exact ⟨c, hc, shows_of_previewHunk hpreview⟩
  obtain ⟨delta, hdel⟩ : ∃ delta, (applyHunks localFileSystem home action.cwd args.hunks t).result = .ok delta := by
    cases hres : (applyHunks localFileSystem home action.cwd args.hunks t).result with
    | error e => rw [hres] at happly; cases happly
    | ok delta => exact ⟨delta, rfl⟩
  have heff := applyHunks_local hdel
  generalize (applyHunks localFileSystem home action.cwd args.hunks t).fs = t' at heff ⊢
  constructor
  · -- A path that is removed and a path at or below it cannot both be as the preview shows them.
    rintro ⟨hmade, -⟩ hunk hmem p hp hunk' hmem' q hq hpre
    obtain ⟨c, hc, hshows⟩ := hent hunk hmem
    obtain ⟨c', hc', hshows'⟩ := hent hunk' hmem'
    have hgone := (hshows.of_made (hmade _ _ hc)).1 p hp
    have hfile := (hshows'.of_made (hmade _ _ hc')).2 q hq
    by_cases hpq : p.names = q.names
    · rw [← hpq] at hfile
      exact hfile (file?_eq_none_of_none hgone)
    · have hnode : t'.node? q.names ≠ none := fun hnone => hfile (file?_eq_none_of_none hnone)
      rw [t'.dir_of_prefix hnode hpre hpq] at hgone
      cases hgone
  · intro hclear
    constructor
    · intro key change hlk
      obtain ⟨hunk, hlast, rfl, s, s', rfl, hpreview⟩ := hchgs.source key change hlk
      obtain ⟨before, after, hspl, -⟩ := hlast
      rw [hspl] at hcommon heff hclear
      have hmem : hunk ∈ before ++ hunk :: after := by simp
      obtain ⟨t₁, t₂, h₁, h₂, h₃⟩ := heff.split
      refine (shows_of_previewHunk hpreview).made ?_ h₂ ?_ ?_ ?_
      · intro p hp
        refine h₁.frame fun other hoth q hq hnms => ?_
        rw [ext_names hnms] at hp
        exact hcommon.apart (.inl hoth) hp hq
      · intro p hp
        refine h₃.frame fun other hoth q hq hnms => ?_
        rw [ext_names hnms] at hp
        exact hcommon.apart (.inr hoth) hp hq
      · intro p hp hgone
        exact h₃.vacant hgone fun other hoth q hq => hclear hunk hmem p hp other (by simp [hoth]) q hq
      · rintro p hp q hq rfl
        exact hclear hunk hmem p hp hunk hmem p hq (prefix_refl _)
    · intro q hq
      have hsrc : ∀ hunk ∈ args.hunks, ∀ p ∈ hunk.touched home action.cwd, action.Covers p := by
        intro hunk hmem p hp
        rcases mem_cons.mp hp with rfl | hp
        · exact (hcov _).mpr (.inl ⟨hunk, hmem, rfl⟩)
        · obtain ⟨dest, hdest, rfl⟩ := map_eq_some_iff.mp (mem_toList.mp hp)
          exact (hcov _).mpr (.inr ⟨hunk, hcommon.isLast hmem, dest, hdest, rfl⟩)
      have hfile : t'.file? q = t.file? q := heff.frame fun hunk hmem p hp => hq p (hsrc hunk hmem p hp)
      refine ⟨hfile, ?_⟩
      rcases hnode : t.node? q with _ | c | _
      · -- Nothing stood here: a directory stands here now only if a path below was written.
        by_cases hdir : t'.node? q = some .dir
        · refine .inr ⟨rfl, hdir, ?_⟩
          by_contra hno
          rw [heff.vacant hnode fun hunk hmem p hp hpre =>
            hno ⟨p, hsrc hunk hmem p (Hunk.written_subset hp), hpre⟩] at hdir
          cases hdir
        · left
          rw [file?_eq_none_of_none hnode] at hfile
          exact node?_eq_none_of_file? hfile hdir
      · left
        rw [file?_eq_some.mpr hnode] at hfile
        exact file?_eq_some.mp hfile
      · exact .inl (heff.dir hnode)

/-! ## A move that is made as shown and a move that is not -/

def sampleMoveTo (dest : Text) : ApplyPatchArgs :=
  { patch := [], workdir := none, environmentId := none
    hunks := [.updateFile "a" (some dest)
      [{ changeContext := none, oldLines := ["x"], newLines := ["y"], isEndOfFile := false }]] }

def sampleMoveToAction (dest : Text) : ApplyPatchAction :=
  { changes := (∅ : Finmap _).insert (resolvePathAgainstBase none "a" sampleDir)
      (.update [] (some (resolvePathAgainstBase none dest sampleDir)) "y\n"),
    patch := [], cwd := sampleDir }

theorem preview_matches_for_sample_move : PreviewMatches (sampleMoveToAction "b") sampleFiles
      (applyHunks localFileSystem none sampleDir (sampleMoveTo "b").hunks sampleFiles).fs := by
  have hbody :
      (verifyApplyPatchArgs localFileSystem (fun _ _ => []) none (sampleMoveTo "b") sampleDir sampleFiles).1 =
      .body (sampleMoveToAction "b") := by decide +kernel
  have hverify : verifyApplyPatchArgs localFileSystem (fun _ _ => []) none (sampleMoveTo "b") sampleDir
      sampleFiles = (.body (sampleMoveToAction "b"), sampleFiles) :=
    Prod.ext hbody (verify_local_state _ _ _ _ _)
  refine (preview_matches_iff_removedStayClear hverify (pairwise_singleton _ _) (by decide +kernel)).mpr ?_
  unfold RemovedStayClear
  decide +kernel

/-- A file that is updated and moved to its own path is lost: it is written and then removed. -/
theorem file_moved_to_itself_is_lost :
    (verifyApplyPatchArgs localFileSystem (fun _ _ => []) none (sampleMoveTo "a") sampleDir sampleFiles).1 =
        .body (sampleMoveToAction "a") ∧ NoCommonPath none sampleDir (sampleMoveTo "a").hunks ∧
      (applyHunks localFileSystem none sampleDir (sampleMoveTo "a").hunks sampleFiles).result.isOk = true ∧
      (sampleMoveToAction "a").changes.lookup (resolvePathAgainstBase none "a" sampleDir) =
        some (.update [] (some (resolvePathAgainstBase none "a" sampleDir)) "y\n") ∧
      (applyHunks localFileSystem none sampleDir (sampleMoveTo "a").hunks sampleFiles).fs.file?
        (resolvePathAgainstBase none "a" sampleDir).names = none := by
  refine ⟨by decide +kernel, pairwise_singleton _ _, by decide +kernel, by decide +kernel, by decide +kernel⟩

end CodexStudy.ApplyPatch
