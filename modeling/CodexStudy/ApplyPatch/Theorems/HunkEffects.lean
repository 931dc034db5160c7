import CodexStudy.ApplyPatch.Lemmas.Local

/-!
# The effect of one hunk

What a single hunk that is applied makes of the files, and the one case in which it does not: a move
removes the file it comes from also where that is the file it has just written.
-/

namespace CodexStudy.ApplyPatch

open CodexStudy.Lib

variable {home : Option Text} {cwd : AbsolutePath} {t t' : Files}

/-- The file that an update ends in: the destination of its move, or the file itself. -/
def Hunk.destination (home : Option Text) (hunk : Hunk) (cwd : AbsolutePath) : AbsolutePath :=
  resolvePathAgainstBase home hunk.path cwd

/-- An update takes `t` to `t'`: the destination has the new contents, and another source is absent. -/
structure Updated (home : Option Text) (cwd : AbsolutePath) (hunk : Hunk) (chunks : List UpdateFileChunk)
    (t t' : Files) : Prop where
  destination : ∃ old new, t.file? (hunk.resolvePath home cwd).names = some old ∧
    newContentsFromChunks (hunk.resolvePath home cwd).display old chunks = .ok new ∧
    t'.file? (hunk.destination home cwd).names = some new
  source : hunk.destination home cwd ≠ hunk.resolvePath home cwd → t'.node? (hunk.resolvePath home cwd).names = none

/-- A hunk takes `t` to `t'`: it has its effect, and every other file keeps its content. -/
structure AppliedExactly (home : Option Text) (cwd : AbsolutePath) (hunk : Hunk) (t t' : Files) : Prop where
  effect : match hunk with
    | .addFile _ contents => t'.file? (hunk.resolvePath home cwd).names = some contents
    | .deleteFile _ => t'.node? (hunk.resolvePath home cwd).names = none
    | .updateFile _ _ chunks => Updated home cwd hunk chunks t t'
  others : ∀ q, (∀ p ∈ hunk.touched home cwd, q ≠ p.names) → t'.file? q = t.file? q

/-- The hunk moves a file to a path that stands for the file itself, however it is written. -/
def Hunk.MovesToItself (home : Option Text) (cwd : AbsolutePath) (hunk : Hunk) : Prop :=
  ∃ dest, hunk.movePath = some dest ∧ resolvePathAgainstBase home dest cwd = hunk.resolvePath home cwd

/-! ## The effect of a move -/

variable {path dest : Text} {chunks : List UpdateFileChunk}

theorem Updated.of_move {t₁ : Files} {old new : Text}
    (hold : t.file? (resolvePathAgainstBase home path cwd).names = some old)
    (hnew : newContentsFromChunks (resolvePathAgainstBase home path cwd).display old chunks = .ok new)
    (hwr : Written t t₁ (resolvePathAgainstBase home dest cwd) new)
    (hrem : Removed t₁ t' (resolvePathAgainstBase home path cwd))
    (hne : resolvePathAgainstBase home dest cwd ≠ resolvePathAgainstBase home path cwd) :
    Updated home cwd (.updateFile path (some dest) chunks) chunks t t' where
  destination := by
    refine ⟨old, new, hold, hnew, ?_⟩
    have hnms : (resolvePathAgainstBase home dest cwd).names ≠ (resolvePathAgainstBase home path cwd).names :=
      fun h => hne (AbsolutePath.ext_names h)
    exact (hrem.frame hnms).trans ((hwr.file _).trans (if_pos rfl))
  source := fun _ => (hrem.node _).trans (if_pos rfl)

theorem HunkEffect.source_of_move (h : HunkEffect home cwd (.updateFile path (some dest) chunks) t t') :
    t'.node? (resolvePathAgainstBase home path cwd).names = none := by
  cases h with
  | move _ _ _ hrem => exact (hrem.node _).trans (if_pos rfl)

theorem HunkEffect.appliedExactly_iff {hunk : Hunk} (h : HunkEffect home cwd hunk t t') :
    AppliedExactly home cwd hunk t t' ↔ ¬ hunk.MovesToItself home cwd := by
  constructor
  · rintro hex ⟨dest, hdest, hself⟩
    cases hunk with
    | addFile path contents => cases hdest
    | deleteFile path => cases hdest
    | updateFile path movePath chunks =>
        cases hdest
        obtain ⟨old, new, -, -, hnew⟩ := hex.effect.destination
        rw [show (Hunk.updateFile path (some dest) chunks).destination home cwd = resolvePathAgainstBase home path cwd
          from hself, FileTree.file?_eq_none_of_none h.source_of_move] at hnew
        cases hnew
  · intro hself
    refine ⟨?_, fun q hq => h.frame hq⟩
    cases h with
    | add hwr => exact (hwr.file _).trans (if_pos rfl)
    | delete hrem => exact (hrem.node _).trans (if_pos rfl)
    | update hold hnew hwr =>
        exact ⟨⟨_, _, hold, hnew, (hwr.file _).trans (if_pos rfl)⟩, fun hne => absurd rfl hne⟩
    | move hold hnew hwr hrem =>
        exact Updated.of_move hold hnew hwr hrem fun hsame => hself ⟨_, rfl, hsame⟩

/-! ## One hunk -/

/-- A hunk that is applied has its effect and no other exactly when it does not move a file to itself. -/
theorem applied_hunk_exact_iff {hunk : Hunk} {delta : AppliedPatchDelta}
    (h : (applyHunks localFileSystem home cwd [hunk] t).result = .ok delta) :
    AppliedExactly home cwd hunk t (applyHunks localFileSystem home cwd [hunk] t).fs ↔
      ¬ hunk.MovesToItself home cwd := by
  have heffects := applyHunks_local h
  generalize (applyHunks localFileSystem home cwd [hunk] t).fs = t' at heffects ⊢
  cases heffects with
  | cons heff hrest =>
      cases hrest
      exact heff.appliedExactly_iff

/-! ## A move to another file and a move to the file itself -/

def sampleMoveHunk (dest : String) : Hunk :=
  .updateFile "a" (some dest.toList)
    [{ changeContext := none, oldLines := ["x"], newLines := ["y"], isEndOfFile := false }]

def sampleMoveDelta : AppliedPatchDelta :=
  { changes := [⟨resolvePathAgainstBase none "a" sampleDir,
      .update (some (resolvePathAgainstBase none "b" sampleDir)) "x\n" none "y\n"⟩],
    exact := true }

theorem applied_sampleMove_exact : AppliedExactly none sampleDir (sampleMoveHunk "b") sampleFiles
      (applyHunks localFileSystem none sampleDir [sampleMoveHunk "b"] sampleFiles).fs := by
  have h : (applyHunks localFileSystem none sampleDir [sampleMoveHunk "b"] sampleFiles).result =
      .ok sampleMoveDelta := by decide +kernel
  refine (applied_hunk_exact_iff h).mpr ?_
  rintro ⟨dest, hdest, hself⟩
  cases hdest
  revert hself
  decide +kernel

/-- `/w/a` is updated and moved to `./a`. The application succeeds, and the file is gone. -/
theorem file_moved_to_other_spelling_is_lost :
    (applyHunks localFileSystem none sampleDir [sampleMoveHunk "./a"] sampleFiles).result.isOk = true ∧
      (sampleMoveHunk "./a").destination none sampleDir = (sampleMoveHunk "./a").resolvePath none sampleDir ∧
      ¬ AppliedExactly none sampleDir (sampleMoveHunk "./a") sampleFiles
        (applyHunks localFileSystem none sampleDir [sampleMoveHunk "./a"] sampleFiles).fs := by
  have hgone : (applyHunks localFileSystem none sampleDir [sampleMoveHunk "./a"] sampleFiles).fs.file?
      ((sampleMoveHunk "./a").destination none sampleDir).names = none := by decide +kernel
  refine ⟨by decide +kernel, by decide +kernel, fun hex => ?_⟩
  obtain ⟨old, new, -, -, hnew⟩ := hex.effect.destination
  rw [hgone] at hnew
  cases hnew

end CodexStudy.ApplyPatch
