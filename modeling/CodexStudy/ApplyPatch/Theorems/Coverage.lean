import CodexStudy.ApplyPatch.Lemmas.Headers
import CodexStudy.ApplyPatch.Lemmas.Local

/-!
# Approved paths and applied paths

Whether a patch may be applied without asking is decided from the changes of its preview.
-/

namespace CodexStudy.ApplyPatch

open CodexStudy.Lib List

variable {S : Type} {fs : ExecutorFileSystem S} {unifiedDiff : Text → Text → Text} {home : Option Text}

/-- Every destination of a move, without a carriage return at its end, is the path some hunk starts from, or the
destination of a hunk after which no other starts from the same path. -/
def MovesCovered (home : Option Text) (cwd : AbsolutePath) (hunks : List Hunk) : Prop :=
  ∀ hunk ∈ hunks, ∀ dest, hunk.movePath = some dest →
    (∃ other ∈ hunks, other.resolvePath home cwd = resolvePathAgainstBase home dest.stripCr cwd) ∨
      ∃ other : Hunk, other.IsLast home cwd hunks ∧ ∃ dest', other.movePath = some dest' ∧
        resolvePathAgainstBase home dest' cwd = resolvePathAgainstBase home dest.stripCr cwd

def touches (fs : ExecutorFileSystem S) (home : Option Text) (action : ApplyPatchAction) (s : S) : List Touch :=
  (applyPatch (logged fs) home action.patch action.cwd ⟨s, []⟩).fs.log

/-- Every path written or removed is one of the changes, and a directory is created only to contain such a path. -/
def TouchesCovered (action : ApplyPatchAction) (log : List Touch) : Prop :=
  ∀ τ ∈ log, match τ with
    | .write p => action.Covers p
    | .remove p => action.Covers p
    | .createDirectory p => ∃ q, action.Covers q ∧ q.parent = some p

theorem mem_touched_kept {text : Text} {args args' : ApplyPatchArgs} (h : parsePatch text = .ok args)
    (h' : parsePatch args.patch = .ok args') {cwd p : AbsolutePath} : p ∈ args'.hunks.flatMap (Hunk.touched home cwd) ↔
      (∃ hunk ∈ args.hunks, hunk.resolvePath home cwd = p) ∨ ∃ hunk ∈ args.hunks, ∃ dest, hunk.movePath = some dest ∧
          resolvePathAgainstBase home dest.stripCr cwd = p := by
  have hheaders := parsePatch_kept h h'
  rw [map_map] at hheaders
  have htouched : args'.hunks.flatMap (Hunk.touched home cwd) = args.hunks.flatMap fun hunk =>
      resolvePathAgainstBase home hunk.sourcePath cwd ::
        ((hunk.movePath.map Text.stripCr).map fun dest => resolvePathAgainstBase home dest cwd).toList := by
    have hflat : ∀ hunks : List Hunk, hunks.flatMap (Hunk.touched home cwd) = (hunks.map Hunk.header).flatMap fun h =>
        resolvePathAgainstBase home h.source cwd ::
          (h.move.map fun dest => resolvePathAgainstBase home dest cwd).toList := by
      intro hunks
      rw [flatMap_map]
      rfl
    rw [hflat, hheaders, flatMap_map]
    rfl
  rw [htouched, mem_flatMap]
  constructor
  · rintro ⟨hunk, hmem, hp⟩
    rcases mem_cons.mp hp with rfl | hp
    · exact .inl ⟨hunk, hmem, rfl⟩
    · rw [Option.mem_toList, Option.map_map] at hp
      obtain ⟨dest, hdest, rfl⟩ := Option.map_eq_some_iff.mp hp
      exact .inr ⟨hunk, hmem, dest, hdest, rfl⟩
  · rintro (⟨hunk, hmem, rfl⟩ | ⟨hunk, hmem, dest, hdest, rfl⟩)
    · exact ⟨hunk, hmem, mem_cons_self⟩
    · refine ⟨hunk, hmem, mem_cons_of_mem _ ?_⟩
      rw [Option.mem_toList, Option.map_map]
      exact Option.map_eq_some_iff.mpr ⟨dest, hdest, rfl⟩

theorem TouchesCovered.of_within {action : ApplyPatchAction} {log : List Touch} {ps : List AbsolutePath}
    (hlog : ∀ τ ∈ log, τ.Within ps) (hps : ∀ p ∈ ps, action.Covers p) : TouchesCovered action log := by
  intro τ hτ
  have hin := hlog τ hτ
  cases τ with
  | write p => exact hps p hin
  | remove p => exact hps p hin
  | createDirectory p =>
      obtain ⟨q, hq, hp⟩ := hin
      exact ⟨q, hps q hq, hp⟩

theorem canWrite_of_covers {canWritePath : AbsolutePath → Bool} {action : ApplyPatchAction}
    (h : isWritePatchConstrainedToWritablePaths canWritePath action = true) {p : AbsolutePath} (hp : action.Covers p) :
    canWritePath p = true := by
  obtain ⟨key, change, hlk, hp⟩ := hp
  have hmem : key ∈ action.changes.keys := Finmap.mem_keys.mpr (Finmap.mem_of_lookup_eq_some hlk)
  have := of_decide_eq_true h key hmem change hlk p hp
  rwa [AbsolutePath.normalize_eq] at this

/-- When the moves of a verified patch are covered, its application touches only paths of the changes; and when the
whole patch is applied, only then. -/
theorem touches_covered_iff_movesCovered {text : Text} {args : ApplyPatchArgs} {workdir : Option Text}
    {cwd : AbsolutePath} {s₀ s : S} {action : ApplyPatchAction} (hparse : parsePatch text = .ok args)
    (hverify : verifyApplyPatchArgs fs unifiedDiff home { args with workdir } cwd s₀ = (.body action, s)) :
    (MovesCovered home action.cwd args.hunks → TouchesCovered action (touches fs home action s) ∧
      ∀ canWritePath, isWritePatchConstrainedToWritablePaths canWritePath action = true →
        ∀ p, .write p ∈ touches fs home action s ∨ .remove p ∈ touches fs home action s → canWritePath p = true) ∧
    ((applyPatch fs home action.patch action.cwd s).result.isOk = true →
      (TouchesCovered action (touches fs home action s) ↔ MovesCovered home action.cwd args.hunks)) := by
  have hcov := covers_iff hverify
  obtain ⟨hpatch, -, -⟩ := verifyApplyPatchArgs_eq_body hverify
  dsimp only at hcov hpatch
  have hsafe : MovesCovered home action.cwd args.hunks → TouchesCovered action (touches fs home action s) := by
    intro hmoves
    unfold touches applyPatch
    rw [hpatch]
    cases hprs' : parsePatch args.patch with
    | error e => intro τ hτ; cases hτ
    | ok args' =>
        refine TouchesCovered.of_within (applyHunks_log args'.hunks s) fun p hp => (hcov p).mpr ?_
        rcases (mem_touched_kept hparse hprs').mp hp with hsrc | ⟨hunk, hmem, dest, hdest, rfl⟩
        · exact .inl hsrc
        · exact hmoves hunk hmem dest hdest
  refine ⟨fun hmoves => ⟨hsafe hmoves, ?_⟩, fun hok => ⟨?_, hsafe⟩⟩
  · intro canWritePath hconstrained p hp
    rcases hp with hp | hp
    · exact canWrite_of_covers hconstrained (hsafe hmoves _ hp)
    · exact canWrite_of_covers hconstrained (hsafe hmoves _ hp)
  · intro hcovered hunk hmem dest hdest
    unfold touches applyPatch at hcovered
    unfold applyPatch at hok
    rw [hpatch] at hcovered hok
    cases hprs' : parsePatch args.patch with
    | error e => rw [hprs'] at hok; cases hok
    | ok args' =>
        rw [hprs'] at hok hcovered
        have hdest' : resolvePathAgainstBase home dest.stripCr action.cwd ∈
            args'.hunks.flatMap (Hunk.touched home action.cwd) :=
          (mem_touched_kept hparse hprs').mpr (.inr ⟨hunk, hmem, dest, hdest, rfl⟩)
        obtain ⟨hunk', hmem', hp⟩ := mem_flatMap.mp hdest'
        cases hres : (applyHunks fs home action.cwd args'.hunks s).result with
        | error e => rw [hres] at hok; cases hok
        | ok delta =>
            have hlogged := (applyHunks_logged fs home action.cwd args'.hunks s []).1
            rw [hres] at hlogged
            rcases applyHunks_wrote hlogged hunk' hmem' _ hp with hwrote | hwrote
            · exact (hcov _).mp (hcovered _ hwrote)
            · exact (hcov _).mp (hcovered _ hwrote)

/-! ## A patch whose moves are covered and one whose moves are not -/

def sampleUpdate : Hunk :=
  .updateFile "a" (some "b")
    [{ changeContext := none, oldLines := ["x"], newLines := ["y"], isEndOfFile := false }]

def sampleMoveText : Text :=
  "*** Begin Patch\n*** Update File: a\n*** Move to: b\n@@\n-x\n+y\n*** End Patch"

def sampleMove : ApplyPatchArgs :=
  { patch := sampleMoveText, hunks := [sampleUpdate], workdir := none, environmentId := none }

def sampleAction (args : ApplyPatchArgs) (change : ApplyPatchFileChange) : ApplyPatchAction :=
  { changes := (∅ : Finmap _).insert (resolvePathAgainstBase none "a" sampleDir) change,
    patch := args.patch, cwd := sampleDir }

def sampleMoveAction : ApplyPatchAction :=
  sampleAction sampleMove (.update [] (some (resolvePathAgainstBase none "b" sampleDir)) "y\n")

theorem touches_covered_of_sample_move :
    TouchesCovered sampleMoveAction (touches localFileSystem none sampleMoveAction sampleFiles) := by
  have hprs : parsePatch sampleMoveText = .ok sampleMove := by decide +kernel
  have hbody : (verifyApplyPatchArgs localFileSystem (fun _ _ => []) none sampleMove sampleDir sampleFiles).1 =
      .body sampleMoveAction := by decide +kernel
  have hverify : verifyApplyPatchArgs localFileSystem (fun _ _ => []) none { sampleMove with workdir := none } sampleDir
      sampleFiles = (.body sampleMoveAction, sampleFiles) := Prod.ext hbody (verify_local_state _ _ _ _ _)
  refine ((touches_covered_iff_movesCovered hprs hverify).1 ?_).1
  intro hunk hmem dest hdest
  cases mem_singleton.mp hmem
  cases hdest
  exact .inr ⟨sampleUpdate, ⟨[], [], rfl, by simp⟩, "b", rfl, by decide +kernel⟩

def sampleReaddText : Text :=
  "*** Begin Patch\n*** Update File: a\n*** Move to: b\n@@\n-x\n+y\n*** Add File: a\n+z\n*** End Patch"

def sampleReadd : ApplyPatchArgs :=
  { patch := sampleReaddText, hunks := [sampleUpdate, .addFile "a" "z\n"], workdir := none,
    environmentId := none }

def sampleReaddAction : ApplyPatchAction := sampleAction sampleReadd (.add "z\n")

/-- A patch that writes `/w/b` is approved although it may not: the later addition replaces the entry of the move. -/
theorem approved_patch_writes_elsewhere : parsePatch sampleReaddText = .ok sampleReadd ∧
      (verifyApplyPatchArgs localFileSystem (fun _ _ => []) none sampleReadd sampleDir sampleFiles).1 =
        .body sampleReaddAction ∧ .write (resolvePathAgainstBase none "b" sampleDir) ∈
        touches localFileSystem none sampleReaddAction sampleFiles ∧
      ¬ sampleReaddAction.Covers (resolvePathAgainstBase none "b" sampleDir) ∧
      isWritePatchConstrainedToWritablePaths (fun p => p != resolvePathAgainstBase none "b" sampleDir)
        sampleReaddAction = true := by
  have hconstrained : isWritePatchConstrainedToWritablePaths
      (fun p => p != resolvePathAgainstBase none "b" sampleDir) sampleReaddAction = true := by decide +kernel
  refine ⟨by decide +kernel, by decide +kernel, by decide +kernel, ?_, hconstrained⟩
  intro hcov
  simpa using canWrite_of_covers hconstrained hcov

end CodexStudy.ApplyPatch
