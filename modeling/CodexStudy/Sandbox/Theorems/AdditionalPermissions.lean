import CodexStudy.Sandbox.Lemmas.Signature

/-!
# Additional permissions and the access of the policy

The added entries compete with those of the policy.
-/

namespace CodexStudy.Sandbox

open CodexStudy.Lib
open CodexStudy.ApplyPatch (AbsolutePath ProcessEnv)

def addedEntries (host : Host) (additional : AdditionalPermissionProfile) (cwd : Text) : List ResolvedFileSystemEntry :=
  resolveEntries host cwd (additional.fileSystem.getD {}).entries

/-- Where a write entry of the policy decides, an added read entry above the path stands above that entry too
or has an added write entry at or below it. -/
def KeepsWritable (host : Host) (base : FileSystemSandboxPolicy) (additional : AdditionalPermissionProfile)
    (path cwd : Text) : Prop :=
  base.kind = .restricted → ∀ target ∈ resolveCandidatePath host path cwd,
    ∀ e, Decides (base.resolvedEntriesWithCwd host cwd) target e → e.access = .write →
      ∀ x ∈ addedEntries host additional cwd, x.access = .read → target.StartsWith x.path →
        e.path.StartsWith x.path ∨
          ∃ y ∈ addedEntries host additional cwd, y.access = .write ∧ target.StartsWith y.path ∧
            y.path.StartsWith x.path

/-! ## The effective policy -/

section

variable {host : Host} {base : FileSystemSandboxPolicy} {additional : AdditionalPermissionProfile} {path cwd : Text}

theorem effective_eq : effectiveFileSystemSandboxPolicy base (some additional) =
    match additional.fileSystem with
    | none => base
    | some fs => if fs.isEmpty then base else mergeFileSystemPolicyWithAdditionalPermissions base fs := rfl

theorem effective_of_not_restricted (h : base.kind ≠ .restricted) :
    effectiveFileSystemSandboxPolicy base (some additional) = base := by
  have hmg (fs : FileSystemPermissions) : mergeFileSystemPolicyWithAdditionalPermissions base fs = base := by
    unfold mergeFileSystemPolicyWithAdditionalPermissions
    cases hk : base.kind with
    | restricted => exact absurd hk h
    | unrestricted => rfl
    | externalSandbox => rfl
  rw [effective_eq]
  cases additional.fileSystem with
  | none => rfl
  | some fs => simp [hmg]

theorem effective_kind : (effectiveFileSystemSandboxPolicy base (some additional)).kind = base.kind := by
  by_cases h : base.kind = .restricted
  · rw [effective_eq]
    cases additional.fileSystem with
    | none => rfl
    | some fs =>
        dsimp only
        split
        · rfl
        · simp [mergeFileSystemPolicyWithAdditionalPermissions, h]
  · rw [effective_of_not_restricted h]

theorem mem_effective (h : base.kind = .restricted) (r : ResolvedFileSystemEntry) :
    r ∈ (effectiveFileSystemSandboxPolicy base (some additional)).resolvedEntriesWithCwd host cwd ↔
      r ∈ base.resolvedEntriesWithCwd host cwd ∨ r ∈ addedEntries host additional cwd := by
  rw [effective_eq]
  unfold addedEntries
  cases additional.fileSystem with
  | none => simp [mem_resolveEntries]
  | some fs =>
      dsimp only [Option.getD_some]
      split
      · rename_i hemp
        have : fs.entries = [] := List.isEmpty_iff.mp hemp
        simp [mem_resolveEntries, this]
      · simp only [mergeFileSystemPolicyWithAdditionalPermissions, h]
        exact mem_resolveEntries_foldl_pushEntry

/-- The additional permissions take nothing away exactly if they keep the path writable. -/
theorem additional_permissions_add_iff (host : Host) (base : FileSystemSandboxPolicy)
    (additional : AdditionalPermissionProfile)
    (hgrants : ∀ fs ∈ additional.fileSystem, ∀ entry ∈ fs.entries, entry.access ≠ .none) (path cwd : Text) :
    ((base.resolveAccessWithCwd host path cwd).canRead = true →
        ((effectiveFileSystemSandboxPolicy base (some additional)).resolveAccessWithCwd host path cwd).canRead = true) ∧
      ((base.resolveAccessWithCwd host path cwd).canWrite = true →
        ((effectiveFileSystemSandboxPolicy base (some additional)).resolveAccessWithCwd host path cwd).canWrite = true) ↔
    KeepsWritable host base additional path cwd := by
  by_cases hk : base.kind = .restricted
  · have hadd : ∀ x ∈ addedEntries host additional cwd, x.access ≠ .none := by
      intro x hx
      obtain ⟨entry, hent, _, hacc⟩ := mem_resolveEntries.mp hx
      cases hfs : additional.fileSystem with
      | none => simp [hfs] at hent
      | some fs =>
          rw [hfs, Option.getD_some] at hent
          exact hacc ▸ hgrants fs hfs entry hent
    unfold FileSystemSandboxPolicy.resolveAccessWithCwd KeepsWritable
    rw [effective_kind, hk]
    cases resolveCandidatePath host path cwd with
    | none => simp
    | some target =>
        simp only [forall_true_left, Option.mem_def, Option.some.injEq, forall_eq',
          FileSystemAccessMode.canWrite_iff, resolveAccess_eq_write]
        rw [← merged_write_iff (mem_effective hk) hadd]
        exact ⟨And.right, fun h => ⟨merged_canRead (mem_effective hk) hadd, h⟩⟩
  · rw [effective_of_not_restricted hk]
    exact iff_of_true ⟨id, id⟩ fun h => absurd h hk

end

/-! ## Runs -/

def workspaceWritable : FileSystemSandboxPolicy := .restricted [pathEntry "/w" .write]

def readBelow (path : String) : AdditionalPermissionProfile := { fileSystem := some { entries := [pathEntry path .read] } }

theorem read_elsewhere_keeps_writable : ((workspaceWritable.resolveAccessWithCwd {} "/w/a" "/w").canRead = true →
      ((effectiveFileSystemSandboxPolicy workspaceWritable (some (readBelow "/r"))).resolveAccessWithCwd {}
        "/w/a" "/w").canRead = true) ∧ ((workspaceWritable.resolveAccessWithCwd {} "/w/a" "/w").canWrite = true →
      ((effectiveFileSystemSandboxPolicy workspaceWritable (some (readBelow "/r"))).resolveAccessWithCwd {}
        "/w/a" "/w").canWrite = true) := by
  refine (additional_permissions_add_iff {} workspaceWritable (readBelow "/r") ?_ "/w/a" "/w").mpr ?_
  · rintro _ ⟨⟩ entry hent
    rw [List.mem_singleton.mp hent]
    nofun
  · intro _ target htarget e _ _ x hx _ hbelow
    have hpath : resolveCandidatePath {} "/w/a" "/w" = some (AbsolutePath.absolutizeFrom "/w/a" .root) := by
      decide +kernel
    have hadd : addedEntries {} (readBelow "/r") "/w" = [⟨AbsolutePath.absolutizeFrom "/r" .root, .read⟩] := by
      decide +kernel
    rw [hpath] at htarget
    cases htarget
    rw [hadd, List.mem_singleton] at hx
    rw [hx] at hbelow
    have hapart : ¬ (AbsolutePath.absolutizeFrom "/w/a" .root).StartsWith (.absolutizeFrom "/r" .root) := by
      decide +kernel
    exact absurd hbelow hapart

/-- An extra read permission for a directory of the workspace makes it read-only. -/
theorem read_below_takes_write_away : (workspaceWritable.resolveAccessWithCwd {} "/w/docs/a" "/w").canWrite = true ∧
      ((effectiveFileSystemSandboxPolicy workspaceWritable (some (readBelow "/w/docs"))).resolveAccessWithCwd {}
        "/w/docs/a" "/w").canWrite = false :=
  ⟨by decide +kernel, by decide +kernel⟩

end CodexStudy.Sandbox
