import CodexStudy.Sandbox.Equivalence

/-!
# The older form of a policy and back

A policy of the older form is turned into entries, with read-only entries for the metadata paths, and read back from
them.
-/

namespace CodexStudy.Sandbox

open CodexStudy.Lib List FileSystemSandboxPolicy LegacyWrites NetworkSandboxPolicy
open CodexStudy.ApplyPatch (AbsolutePath ProcessEnv isAbsolute)

def SandboxPolicy.withoutRedundantRoots (cwd : AbsolutePath) : SandboxPolicy → SandboxPolicy
  | .workspaceWrite writableRoots networkAccess excludeTmpdirEnvVar excludeSlashTmp =>
      .workspaceWrite (writableRoots.filter (· ≠ cwd)).eraseDups networkAccess excludeTmpdirEnvVar excludeSlashTmp
  | policy => policy

/-! ## Entries with write access -/

def writeEntries (entries : List FileSystemSandboxEntry) : List FileSystemSandboxEntry :=
  entries.filter fun entry => entry.access.canWrite

variable {w : LegacyWrites} {entry : FileSystemSandboxEntry} {c : AbsolutePath}

section

variable {host : Host} {cwd : Option AbsolutePath} {entries : List FileSystemSandboxEntry}

theorem writeEntries_append (entries entries' : List FileSystemSandboxEntry) :
    writeEntries (entries ++ entries') = writeEntries entries ++ writeEntries entries' := filter_append ..

theorem writeEntries_appendDefault (path : FileSystemPath) :
    writeEntries (appendDefaultReadOnlyEntryIfNoExplicitRule entries path) = writeEntries entries := by
  unfold appendDefaultReadOnlyEntryIfNoExplicitRule
  split
  next => rfl
  next => exact (writeEntries_append _ _).trans (append_nil _)

theorem writeEntries_foldl {α : Type} {f : List FileSystemSandboxEntry → α → List FileSystemSandboxEntry}
    (hf : ∀ entries a, writeEntries (f entries a) = writeEntries entries) (as : List α) :
    writeEntries (as.foldl f entries) = writeEntries entries := by
  induction as generalizing entries with
  | nil => rfl
  | cons a as ih => exact ih.trans (hf entries a)

theorem writeEntries_protectRoots (protectMissingDotCodex : Bool) (roots : List AbsolutePath) :
    writeEntries (roots.foldl (fun entries root =>
      (defaultReadOnlySubpathsForWritableRoot host root protectMissingDotCodex).foldl
        appendDefaultReadOnlyPathIfNoExplicitRule entries) entries) = writeEntries entries := by
  refine writeEntries_foldl (fun entries root => ?_) roots
  exact writeEntries_foldl (fun entries path => writeEntries_appendDefault (.path path)) _

theorem writeEntries_workspaceWrite (host : Host) (writableRoots : List AbsolutePath)
    (excludeTmpdirEnvVar excludeSlashTmp : Bool) :
    writeEntries (workspaceWrite host writableRoots excludeTmpdirEnvVar excludeSlashTmp).entries =
      writeEntries (workspaceWriteEntries writableRoots excludeTmpdirEnvVar excludeSlashTmp) := by
  refine (writeEntries_protectRoots false writableRoots).trans ?_
  exact writeEntries_foldl (fun entries subpath => writeEntries_appendDefault _) _

theorem writeEntries_fromLegacy (host : Host) (writableRoots : List AbsolutePath)
    (networkAccess excludeTmpdirEnvVar excludeSlashTmp : Bool) (cwd : Text) :
    writeEntries (fromLegacySandboxPolicyForCwd host
        (.workspaceWrite writableRoots networkAccess excludeTmpdirEnvVar excludeSlashTmp) cwd).entries =
      writeEntries (workspaceWriteEntries writableRoots excludeTmpdirEnvVar excludeSlashTmp) := by
  unfold fromLegacySandboxPolicyForCwd
  refine (writeEntries_protectRoots false writableRoots).trans ?_
  refine Eq.trans ?_ (writeEntries_workspaceWrite host writableRoots excludeTmpdirEnvVar excludeSlashTmp)
  cases AbsolutePath.fromAbsolutePath host.toProcessEnv cwd with
  | none => rfl
  | some cwdRoot => exact writeEntries_foldl (fun entries path => writeEntries_appendDefault (.path path)) _

theorem writeEntries_workspaceWriteEntries (writableRoots : List AbsolutePath)
    (excludeTmpdirEnvVar excludeSlashTmp : Bool) :
    writeEntries (workspaceWriteEntries writableRoots excludeTmpdirEnvVar excludeSlashTmp) =
      [⟨.special (.projectRoots none), .write⟩] ++ (if excludeSlashTmp then [] else [⟨.special .slashTmp, .write⟩]) ++
        (if excludeTmpdirEnvVar then [] else [⟨.special .tmpdir, .write⟩]) ++
        writableRoots.map fun path => ⟨.path path, .write⟩ := by
  unfold workspaceWriteEntries
  rw [writeEntries_append, writeEntries_append, writeEntries_append]
  congr 1
  · cases excludeSlashTmp <;> cases excludeTmpdirEnvVar <;> rfl
  · refine filter_eq_self.mpr fun entry hent => ?_
    obtain ⟨path, -, rfl⟩ := mem_map.mp hent
    rfl

/-! ## What is read from the entries -/

theorem add_of_not_canWrite (h : ¬entry.access.canWrite = true) :
    w.add host cwd entry = w := if_neg h

theorem foldl_add_writeEntries (w : LegacyWrites) :
    entries.foldl (add host cwd) w = (writeEntries entries).foldl (add host cwd) w := by
  induction entries generalizing w with
  | nil => rfl
  | cons entry entries ih =>
      by_cases h : entry.access.canWrite = true
      · have hents : writeEntries (entry :: entries) = entry :: writeEntries entries := filter_cons_of_pos h
        rw [hents, foldl_cons, foldl_cons]
        exact ih _
      · have hents : writeEntries (entry :: entries) = writeEntries entries := filter_cons_of_neg h
        rw [hents, foldl_cons, add_of_not_canWrite h]
        exact ih _

theorem add_path {path : AbsolutePath} : w.add host (some c) ⟨.path path, .write⟩ =
    if path = c then { w with workspaceRootWritable := true }
    else { w with writableRoots := w.writableRoots ++ [path] } := by
  have hadd : w.add host (some c) ⟨.path path, .write⟩ =
      if some c == some path then { w with workspaceRootWritable := true }
      else { w with writableRoots := w.writableRoots ++ [path] } := rfl
  rw [hadd]
  refine if_congr ?_ rfl rfl
  rw [beq_iff_eq, Option.some.injEq, eq_comm]

theorem foldl_add_roots (hw : w.workspaceRootWritable = true) (roots : List AbsolutePath) :
    (roots.map fun path => (⟨.path path, .write⟩ : FileSystemSandboxEntry)).foldl (add host (some c)) w =
      { w with writableRoots := w.writableRoots ++ roots.filter (· ≠ c) } := by
  induction roots generalizing w with
  | nil => rw [filter_nil, append_nil, map_nil, foldl_nil]
  | cons root roots ih =>
      rw [map_cons, foldl_cons]
      by_cases hroot : root = c
      · have hadd : w.add host (some c) ⟨.path root, .write⟩ = w := by
          rw [add_path, if_pos hroot, ← hw]
        rw [hadd, ih hw, filter_cons_of_neg (by simpa using hroot)]
      · have hadd : w.add host (some c) ⟨.path root, .write⟩ = { w with writableRoots := w.writableRoots ++ [root] } := by
          rw [add_path, if_neg hroot]
        rw [hadd, ih (by exact hw), filter_cons_of_pos (by simpa using hroot), append_assoc]
        rfl

theorem foldl_add_workspaceWrite (writableRoots : List AbsolutePath) (excludeTmpdirEnvVar excludeSlashTmp : Bool) :
    (writeEntries (workspaceWriteEntries writableRoots excludeTmpdirEnvVar excludeSlashTmp)).foldl
        (add host (some c)) {} =
      { workspaceRootWritable := true, writableRoots := writableRoots.filter (· ≠ c),
        tmpdirWritable := !excludeTmpdirEnvVar, slashTmpWritable := !excludeSlashTmp } := by
  rw [writeEntries_workspaceWriteEntries, foldl_append]
  cases excludeSlashTmp <;> cases excludeTmpdirEnvVar <;> exact foldl_add_roots rfl writableRoots

theorem ne_root_of_mem_writeEntries {writableRoots : List AbsolutePath} {excludeTmpdirEnvVar excludeSlashTmp : Bool}
    (h : entry ∈ writeEntries (workspaceWriteEntries writableRoots excludeTmpdirEnvVar excludeSlashTmp)) :
    entry.path ≠ .special .root := by
  rw [writeEntries_workspaceWriteEntries, mem_append, mem_append, mem_append, mem_singleton] at h
  rcases h with ((rfl | hslashTmp) | htmpdir) | hroot
  · simp
  · cases excludeSlashTmp <;> simp_all
  · cases excludeTmpdirEnvVar <;> simp_all
  · obtain ⟨path, -, rfl⟩ := mem_map.mp hroot
    simp

theorem hasFullDiskWriteAccess_eq_false {policy : FileSystemSandboxPolicy} (hkind : policy.kind = .restricted)
    (hroot : ∀ entry ∈ writeEntries policy.entries, entry.path ≠ .special .root) :
    policy.hasFullDiskWriteAccess = false := by
  have haccess : policy.hasRootAccess FileSystemAccessMode.canWrite = false := by
    rw [Bool.eq_false_iff]
    intro h
    obtain ⟨entry, hmem, hent⟩ := any_eq_true.mp (Bool.and_eq_true_iff.mp h).2
    obtain ⟨hpath, hwr⟩ := Bool.and_eq_true_iff.mp hent
    have hwritten : entry ∈ writeEntries policy.entries := mem_filter.mpr ⟨hmem, hwr⟩
    exact hroot entry hwritten (beq_iff_eq.mp hpath)
  unfold hasFullDiskWriteAccess
  rw [hkind, haccess]
  rfl

end

/-! ## The round trip -/

theorem isEnabled_ofSandboxPolicy (policy : SandboxPolicy) :
    (NetworkSandboxPolicy.ofSandboxPolicy policy).isEnabled = policy.hasFullNetworkAccess := by
  unfold NetworkSandboxPolicy.ofSandboxPolicy
  cases policy.hasFullNetworkAccess <;> rfl

/-- A policy of the older form comes back as it was, whatever metadata paths there are on the disk. -/
theorem legacy_policy_survives (host : Host) (policy : SandboxPolicy) (cwd : Text) (hcwd : isAbsolute cwd) :
    (fromLegacySandboxPolicyForCwd host policy cwd).toLegacySandboxPolicy host (ofSandboxPolicy policy) cwd =
      .ok (policy.withoutRedundantRoots (AbsolutePath.absolutizeFrom cwd .root)) := by
  cases policy with
  | dangerFullAccess => rfl
  | externalSandbox networkAccess => cases networkAccess <;> rfl
  | readOnly networkAccess => cases networkAccess <;> rfl
  | workspaceWrite writableRoots networkAccess excludeTmpdirEnvVar excludeSlashTmp =>
      have hkind : (fromLegacySandboxPolicyForCwd host
          (.workspaceWrite writableRoots networkAccess excludeTmpdirEnvVar excludeSlashTmp) cwd).kind = .restricted := rfl
      have hnotFull := hasFullDiskWriteAccess_eq_false hkind fun entry hent =>
        ne_root_of_mem_writeEntries (writeEntries_fromLegacy host .. ▸ hent)
      unfold toLegacySandboxPolicy
      rw [hkind]
      dsimp only
      rw [hnotFull, foldl_add_writeEntries, writeEntries_fromLegacy,
        AbsolutePath.fromAbsolutePath_of_isAbsolute host.toProcessEnv hcwd, foldl_add_workspaceWrite,
        isEnabled_ofSandboxPolicy]
      simp [SandboxPolicy.withoutRedundantRoots, SandboxPolicy.hasFullNetworkAccess, dedupAbsolutePaths]

/-- The working directory and a root that is named twice are left out, and the order of the others stays. -/
theorem legacy_workspace_survives :
    let app := AbsolutePath.absolutizeFrom "/app" .root
    let data := AbsolutePath.absolutizeFrom "/data" .root
    let logs := AbsolutePath.absolutizeFrom "/logs" .root
    isAbsolute "/app" ∧
      (fromLegacySandboxPolicyForCwd {} (.workspaceWrite [logs, app, data, logs] true false true)
          "/app").toLegacySandboxPolicy {} .enabled "/app" =
        .ok (.workspaceWrite [logs, data] true false true) := by
  intro app data logs
  refine ⟨by decide, ?_⟩
  have h := legacy_policy_survives {} (.workspaceWrite [logs, app, data, logs] true false true) "/app" (by decide)
  refine h.trans (congrArg Except.ok ?_)
  decide +kernel

end CodexStudy.Sandbox
