import CodexStudy.Sandbox.Theorems.GrantedRoots

/-!
# Project roots that are put in place

An entry for the project roots becomes an entry for their place.
-/

namespace CodexStudy.Sandbox

open CodexStudy.Lib List FileSystemSandboxPolicy
open CodexStudy.ApplyPatch (AbsolutePath ProcessEnv isAbsolute)

variable {access : FileSystemAccessMode} {place : AbsolutePath} {q q' : FileSystemPath}

section

variable {host : Host} {policy : FileSystemSandboxPolicy} {cwd cwd' path : Text} {c : AbsolutePath}
  {p p' : FileSystemPath} {entry : FileSystemSandboxEntry}

/-! ## Entries that another one can set aside -/

/-- The entry narrows no access to the disk, whatever else the policy has. -/
def Harmless (entry : FileSystemSandboxEntry) : Prop :=
  match entry.path with
  | .special .root => entry.access ≠ .none
  | .special .minimal | .special (.unknown _ _) => True
  | _ => False

/-- A write entry with the same target sets an entry with this path aside. -/
def Overridable : FileSystemPath → Prop
  | .path _ | .special (.projectRoots _) | .special .tmpdir | .special .slashTmp => True
  | _ => False

theorem narrowsWrite_eq_false_iff : policy.narrowsWrite entry = false ↔ entry.access = .write ∨ Harmless entry ∨
      Overridable entry.path ∧ policy.hasSameTargetWriteOverride entry = true := by
  obtain ⟨path, access⟩ := entry
  unfold narrowsWrite Harmless Overridable
  cases path with
  | path q => cases access <;> simp [FileSystemAccessMode.canWrite]
  | globPattern pattern => cases access <;> simp [FileSystemAccessMode.canWrite]
  | special value => cases value <;> cases access <;> simp [FileSystemAccessMode.canWrite]

/-! ## Where the entries stand -/

def fixedPlace (host : Host) (cwd : Option AbsolutePath) : FileSystemPath → Option AbsolutePath
  | .path path => some path
  | .special .root => some .root
  | .special .slashTmp => some slashTmpPath
  | .special (.projectRoots subpath) => resolveFileSystemSpecialPath host cwd (.projectRoots subpath)
  | _ => none

def placedPattern (host : Host) (c : AbsolutePath) (pattern : Text) : Text :=
  ((parseProjectRootsGlobPattern pattern).map fun subpath => resolveProjectRootsGlobPattern host subpath c).getD pattern

inductive Placed (host : Host) (c : AbsolutePath) : FileSystemPath → FileSystemPath → Prop
  | path (q : AbsolutePath) : Placed host c (.path q) (.path q)
  | globPattern (pattern : Text) : Placed host c (.globPattern pattern) (.globPattern (placedPattern host c pattern))
  | projectRoots (subpath : Option Text) (q : AbsolutePath)
      (h : resolveFileSystemSpecialPath host (some c) (.projectRoots subpath) = some q) :
      Placed host c (.special (.projectRoots subpath)) (.path q)
  | root : Placed host c (.special .root) (.special .root)
  | minimal : Placed host c (.special .minimal) (.special .minimal)
  | tmpdir : Placed host c (.special .tmpdir) (.special .tmpdir)
  | slashTmp : Placed host c (.special .slashTmp) (.special .slashTmp)
  | unknown (name : Text) (subpath : Option Text) :
      Placed host c (.special (.unknown name subpath)) (.special (.unknown name subpath))

theorem materialize_globPattern (pattern : Text) : materializeProjectRootsPath host (some c) (.globPattern pattern) =
    .globPattern (placedPattern host c pattern) := by
  unfold materializeProjectRootsPath placedPattern
  dsimp only
  split
  next _ _ _ subpath hcwd hprs =>
    cases hcwd
    rw [hprs]
    rfl
  next hnone =>
    cases hprs : parseProjectRootsGlobPattern pattern with
    | none => rfl
    | some subpath => exact (hnone c subpath rfl hprs).elim

theorem placed_materialize (host : Host) (c : AbsolutePath) (p : FileSystemPath) :
    Placed host c p (materializeProjectRootsPath host (some c) p) := by
  cases p with
  | path q => exact .path q
  | globPattern pattern => exact @materialize_globPattern host c pattern ▸ .globPattern pattern
  | special value =>
      cases value with
      | projectRoots subpath =>
          cases subpath with
          | none => exact .projectRoots none c rfl
          | some subpath => exact .projectRoots (some subpath) _ rfl
      | root => exact .root
      | minimal => exact .minimal
      | tmpdir => exact .tmpdir
      | slashTmp => exact .slashTmp
      | unknown name subpath => exact .unknown name subpath

namespace Placed

variable (h : Placed host c p p')

include h in
theorem resolveEntryPath_eq (c' : AbsolutePath) :
    resolveEntryPath host (some c') p' = resolveEntryPath host (some c) p := by
  cases h with
  | projectRoots subpath q hq => exact hq.symm
  | path | globPattern | root | minimal | tmpdir | slashTmp | unknown => rfl

include h in
theorem overridable_iff : Overridable p' ↔ Overridable p := by
  cases h with
  | path | globPattern | projectRoots | root | minimal | tmpdir | slashTmp | unknown => exact Iff.rfl

include h in
theorem harmless_iff :
    Harmless ⟨p', access⟩ ↔ Harmless ⟨p, access⟩ := by
  cases h with
  | path | globPattern | projectRoots | root | minimal | tmpdir | slashTmp | unknown => exact Iff.rfl

include h in
theorem materialize_eq (cwd : Option AbsolutePath) :
    materializeProjectRootsPath host cwd p' = p' := by
  cases h with
  | globPattern pattern =>
      have hnone : parseProjectRootsGlobPattern (placedPattern host c pattern) = none := by
        unfold placedPattern
        cases hprs : parseProjectRootsGlobPattern pattern with
        | none => exact hprs
        | some subpath =>
            -- The pattern is an absolute path now, and begins with a slash.
            refine Text.stripPrefix?_eq_none.mpr ?_
            exact Text.not_prefix_of_head? (c := 'c') rfl nofun
      unfold materializeProjectRootsPath
      dsimp only
      rw [hnone]
      cases cwd with
      | none => rfl
      | some c' => rfl
  | path | projectRoots | root | minimal | tmpdir | slashTmp | unknown => rfl

/-! ## Targets that are shared -/

include h in
theorem shareTarget_path_iff :
    fileSystemPathsShareTarget p' (.path place) = true ↔ fixedPlace host (some c) p = some place := by
  cases h with
  | path q => exact beq_iff_eq.trans (Option.some_inj).symm
  | projectRoots subpath q hq =>
      rw [fixedPlace, hq]
      exact beq_iff_eq.trans (Option.some_inj).symm
  | root =>
      refine Iff.trans ⟨eq_root_of_parent, ?_⟩ (eq_comm.trans (Option.some_inj).symm)
      rintro rfl
      rfl
  | slashTmp => exact beq_iff_eq.trans (eq_comm.trans (Option.some_inj).symm)
  | globPattern | minimal | tmpdir | unknown => exact iff_of_false nofun nofun

include h in
theorem shareTarget_slashTmp_iff :
    fileSystemPathsShareTarget p' (.special .slashTmp) = true ↔ fixedPlace host (some c) p = some slashTmpPath := by
  cases h with
  | path q => exact beq_iff_eq.trans (Option.some_inj).symm
  | projectRoots subpath q hq =>
      rw [fixedPlace, hq]
      exact beq_iff_eq.trans (Option.some_inj).symm
  | root =>
      have hne : AbsolutePath.root ≠ slashTmpPath := by decide
      exact iff_of_false nofun fun heq => hne (Option.some.inj heq)
  | slashTmp => exact iff_of_true rfl rfl
  | globPattern | minimal | tmpdir | unknown => exact iff_of_false nofun nofun

include h in
theorem shareTarget_tmpdir_iff :
    fileSystemPathsShareTarget p' (.special .tmpdir) = true ↔ p = .special .tmpdir := by
  cases h with
  | tmpdir => exact iff_of_true rfl rfl
  | path | globPattern | projectRoots | root | minimal | slashTmp | unknown => exact iff_of_false nofun nofun

include h in
theorem shareTarget_iff (h' : Placed host c q q') (hq : Overridable q) : fileSystemPathsShareTarget p' q' = true ↔
      (∃ place, fixedPlace host (some c) p = some place ∧ fixedPlace host (some c) q = some place) ∨
        p = .special .tmpdir ∧ q = .special .tmpdir := by
  cases h' with
  | path place => simp [h.shareTarget_path_iff, fixedPlace]
  | projectRoots subpath place hpl => simp [h.shareTarget_path_iff, fixedPlace, hpl]
  | tmpdir => simp [h.shareTarget_tmpdir_iff, fixedPlace]
  | slashTmp => simp [h.shareTarget_slashTmp_iff, fixedPlace]
  | globPattern | root | minimal | unknown => exact hq.elim

include h in
theorem shareTarget_of_shareTarget (h' : Placed host c q q')
    (hq : Overridable q) (hshare : fileSystemPathsShareTarget p q = true) :
    fileSystemPathsShareTarget p' q' = true := by
  refine (h.shareTarget_iff h' hq).mpr ?_
  cases h' with
  | path place =>
      cases h with
      | path => exact .inl ⟨place, congrArg some (beq_iff_eq.mp hshare), rfl⟩
      | root => exact .inl ⟨place, congrArg some (eq_root_of_parent hshare).symm, rfl⟩
      | slashTmp => exact .inl ⟨place, congrArg some (beq_iff_eq.mp hshare).symm, rfl⟩
      | globPattern | projectRoots | minimal | tmpdir | unknown => cases hshare
  | projectRoots subpath place hpl =>
      cases h with
      | projectRoots subpath' place' hpl' =>
          have hsame := @resolveFileSystemSpecialPath_of_sameSubpath host _ _ hshare (some c)
          exact .inl ⟨place, hsame.trans hpl, hpl⟩
      | path | globPattern | root | minimal | tmpdir | slashTmp | unknown => cases hshare
  | tmpdir =>
      cases h with
      | tmpdir => exact .inr ⟨rfl, rfl⟩
      | path | globPattern | projectRoots | root | minimal | slashTmp | unknown => cases hshare
  | slashTmp =>
      cases h with
      | path => exact .inl ⟨slashTmpPath, congrArg some (beq_iff_eq.mp hshare), rfl⟩
      | slashTmp => exact .inl ⟨slashTmpPath, rfl, rfl⟩
      | globPattern | projectRoots | root | minimal | tmpdir | unknown => cases hshare
  | globPattern | root | minimal | unknown => exact hq.elim

end Placed

/-! ## Access to the whole disk -/

def placedPolicy (host : Host) (policy : FileSystemSandboxPolicy) (c : AbsolutePath) : FileSystemSandboxPolicy :=
  { policy with
    entries := policy.entries.map fun entry =>
      { entry with path := materializeProjectRootsPath host (some c) entry.path } }

variable (hc : AbsolutePath.fromAbsolutePath host.toProcessEnv cwd = some c) (hcwd' : isAbsolute cwd')
  (hpath : isAbsolute path)

include hc in
theorem materialize_eq_placed :
    policy.materializeProjectRootsWithCwd host cwd = placedPolicy host policy c := by
  unfold materializeProjectRootsWithCwd placedPolicy
  rw [hc]

/-- What keeps the policy from the whole disk are read entries at places that are written as well, seen to be the same
only when project roots are put in place. -/
structure OpensDisk (host : Host) (policy : FileSystemSandboxPolicy) (cwd : Option AbsolutePath) : Prop where
  kind : policy.kind = .restricted
  narrowed : policy.hasFullDiskWriteAccess = false
  root : ⟨.special .root, .write⟩ ∈ policy.entries
  setAside : ∀ entry ∈ policy.entries, policy.narrowsWrite entry = true →
    entry.access = .read ∧ ∃ candidate ∈ policy.entries, candidate.access = .write ∧
      ∃ place, fixedPlace host cwd candidate.path = some place ∧ fixedPlace host cwd entry.path = some place

theorem overridable_or_root_of_fixedPlace {cwd : Option AbsolutePath}
    (h : fixedPlace host cwd p = some place) : Overridable p ∨ p = .special .root := by
  cases p with
  | path q => exact .inl trivial
  | globPattern pattern => cases h
  | special value =>
      cases value with
      | root => exact .inr rfl
      | projectRoots | tmpdir | slashTmp => exact .inl trivial
      | minimal | unknown => cases h

theorem read_of_lt_write (h : access < .write) : access = .read := by
  cases access with
  | read => rfl
  | write => exact absurd h (lt_irrefl _)
  | none => exact absurd h (by decide)

theorem hasSameTargetWriteOverride_placed_iff (hq : Overridable entry.path) :
    (placedPolicy host policy c).hasSameTargetWriteOverride
        { entry with path := materializeProjectRootsPath host (some c) entry.path } = true ↔
      entry.access = .read ∧ ∃ candidate ∈ policy.entries, candidate.access = .write ∧
        ((∃ place, fixedPlace host (some c) candidate.path = some place ∧
            fixedPlace host (some c) entry.path = some place) ∨
          candidate.path = .special .tmpdir ∧ entry.path = .special .tmpdir) := by
  have hshare (candidate : FileSystemSandboxEntry) :=
    (placed_materialize host c candidate.path).shareTarget_iff (placed_materialize host c entry.path) hq
  rw [hasSameTargetWriteOverride_iff]
  constructor
  · rintro ⟨candidate', hcand, hacc, hlt, htgt⟩
    obtain ⟨candidate, hmem, rfl⟩ := mem_map.mp hcand
    exact ⟨read_of_lt_write hlt, candidate, hmem, hacc, (hshare candidate).mp htgt⟩
  · rintro ⟨hread, candidate, hmem, hacc, htgt⟩
    refine ⟨_, mem_map_of_mem hmem, hacc, ?_, (hshare candidate).mpr htgt⟩
    show entry.access < .write
    rw [hread]
    decide

theorem narrowsWrite_placed_of_not (h : policy.narrowsWrite entry = false) : (placedPolicy host policy c).narrowsWrite
      { entry with path := materializeProjectRootsPath host (some c) entry.path } = false := by
  have hplaced := placed_materialize host c entry.path
  rcases narrowsWrite_eq_false_iff.mp h with hwr | hharmless | ⟨hover, htgt⟩
  · exact narrowsWrite_eq_false_iff.mpr (.inl hwr)
  · exact narrowsWrite_eq_false_iff.mpr (.inr (.inl (hplaced.harmless_iff.mpr hharmless)))
  · refine narrowsWrite_eq_false_iff.mpr (.inr (.inr ⟨hplaced.overridable_iff.mpr hover, ?_⟩))
    obtain ⟨candidate, hmem, hacc, hlt, hshare⟩ := hasSameTargetWriteOverride_iff.mp htgt
    exact hasSameTargetWriteOverride_iff.mpr ⟨_, mem_map_of_mem hmem, hacc, hlt,
      (placed_materialize host c candidate.path).shareTarget_of_shareTarget hplaced hover hshare⟩

/-- Put in place, a policy reaches the whole disk if it did so before or its narrowing entries are set aside now. -/
theorem hasFullDiskWriteAccess_placed_iff (hkind : policy.kind = .restricted) :
    (placedPolicy host policy c).hasFullDiskWriteAccess = true ↔
      policy.hasFullDiskWriteAccess = true ∨ OpensDisk host policy (some c) := by
  have hkind' : (placedPolicy host policy c).kind = .restricted := hkind
  rw [hasFullDiskWriteAccess_iff hkind']
  constructor
  · rintro ⟨hroot, hall⟩
    cases hfull : policy.hasFullDiskWriteAccess with
    | true => exact .inl rfl
    | false =>
        obtain ⟨⟨path, access⟩, hmem, heq⟩ := mem_map.mp hroot
        obtain ⟨hpath, rfl⟩ := FileSystemSandboxEntry.mk.inj heq
        have hplaced := placed_materialize host c path
        rw [hpath] at hplaced
        cases hplaced
        refine .inr ⟨hkind, hfull, hmem, fun entry hent hnarrow => ?_⟩
        have hkept := hall _ (mem_map_of_mem hent)
        have hnot : ¬ policy.narrowsWrite entry = false := by
          rw [hnarrow]
          exact nofun
        rw [narrowsWrite_eq_false_iff, not_or, not_or] at hnot
        have hentryPlaced := placed_materialize host c entry.path
        rcases narrowsWrite_eq_false_iff.mp hkept with hwr | hharmless | ⟨hover, htgt⟩
        · exact absurd hwr hnot.1
        · exact absurd (hentryPlaced.harmless_iff.mp hharmless) hnot.2.1
        · have hover' := hentryPlaced.overridable_iff.mp hover
          obtain ⟨hread, candidate, hcand, hacc, hpl | ⟨htmp, htmp'⟩⟩ :=
            (hasSameTargetWriteOverride_placed_iff hover').mp htgt
          · exact ⟨hread, candidate, hcand, hacc, hpl⟩
          · refine absurd ⟨hover', hasSameTargetWriteOverride_iff.mpr ⟨candidate, hcand, hacc, ?_, ?_⟩⟩ hnot.2.2
            · rw [hread]
              decide
            · rw [htmp, htmp']
              rfl
  · rintro (hfull | hops)
    · obtain ⟨hroot, hall⟩ := (hasFullDiskWriteAccess_iff hkind).mp hfull
      refine ⟨mem_map.mpr ⟨_, hroot, rfl⟩, fun entry' hent => ?_⟩
      obtain ⟨entry, hmem, rfl⟩ := mem_map.mp hent
      exact narrowsWrite_placed_of_not (hall entry hmem)
    · refine ⟨mem_map.mpr ⟨_, hops.root, rfl⟩, fun entry' hent => ?_⟩
      obtain ⟨entry, hmem, rfl⟩ := mem_map.mp hent
      cases hnarrow : policy.narrowsWrite entry with
      | false => exact narrowsWrite_placed_of_not hnarrow
      | true =>
          obtain ⟨hread, candidate, hcand, hacc, hpl⟩ := hops.setAside entry hmem hnarrow
          obtain ⟨_, _, hentryPlace⟩ := id hpl
          rcases overridable_or_root_of_fixedPlace hentryPlace with hover | hroot
          · refine narrowsWrite_eq_false_iff.mpr (.inr (.inr ⟨?_, ?_⟩))
            · exact (placed_materialize host c entry.path).overridable_iff.mpr hover
            · exact (hasSameTargetWriteOverride_placed_iff hover).mpr
                ⟨hread, candidate, hcand, hacc, .inl hpl⟩
          · have hharmless : Harmless entry := by
              unfold Harmless
              rw [hroot, hread]
              exact nofun
            rw [narrowsWrite_eq_false_iff.mpr (.inr (.inl hharmless))] at hnarrow
            cases hnarrow

theorem hasFullDiskWriteAccess_placed_iff' : (placedPolicy host policy c).hasFullDiskWriteAccess = true ↔
    policy.hasFullDiskWriteAccess = true ∨ OpensDisk host policy (some c) := by
  cases hkind : policy.kind with
  | restricted => exact hasFullDiskWriteAccess_placed_iff hkind
  | unrestricted | externalSandbox =>
      have hfull : policy.hasFullDiskWriteAccess = true := by
        rw [hasFullDiskWriteAccess, hkind]
      refine iff_of_true ?_ (.inl hfull)
      have hkind' : (placedPolicy host policy c).kind = policy.kind := rfl
      rw [hasFullDiskWriteAccess, hkind', hkind]

/-! ## Access after the project roots are put in place -/

include hc hcwd' in
theorem resolvedEntries_placed : (placedPolicy host policy c).resolvedEntriesWithCwd host cwd' =
      policy.resolvedEntriesWithCwd host cwd := by
  obtain ⟨c', hc'⟩ := exists_fromAbsolutePath host hcwd'
  unfold resolvedEntriesWithCwd placedPolicy
  rw [filterMap_map, hc, hc']
  refine filterMap_congr fun entry _ => ?_
  simp only [Function.comp, (placed_materialize host c entry.path).resolveEntryPath_eq c']

include hpath in
theorem resolveCandidatePath_of_isAbsolute :
    resolveCandidatePath host path cwd' = resolveCandidatePath host path cwd := by
  unfold resolveCandidatePath
  rw [if_pos hpath, if_pos hpath]

include hc hcwd' hpath in
theorem resolveAccessWithCwd_placed :
    (placedPolicy host policy c).resolveAccessWithCwd host path cwd' = policy.resolveAccessWithCwd host path cwd := by
  unfold resolveAccessWithCwd
  rw [resolvedEntries_placed hc hcwd', @resolveCandidatePath_of_isAbsolute host cwd cwd' path hpath]
  rfl

include hc hcwd' hpath in
theorem isMetadataWriteDenied_placed :
    (placedPolicy host policy c).isMetadataWriteDenied host path cwd' = policy.isMetadataWriteDenied host path cwd := by
  unfold isMetadataWriteDenied
  rw [resolvedEntries_placed hc hcwd', @resolveCandidatePath_of_isAbsolute host cwd cwd' path hpath]
  rfl

theorem materialize_placed : (placedPolicy host policy c).materializeProjectRootsWithCwd host cwd' =
    placedPolicy host policy c := by
  unfold materializeProjectRootsWithCwd placedPolicy
  simp only [map_map]
  congr 1
  refine map_congr_left fun entry _ => ?_
  simp only [Function.comp, (placed_materialize host c entry.path).materialize_eq]

/-- The same is read and written as before, and nothing is left to put in place. -/
structure PreservesAuthority (host : Host) (policy : FileSystemSandboxPolicy) (cwd cwd' path : Text) : Prop where
  canRead : (policy.materializeProjectRootsWithCwd host cwd).canReadPathWithCwd host path cwd' =
    policy.canReadPathWithCwd host path cwd
  canWrite : (policy.materializeProjectRootsWithCwd host cwd).canWritePathWithCwd host path cwd' =
    policy.canWritePathWithCwd host path cwd
  settled : ∀ other, (policy.materializeProjectRootsWithCwd host cwd).materializeProjectRootsWithCwd host other =
    policy.materializeProjectRootsWithCwd host cwd

/-- Only a metadata directory that a write entry decides about is opened when the policy comes to reach the whole disk.
-/
theorem materialize_preserves_authority_iff (host : Host) (policy : FileSystemSandboxPolicy) (cwd cwd' path : Text)
    (hcwd : isAbsolute cwd) (hcwd' : isAbsolute cwd') (hpath : isAbsolute path) :
    PreservesAuthority host policy cwd cwd' path ↔
      ¬ (OpensDisk host policy (AbsolutePath.fromAbsolutePath host.toProcessEnv cwd) ∧
        (policy.resolveAccessWithCwd host path cwd).canWrite = true ∧
        policy.isMetadataWriteDenied host path cwd = true) := by
  obtain ⟨c, hc⟩ := exists_fromAbsolutePath host hcwd
  have hplaced := @materialize_eq_placed host policy cwd c hc
  have haccess := @resolveAccessWithCwd_placed host policy cwd cwd' path c hc hcwd' hpath
  have hden := @isMetadataWriteDenied_placed host policy cwd cwd' path c hc hcwd' hpath
  have hread : (policy.materializeProjectRootsWithCwd host cwd).canReadPathWithCwd host path cwd' =
      policy.canReadPathWithCwd host path cwd := by
    unfold canReadPathWithCwd
    rw [hplaced, haccess]
  have hset (other : Text) : (policy.materializeProjectRootsWithCwd host cwd).materializeProjectRootsWithCwd host
      other = policy.materializeProjectRootsWithCwd host cwd := by
    rw [hplaced, materialize_placed]
  have hwr : PreservesAuthority host policy cwd cwd' path ↔
      (placedPolicy host policy c).canWritePathWithCwd host path cwd' = policy.canWritePathWithCwd host path cwd := by
    constructor
    · intro h
      rw [← hplaced]
      exact h.canWrite
    · intro h
      exact ⟨hread, by rw [hplaced]; exact h, hset⟩
  have hflag := @hasFullDiskWriteAccess_placed_iff' host policy c
  rw [hwr, hc]
  unfold canWritePathWithCwd
  rw [haccess, hden]
  by_cases hops : OpensDisk host policy (some c)
  · rw [hflag.mpr (.inr hops), hops.narrowed]
    cases (policy.resolveAccessWithCwd host path cwd).canWrite with
    | false => exact iff_of_true rfl fun h => nomatch h.2.1
    | true =>
        cases policy.isMetadataWriteDenied host path cwd with
        | false => exact iff_of_true rfl fun h => nomatch h.2.2
        | true => exact iff_of_false nofun fun h => h ⟨hops, rfl, rfl⟩
  · have hsame : (placedPolicy host policy c).hasFullDiskWriteAccess = policy.hasFullDiskWriteAccess := by
      rw [Bool.eq_iff_iff, hflag, or_iff_left hops]
    rw [hsame]
    exact iff_of_true rfl fun h => hops h.1

end

/-! ## A project root that is read by its path -/

def readByPath : FileSystemSandboxPolicy :=
  .restricted [⟨.special .root, .write⟩, pathEntry "/w" .read, ⟨.special (.projectRoots none), .write⟩]

theorem readByPath_preserves_files : isAbsolute "/w" ∧ isAbsolute "/v" ∧ isAbsolute "/w/a" ∧
      PreservesAuthority {} readByPath "/w" "/v" "/w/a" := by
  have hcwd : isAbsolute "/w" := rfl
  have hcwd' : isAbsolute "/v" := rfl
  have hpath : isAbsolute "/w/a" := rfl
  refine ⟨hcwd, hcwd', hpath, (materialize_preserves_authority_iff {} readByPath _ _ _ hcwd hcwd' hpath).mpr ?_⟩
  rintro ⟨-, -, hden⟩
  exact absurd hden (by decide +kernel)

/-- The entry for reading is seen to be set aside once the project root has its path. -/
theorem readByPath_opens_git : ¬ PreservesAuthority {} readByPath "/w" "/w" "/w/.git/config" := by
  intro h
  exact absurd h.canWrite (by decide +kernel)

end CodexStudy.Sandbox
