import CodexStudy.Sandbox.Lemmas.Signature

/-!
# Granted permissions and the request

What is granted is cut down entry by entry to what was requested.
-/

namespace CodexStudy.Sandbox

open CodexStudy.Lib List Or FileSystemSandboxPolicy ReadDenyMatcher Governs
open CodexStudy.ApplyPatch (AbsolutePath ProcessEnv isAbsolute)

/-! ## What an intersection contains -/

structure Accepted (requested granted : List ResolvedFileSystemEntry) (a : ResolvedFileSystemEntry) : Prop where
  mem : a ∈ granted
  notNone : a.access ≠ .none
  undenied : ∀ u ∈ requested, u.access = .none → u.path ≠ .root → ¬ a.path.StartsWith u.path
  covered : accessCovers (resolveAccess requested a.path) a.access = true

/-- The entry denies reading and reaches into something accepted. -/
structure Retained (requested granted : List ResolvedFileSystemEntry) (n : ResolvedFileSystemEntry) : Prop where
  isNone : n.access = .none
  mem : n ∈ requested ∨ n ∈ granted
  overlaps : ∃ a, Accepted requested granted a ∧ (n.path.StartsWith a.path ∨ a.path.StartsWith n.path)

def IsIntersection (requested granted result : List ResolvedFileSystemEntry) : Prop :=
  ∀ r, r ∈ result ↔ Accepted requested granted r ∨ Retained requested granted r

/-! ## Access under an intersection -/

variable {q : AbsolutePath} {entries accepted : List FileSystemSandboxEntry} {entry : FileSystemSandboxEntry}

section

variable {requested granted result : List ResolvedFileSystemEntry} {p : AbsolutePath} {a b n : ResolvedFileSystemEntry}

theorem Accepted.canRead (h : Accepted requested granted a) : resolveAccess requested a.path ≠ .none := by
  have := h.covered
  cases hacc : a.access with
  | none => exact absurd hacc h.notNone
  | read => simpa [accessCovers, hacc] using this
  | write =>
      have hw : resolveAccess requested a.path = .write := by simpa [accessCovers, hacc] using this
      rw [hw]
      nofun

variable (hres : IsIntersection requested granted result) (ha : Decides result p a) (hacc : a.access ≠ .none)

include hres ha hacc in
theorem accepted_of_decides : Accepted requested granted a :=
  ((hres a).mp ha.mem).resolve_right fun h => hacc h.isNone

include hres ha hacc in
/-- An entry that denies reading above `p` is retained and less specific than the accepted entry that decides. -/
theorem none_above_decides (hn : n.access = .none) (hmem : n ∈ requested ∨ n ∈ granted) (hnp : p.StartsWith n.path) :
    a.path.StartsWith n.path ∧ a.path ≠ n.path := by
  have hoverlap := hnp.total ha.startsWith
  have hn' : n ∈ result := (hres n).mpr (inr ⟨hn, hmem, a, accepted_of_decides hres ha hacc, hoverlap⟩)
  have hle := ha.path_le hn' hnp
  refine ⟨hle, fun heq => hacc ?_⟩
  have hrank := rank_le ha hn' (by rw [heq])
  rwa [hn, FileSystemAccessMode.none_le_iff] at hrank

include hres ha hacc in
theorem requested_canRead (hqa : q.StartsWith a.path) (hpq : p.StartsWith q) :
    resolveAccess requested q ≠ .none := by
  have haccepted := accepted_of_decides hres ha hacc
  obtain ⟨d, hd, hdacc⟩ := decides_of_resolveAccess haccepted.canRead rfl
  obtain ⟨g, hg⟩ := exists_decides hd.mem (hqa.trans hd.startsWith)
  rw [resolveAccess_of_decides hg]
  intro hgnone
  have hle := none_above_decides hres ha hacc hgnone (inl hg.mem) (hpq.trans hg.startsWith)
  -- The deciding entry of the request stands above the accepted path, where another one decides.
  have : Decides requested a.path g := hg.mono hle.1 hqa
  have := (unique this hd).2
  rw [hgnone, hdacc] at this
  exact haccepted.canRead this.symm

include hres in
theorem requested_canRead_of_canRead (h : resolveAccess result p ≠ .none) : resolveAccess requested p ≠ .none := by
  obtain ⟨a, ha, hacc⟩ := decides_of_resolveAccess h rfl
  exact requested_canRead hres ha (hacc ▸ h) ha.startsWith (AbsolutePath.StartsWith.refl p)

include hres in
theorem granted_canRead_of_canRead (h : resolveAccess result p ≠ .none) : resolveAccess granted p ≠ .none := by
  obtain ⟨a, ha, hacc⟩ := decides_of_resolveAccess h rfl
  have hacc : a.access ≠ .none := hacc ▸ h
  have haccepted := accepted_of_decides hres ha hacc
  obtain ⟨g, hg⟩ := exists_decides haccepted.mem ha.startsWith
  rw [resolveAccess_of_decides hg]
  intro hgnone
  have hlt := none_above_decides hres ha hacc hgnone (inr hg.mem) hg.startsWith
  exact hlt.2 (hlt.1.antisymm (hg.path_le haccepted.mem ha.startsWith))

include hres ha hacc in
theorem read_above_decides (hb : b ∈ granted) (hbacc : b.access = .read) (hbp : p.StartsWith b.path) :
    a.path.StartsWith b.path := by
  rcases hbp.total ha.startsWith with hba | hab
  · -- Below the accepted entry the read entry is accepted as well.
    have hbaccepted : Accepted requested granted b := by
      refine ⟨hb, by rw [hbacc]; nofun, fun u hu hunone huroot hbu => ?_, ?_⟩
      · have hau := none_above_decides hres ha hacc hunone (inl hu) (hbp.trans hbu)
        exact (accepted_of_decides hres ha hacc).undenied u hu hunone huroot hau.1
      · rw [hbacc, accessCovers, FileSystemAccessMode.canRead_iff]
        exact requested_canRead hres ha hacc hba hbp
    exact ha.path_le ((hres b).mpr (inl hbaccepted)) hbp
  · exact hab

include hres in
theorem granted_write_of_write (h : WriteDecides result p) :
    WriteDecides granted p := by
  obtain ⟨a, ha, hacc⟩ := h
  have hne : a.access ≠ .none := by rw [hacc]; nofun
  have haccepted := accepted_of_decides hres ha hne
  obtain ⟨g, hg⟩ := exists_decides haccepted.mem ha.startsWith
  refine ⟨g, hg, ?_⟩
  cases hgacc : g.access with
  | write => rfl
  | none =>
      have := granted_canRead_of_canRead hres (p := p) (by rwa [resolveAccess_of_decides ha])
      rw [resolveAccess_of_decides hg] at this
      exact absurd hgacc this
  | read =>
      have hle := read_above_decides hres ha hne hg.mem hgacc hg.startsWith
      have heq := hle.antisymm (hg.path_le haccepted.mem ha.startsWith)
      have hrank := rank_le hg haccepted.mem (by rw [heq])
      rw [hacc, hgacc] at hrank
      exact absurd hrank (by decide)

/-- A read entry of the request decides about `p`, and an accepted write entry is not stopped between it and `p`. -/
def ExceedsRequest (requested granted : List ResolvedFileSystemEntry) (p : AbsolutePath) : Prop :=
  (∃ r, Decides requested p r ∧ r.access = .read) ∧
    ∃ a ∈ granted, a.access = .write ∧ p.StartsWith a.path ∧ WriteDecides requested a.path ∧
      (∀ b ∈ granted, b.access = .read → p.StartsWith b.path → a.path.StartsWith b.path) ∧
      (∀ n ∈ granted, n.access = .none → p.StartsWith n.path → a.path.StartsWith n.path ∧ a.path ≠ n.path) ∧
      (∀ u ∈ requested, u.access = .none → p.StartsWith u.path → u.path = .root ∧ a.path ≠ .root)

include hres in
theorem write_exceeds (h : ExceedsRequest requested granted p) :
    WriteDecides result p := by
  obtain ⟨_, a, hamem, hacc, hap, hawrite, hrds, hnones, hden⟩ := h
  have haccepted : Accepted requested granted a := by
    refine ⟨hamem, by rw [hacc]; nofun, fun u hu hunone huroot hau => ?_, ?_⟩
    · exact huroot (hden u hu hunone (hap.trans hau)).1
    · rw [hacc, accessCovers, FileSystemAccessMode.canWrite_iff]
      exact resolveAccess_eq_write.mpr hawrite
  have ha : a ∈ result := (hres a).mpr (inl haccepted)
  obtain ⟨g, hg⟩ := exists_decides ha hap
  refine ⟨g, hg, ?_⟩
  have hga := hg.path_le ha hap
  rcases (hres g).mp hg.mem with hgacc | hgret
  · cases hgm : g.access with
    | write => rfl
    | none => exact absurd hgm hgacc.notNone
    | read =>
        have heq := (hrds g hgacc.mem hgm hg.startsWith).antisymm hga
        have hrank := rank_le hg ha (by rw [heq])
        rw [hacc, hgm] at hrank
        exact absurd hrank (by decide)
  · rcases hgret.mem with hmem | hmem
    · obtain ⟨hroot, hne⟩ := hden g hmem hgret.isNone hg.startsWith
      rw [hroot] at hga
      exact absurd ((AbsolutePath.startsWith_root a.path).antisymm hga) hne
    · obtain ⟨hle, hne⟩ := hnones g hmem hgret.isNone hg.startsWith
      exact absurd (hle.antisymm hga) hne

include hres in
theorem requested_write_iff :
    (WriteDecides result p → WriteDecides requested p) ↔ ¬ ExceedsRequest requested granted p := by
  constructor
  · intro hkeep hexc
    obtain ⟨d, hd, hdacc⟩ := hkeep (write_exceeds hres hexc)
    obtain ⟨r, hr, hracc⟩ := hexc.1
    have := (unique hd hr).2
    rw [hdacc, hracc] at this
    exact absurd this (by decide)
  · rintro hno ⟨a, ha, hacc⟩
    have hne : a.access ≠ .none := by rw [hacc]; nofun
    have hread := requested_canRead hres ha hne ha.startsWith (AbsolutePath.StartsWith.refl p)
    obtain ⟨r, hr, hracc⟩ := decides_of_resolveAccess hread rfl
    cases hrm : r.access with
    | write => exact ⟨r, hr, hrm⟩
    | none => exact absurd (hracc.symm.trans hrm) hread
    | read =>
        have haccepted := accepted_of_decides hres ha hne
        refine absurd ⟨⟨r, hr, hrm⟩, a, haccepted.mem, hacc, ha.startsWith, ?_, ?_, ?_, ?_⟩ hno
        · have := haccepted.covered
          rw [hacc, accessCovers, FileSystemAccessMode.canWrite_iff] at this
          exact resolveAccess_eq_write.mp this
        · exact fun b hb hbacc hbp => read_above_decides hres ha hne hb hbacc hbp
        · exact fun n hn hnone hnp => none_above_decides hres ha hne hnone (inr hn) hnp
        · intro u hu hunone hup
          obtain ⟨hau, hne'⟩ := none_above_decides hres ha hne hunone (inl hu) hup
          by_cases hroot : u.path = .root
          · exact ⟨hroot, fun h => hne' (h.trans hroot.symm)⟩
          · exact absurd hau (haccepted.undenied u hu hunone hroot)

end

section

variable {host : Host} {globs : GlobCompiler} {cwd : Text} {c p : AbsolutePath}

/-! ## The accepted entries -/

variable (hc : AbsolutePath.fromAbsolutePath host.toProcessEnv cwd = some c)

include hc in
theorem resolvePermissionPath_eq
    (path : FileSystemPath) : resolvePermissionPath host cwd path = resolveEntryPath host (some c) path := by
  unfold resolvePermissionPath
  split
  · rfl
  · rfl
  · rfl
  · rename_i value hval
    rw [hc]
    cases value with
    | root => exact absurd rfl hval
    | minimal => rfl
    | projectRoots subpath => rfl
    | tmpdir => rfl
    | slashTmp => rfl
    | unknown name subpath => rfl

@[simp] theorem access_materialize (entry : FileSystemSandboxEntry) :
    (materializeCwdDependentEntry host cwd entry).access = entry.access := by
  unfold materializeCwdDependentEntry
  split
  · split <;> rfl
  · rfl
  · rfl

include hc in
theorem resolveEntryPath_materialize (entry : FileSystemSandboxEntry) :
    resolveEntryPath host (some c) (materializeCwdDependentEntry host cwd entry).path =
      resolveEntryPath host (some c) entry.path := by
  unfold materializeCwdDependentEntry
  split
  · rename_i h
    split
    · rename_i q hq
      rw [resolvePermissionPath_eq hc] at hq
      rw [hq]
      rfl
    · rfl
  · rename_i h
    rw [h]
    rfl
  · rfl

variable {r : ResolvedFileSystemEntry} {granted requested : FileSystemPermissions}

include hc in
theorem mem_resolveEntries_materialize :
    r ∈ resolveEntries host cwd (entries.map (materializeCwdDependentEntry host cwd)) ↔
      r ∈ resolveEntries host cwd entries := by
  simp only [mem_resolveEntries, mem_map, hc]
  constructor
  · rintro ⟨_, ⟨entry, hent, rfl⟩, hpath, hacc⟩
    exact ⟨entry, hent, by rwa [resolveEntryPath_materialize hc] at hpath, by rwa [access_materialize] at hacc⟩
  · rintro ⟨entry, hent, hpath, hacc⟩
    exact ⟨_, ⟨entry, hent, rfl⟩, by rwa [resolveEntryPath_materialize hc], by rwa [access_materialize]⟩

variable (hcwd : isAbsolute cwd)

include hcwd in
theorem isReadDenied_iff (h : WithoutGlobs entries) :
    ((new host globs (.restricted entries) cwd).any fun matcher => matcher.isReadDenied p) = true ↔
      ∃ u ∈ resolveEntries host cwd entries, u.access = .none ∧ u.path ≠ .root ∧ p.StartsWith u.path := by
  unfold new
  split
  · have hglobs : WithoutGlobs (restricted entries).entries := h
    have hkind : (restricted entries).kind = .restricted := rfl
    simp only [getUnreadableGlobs_eq_nil hglobs, Option.any_some, isReadDenied, map_nil,
      any_nil, Bool.false_or, filterMap_nil, Bool.or_false, any_eq_true, decide_eq_true_eq,
      mem_getUnreadableRoots hkind hcwd]
    constructor
    · rintro ⟨_, ⟨⟨u, hu, rfl, hnone⟩, hroot⟩, hpu⟩
      exact ⟨u, hu, hnone, hroot, hpu⟩
    · rintro ⟨u, hu, hnone, hroot, hpu⟩
      exact ⟨u.path, ⟨⟨u, hu, rfl, hnone⟩, hroot⟩, hpu⟩
  · rename_i hden
    refine iff_of_false (by simp) ?_
    rintro ⟨u, hu, hnone, _⟩
    obtain ⟨entry, hent, _, hacc⟩ := mem_resolveEntries.mp hu
    refine hden ?_
    simp only [hasDeniedReadRestrictions, restricted, beq_self_eq_true,
      Bool.true_and, any_eq_true, beq_iff_eq]
    exact ⟨entry, hent, hacc.trans hnone⟩

include hcwd in
theorem withinRequest_iff (hc : AbsolutePath.fromAbsolutePath host.toProcessEnv cwd = some c)
    (hreq : WithoutGlobs requested.entries) (hgr : entry ∈ granted.entries)
    (hpath : resolveEntryPath host (some c) entry.path = some r.path) (hacc : entry.access = r.access) :
    grantedFileSystemEntryWithinRequest host requested (.restricted requested.entries)
        (new host globs (.restricted requested.entries) cwd) cwd entry = true ↔
      Accepted (resolveEntries host cwd requested.entries) (resolveEntries host cwd granted.entries) r := by
  unfold grantedFileSystemEntryWithinRequest
  rw [resolvePermissionPath_eq hc, hpath]
  have hmem : r ∈ resolveEntries host cwd granted.entries := mem_resolveEntries.mpr ⟨entry, hgr, by rw [hc, hpath], hacc⟩
  dsimp only
  rw [resolveAccessWithCwd_display rfl]
  change _ ↔ _
  constructor
  · intro h
    split at h
    · cases h
    · rename_i hread
      split at h
      · cases h
      · rename_i hden
        refine ⟨hmem, by simpa [hacc] using hread, fun u hu hnone hroot hru => ?_, by rwa [hacc] at h⟩
        exact hden ((isReadDenied_iff hcwd hreq).mpr ⟨u, hu, hnone, hroot, hru⟩)
  · intro h
    have hden : ¬ ((new host globs (.restricted requested.entries) cwd).any
        fun matcher => matcher.isReadDenied r.path) = true := by
      rw [isReadDenied_iff hcwd hreq]
      rintro ⟨u, hu, hnone, hroot, hru⟩
      exact h.undenied u hu hnone hroot hru
    have hread : ¬ (!entry.access.canRead) = true := by simpa [hacc] using h.notNone
    rw [if_neg hread, if_neg hden, hacc]
    exact h.covered

include hcwd in
theorem mem_resolveEntries_accepted
    (hc : AbsolutePath.fromAbsolutePath host.toProcessEnv cwd = some c) (hreq : WithoutGlobs requested.entries) :
    r ∈ resolveEntries host cwd (((granted.entries.filter (grantedFileSystemEntryWithinRequest host requested
        (.restricted requested.entries) (new host globs (.restricted requested.entries) cwd) cwd)).map
          (materializeCwdDependentEntry host cwd)).foldl pushEntry []) ↔
      Accepted (resolveEntries host cwd requested.entries) (resolveEntries host cwd granted.entries) r := by
  rw [mem_resolveEntries_foldl_pushEntry, mem_resolveEntries_materialize hc]
  constructor
  · rintro (h | h)
    · simp [mem_resolveEntries] at h
    · obtain ⟨entry, hent, hpath, hacc⟩ := mem_resolveEntries.mp h
      obtain ⟨hmem, hin⟩ := mem_filter.mp hent
      rw [hc] at hpath
      exact (withinRequest_iff hcwd hc hreq hmem hpath hacc).mp hin
  · intro h
    obtain ⟨entry, hent, hpath, hacc⟩ := mem_resolveEntries.mp h.mem
    rw [hc] at hpath
    refine inr (mem_resolveEntries.mpr ⟨entry, mem_filter.mpr ⟨hent, ?_⟩, by rw [hc, hpath], hacc⟩)
    exact (withinRequest_iff hcwd hc hreq hent hpath hacc).mpr h

/-! ## The retained entries -/

include hc in
theorem denyEntryConstrains_iff (hpath : resolveEntryPath host (some c) entry.path = some q) :
    denyEntryConstrainsAcceptedGrant host accepted cwd entry = true ↔
      ∃ a ∈ resolveEntries host cwd accepted, a.access ≠ .none ∧ (q.StartsWith a.path ∨ a.path.StartsWith q) := by
  have hmt (grantPath : AbsolutePath) :
      denyPathOverlapsGrant host cwd grantPath entry.path = pathsOverlap q grantPath := by
    unfold denyPathOverlapsGrant
    split
    · rename_i pattern hent
      rw [hent] at hpath
      cases hpath
    · rw [resolvePermissionPath_eq hc, hpath]
      rfl
  unfold denyEntryConstrainsAcceptedGrant
  simp only [any_eq_true, mem_filter, FileSystemAccessMode.canRead_iff, hmt]
  constructor
  · rintro ⟨e, ⟨he, hread⟩, hover⟩
    rw [resolvePermissionPath_eq hc] at hover
    cases hres : resolveEntryPath host (some c) e.path with
    | none =>
        rw [hres] at hover
        cases hover
    | some grantPath =>
        rw [hres] at hover
        refine ⟨⟨grantPath, e.access⟩, mem_resolveEntries.mpr ⟨e, he, by rw [hc, hres], rfl⟩, hread, ?_⟩
        simpa [pathsOverlap] using hover
  · rintro ⟨a, ha, hread, hover⟩
    obtain ⟨e, he, hres, hacc⟩ := mem_resolveEntries.mp ha
    refine ⟨e, ⟨he, by rwa [hacc]⟩, ?_⟩
    rw [hc] at hres
    rw [resolvePermissionPath_eq hc, hres]
    simpa [pathsOverlap] using hover

include hc in
theorem mem_resolveEntries_constraining {source : List FileSystemSandboxEntry} :
    r ∈ resolveEntries host cwd (constrainingDenyEntries host source accepted cwd) ↔
      r ∈ resolveEntries host cwd source ∧ r.access = .none ∧ ∃ a ∈ resolveEntries host cwd accepted,
        a.access ≠ .none ∧ (r.path.StartsWith a.path ∨ a.path.StartsWith r.path) := by
  unfold constrainingDenyEntries
  rw [mem_resolveEntries_materialize hc]
  constructor
  · intro h
    obtain ⟨entry, hent, hpath, hacc⟩ := mem_resolveEntries.mp h
    obtain ⟨hent, hconstrains⟩ := mem_filter.mp hent
    obtain ⟨hent, hnone⟩ := mem_filter.mp hent
    refine ⟨mem_resolveEntries.mpr ⟨entry, hent, hpath, hacc⟩, hacc ▸ beq_iff_eq.mp hnone, ?_⟩
    rw [hc] at hpath
    exact (denyEntryConstrains_iff hc hpath).mp hconstrains
  · rintro ⟨hr, hnone, hover⟩
    obtain ⟨entry, hent, hpath, hacc⟩ := mem_resolveEntries.mp hr
    refine mem_resolveEntries.mpr ⟨entry, mem_filter.mpr ⟨mem_filter.mpr ⟨hent, ?_⟩, ?_⟩, hpath, hacc⟩
    · rw [beq_iff_eq, hacc, hnone]
    · rw [hc] at hpath
      exact (denyEntryConstrains_iff hc hpath).mpr hover

include hcwd in
theorem intersectFileSystem_isIntersection (hreq : WithoutGlobs requested.entries) :
    IsIntersection (resolveEntries host cwd requested.entries) (resolveEntries host cwd granted.entries)
      (resolveEntries host cwd (intersectFileSystem host globs requested granted cwd).entries) := by
  obtain ⟨c, hc⟩ := exists_fromAbsolutePath host hcwd
  intro r
  simp only [intersectFileSystem, retainConstrainingDenyEntries]
  rw [mem_resolveEntries_foldl_pushEntry, mem_resolveEntries_foldl_pushEntry, mem_resolveEntries_constraining hc,
    mem_resolveEntries_constraining hc, mem_resolveEntries_accepted hcwd hc hreq]
  simp only [mem_resolveEntries_accepted hcwd hc hreq]
  constructor
  · rintro ((h | ⟨hr, hnone, a, ha, _, hover⟩) | ⟨hr, hnone, a, ha, _, hover⟩)
    · exact inl h
    · exact inr ⟨hnone, inl hr, a, ha, hover⟩
    · exact inr ⟨hnone, inr hr, a, ha, hover⟩
  · rintro (h | ⟨hnone, hr | hr, a, ha, hover⟩)
    · exact inl (inl h)
    · exact inl (inr ⟨hr, hnone, a, ha, ha.notNone, hover⟩)
    · exact inr ⟨hr, hnone, a, ha, ha.notNone, hover⟩

end

/-! ## The two sides -/

def profilePolicy (profile : AdditionalPermissionProfile) : FileSystemSandboxPolicy :=
  .restricted (profile.fileSystem.getD {}).entries

def networkEnabled (profile : AdditionalPermissionProfile) : Prop :=
  profile.network.bind NetworkPermissions.enabled = some true

section

variable {host : Host} {globs : GlobCompiler} {requested granted : AdditionalPermissionProfile} {path cwd : Text}

theorem profilePolicy_intersect : profilePolicy (intersectPermissionProfiles host globs requested granted cwd) =
    .restricted (match requested.fileSystem with
      | none => []
      | some fs => (intersectFileSystem host globs fs (granted.fileSystem.getD {}) cwd).entries) := by
  unfold profilePolicy intersectPermissionProfiles
  cases requested.fileSystem with
  | none => rfl
  | some fs =>
      dsimp only
      congr 1
      rw [Option.map_some, Option.filter_some]
      split
      · rfl
      · rename_i h
        have : (intersectFileSystem host globs fs (granted.fileSystem.getD {}) cwd).entries = [] := by
          simpa [FileSystemPermissions.isEmpty] using h
        rw [this]
        rfl

theorem isIntersection_profiles (hcwd : isAbsolute cwd) (hreq : ∀ fs ∈ requested.fileSystem, WithoutGlobs fs.entries) :
    IsIntersection ((profilePolicy requested).resolvedEntriesWithCwd host cwd)
      ((profilePolicy granted).resolvedEntriesWithCwd host cwd)
      ((profilePolicy (intersectPermissionProfiles host globs requested granted cwd)).resolvedEntriesWithCwd host cwd) := by
  rw [profilePolicy_intersect]
  unfold profilePolicy
  cases hfs : requested.fileSystem with
  | none =>
      intro r
      refine iff_of_false (by simp [resolvedEntriesWithCwd, restricted]) ?_
      have hno (a : ResolvedFileSystemEntry)
          (ha : Accepted ((restricted []).resolvedEntriesWithCwd host cwd)
            ((profilePolicy granted).resolvedEntriesWithCwd host cwd) a) : False :=
        ha.canRead (resolveAccess_of_forall (by
          intro e he
          cases he))
      rintro (h | ⟨_, _, a, ha, _⟩)
      · exact hno r h
      · exact hno a ha
  | some fs => exact intersectFileSystem_isIntersection hcwd (hreq fs hfs)

theorem networkEnabled_intersect (h : networkEnabled (intersectPermissionProfiles host globs requested granted cwd)) :
    networkEnabled requested ∧ networkEnabled granted := by
  unfold networkEnabled intersectPermissionProfiles intersectNetwork at h
  dsimp only at h
  split at h
  · rename_i hr hg
    simp [networkEnabled, hr, hg]
  · cases h

/-- The intersection exceeds neither side exactly if it does not write below a read entry of the request. -/
theorem intersection_within_both_iff (host : Host) (globs : GlobCompiler) (requested granted : AdditionalPermissionProfile)
    (hreq : ∀ fs ∈ requested.fileSystem, WithoutGlobs fs.entries)
    (path cwd : Text) (hcwd : isAbsolute cwd) (target : AbsolutePath)
    (htarget : resolveCandidatePath host path cwd = some target) :
    let result := intersectPermissionProfiles host globs requested granted cwd
    let access (profile : AdditionalPermissionProfile) := (profilePolicy profile).resolveAccessWithCwd host path cwd
    (((access result).canRead = true → (access requested).canRead = true ∧ (access granted).canRead = true) ∧
      ((access result).canWrite = true → (access requested).canWrite = true ∧ (access granted).canWrite = true) ∧
      (networkEnabled result → networkEnabled requested ∧ networkEnabled granted)) ↔
    ¬ ExceedsRequest ((profilePolicy requested).resolvedEntriesWithCwd host cwd)
      ((profilePolicy granted).resolvedEntriesWithCwd host cwd) target := by
  intro result access
  have hres : IsIntersection ((profilePolicy requested).resolvedEntriesWithCwd host cwd)
      ((profilePolicy granted).resolvedEntriesWithCwd host cwd)
      ((profilePolicy result).resolvedEntriesWithCwd host cwd) := isIntersection_profiles hcwd hreq
  have haccess (profile : AdditionalPermissionProfile) : access profile =
      resolveAccess ((profilePolicy profile).resolvedEntriesWithCwd host cwd) target := by
    simp only [access, resolveAccessWithCwd, htarget]
    rfl
  simp only [haccess, FileSystemAccessMode.canRead_iff, FileSystemAccessMode.canWrite_iff, resolveAccess_eq_write]
  rw [← requested_write_iff hres]
  constructor
  · rintro ⟨_, hwr, _⟩ h
    exact (hwr h).1
  · intro hwr
    exact ⟨fun h => ⟨requested_canRead_of_canRead hres h, granted_canRead_of_canRead hres h⟩,
      fun h => ⟨hwr h, granted_write_of_write hres h⟩, networkEnabled_intersect⟩

end

/-! ## Runs -/

def fileProfile (entries : List FileSystemSandboxEntry) : AdditionalPermissionProfile :=
  { fileSystem := some { entries } }

theorem intersection_of_equal_sides :
    let side := fileProfile nestedEntries
    let path := "/w/docs/a".toList
    let result := intersectPermissionProfiles {} (fun _ => none) side side "/w".toList
    let access (profile : AdditionalPermissionProfile) := (profilePolicy profile).resolveAccessWithCwd {} path "/w".toList
    ((access result).canRead = true → (access side).canRead = true ∧ (access side).canRead = true) ∧
      ((access result).canWrite = true → (access side).canWrite = true ∧ (access side).canWrite = true) ∧
      (networkEnabled result → networkEnabled side ∧ networkEnabled side) := by
  refine (intersection_within_both_iff {} (fun _ => none) (fileProfile nestedEntries) (fileProfile nestedEntries) ?_
    "/w/docs/a".toList "/w".toList (by decide) (AbsolutePath.absolutizeFrom "/w/docs/a".toList .root)
    (by decide +kernel)).mpr ?_
  · rintro _ ⟨⟩
    exact withoutGlobs_nested
  · rintro ⟨_, a, ha, hacc, hap, _, hread, _⟩
    -- The read entry stands between the path and the write entry above it.
    have hbetween : ∀ a ∈ (profilePolicy (fileProfile nestedEntries)).resolvedEntriesWithCwd {} "/w".toList,
        a.access = .write → (AbsolutePath.absolutizeFrom "/w/docs/a".toList .root).StartsWith a.path →
          ∃ b ∈ (profilePolicy (fileProfile nestedEntries)).resolvedEntriesWithCwd {} "/w".toList,
            b.access = .read ∧ (AbsolutePath.absolutizeFrom "/w/docs/a".toList .root).StartsWith b.path ∧
              ¬ a.path.StartsWith b.path := by decide +kernel
    obtain ⟨b, hb, hbread, hbp, hno⟩ := hbetween a ha hacc hap
    exact hno (hread b hb hbread hbp)

/-- The read entry of the request below the granted directory is forgotten. -/
theorem intersection_forgets_read_below :
    let requested := fileProfile [pathEntry "/w" .write, pathEntry "/w/secret" .read]
    let granted := fileProfile [pathEntry "/w" .write]
    let result := intersectPermissionProfiles {} (fun _ => none) requested granted "/w"
    let access (profile : AdditionalPermissionProfile) :=
      (profilePolicy profile).resolveAccessWithCwd {} "/w/secret/a" "/w"
    (access result).canWrite = true ∧ (access requested).canWrite = false :=
  ⟨by decide +kernel, by decide +kernel⟩

end CodexStudy.Sandbox
