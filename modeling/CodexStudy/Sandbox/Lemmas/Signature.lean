import CodexStudy.Sandbox.PolicyTransforms
import CodexStudy.Lib.Lists
import CodexStudy.Sandbox.Equivalence
import CodexStudy.Sandbox.Lemmas.WritableRoots

/-!
# What a signature tells
-/

namespace CodexStudy.Sandbox

open CodexStudy.Lib FileSystemSandboxPolicy List FileSystemAccessMode
open CodexStudy.ApplyPatch (AbsolutePath ProcessEnv isAbsolute)

/-! ## Entries that are put together -/

variable {left right : FileSystemPath}

section

variable {host : Host} {cwd : Text}

/-- The paths of the entries with their access modes. -/
def resolveEntries (host : Host) (cwd : Text) (entries : List FileSystemSandboxEntry) : List ResolvedFileSystemEntry :=
  (restricted entries).resolvedEntriesWithCwd host cwd

variable {r : ResolvedFileSystemEntry} {entries : List FileSystemSandboxEntry}

theorem mem_resolveEntries : r ∈ resolveEntries host cwd entries ↔ ∃ entry ∈ entries,
      resolveEntryPath host (AbsolutePath.fromAbsolutePath host.toProcessEnv cwd) entry.path = some r.path ∧
        entry.access = r.access := by
  obtain ⟨path, access⟩ := r
  simp [resolveEntries, resolvedEntriesWithCwd, restricted]

theorem resolveFileSystemSpecialPath_of_sameSubpath {left right : Option Text} (h : sameSubpath left right = true)
    (cwd : Option AbsolutePath) : resolveFileSystemSpecialPath host cwd (.projectRoots left) =
      resolveFileSystemSpecialPath host cwd (.projectRoots right) := by
  unfold sameSubpath at h
  split at h
  · rfl
  · simp only [resolveFileSystemSpecialPath]
    congr 1
    funext p
    exact join_of_samePath h host.toProcessEnv p
  · cases h

theorem resolveEntryPath_of_same (h : sameFileSystemPath left right = true)
    (cwd : Option AbsolutePath) : resolveEntryPath host cwd left = resolveEntryPath host cwd right := by
  unfold sameFileSystemPath at h
  split at h
  · rw [beq_iff_eq.mp h]
  · rw [beq_iff_eq.mp h]
  · exact resolveFileSystemSpecialPath_of_sameSubpath h cwd
  · rfl
  · rw [beq_iff_eq.mp h]

theorem mem_resolveEntries_pushEntry
    {entry : FileSystemSandboxEntry} : r ∈ resolveEntries host cwd (pushEntry entries entry) ↔
      r ∈ resolveEntries host cwd entries ∨ r ∈ resolveEntries host cwd [entry] := by
  unfold pushEntry
  split
  · rename_i h
    obtain ⟨e, he, hsame⟩ := any_eq_true.mp h
    rw [Bool.and_eq_true, beq_iff_eq] at hsame
    refine ⟨Or.inl, ?_⟩
    rintro (hr | hr)
    · exact hr
    · obtain ⟨entry', hent, hpath, hacc⟩ := mem_resolveEntries.mp hr
      cases mem_singleton.mp hent
      refine mem_resolveEntries.mpr ⟨e, he, ?_, hsame.2.trans hacc⟩
      rw [resolveEntryPath_of_same hsame.1, hpath]
  · simp only [mem_resolveEntries, mem_append, or_and_right, exists_or]

theorem mem_resolveEntries_foldl_pushEntry {added : List FileSystemSandboxEntry} :
    r ∈ resolveEntries host cwd (added.foldl pushEntry entries) ↔
      r ∈ resolveEntries host cwd entries ∨ r ∈ resolveEntries host cwd added := by
  induction added generalizing entries with
  | nil => simp [mem_resolveEntries]
  | cons entry added ih =>
      rw [foldl_cons, ih, mem_resolveEntries_pushEntry, or_assoc]
      simp only [mem_resolveEntries, mem_cons, not_mem_nil, or_false, or_and_right, exists_or, exists_eq_left]

end

/-! ## Sorted lists -/

theorem mem_of_sorted_eq {paths paths' : List AbsolutePath} (h : sortedAbsolutePaths paths = sortedAbsolutePaths paths')
    (p : AbsolutePath) : p ∈ paths ↔ p ∈ paths' := by
  unfold sortedAbsolutePaths at h
  rw [← mem_insertionSort (fun left right : AbsolutePath => left.names ≤ right.names), h, mem_insertionSort]

structure SameRoot (w w' : WritableRoot) : Prop where
  root : w.root = w'.root
  readOnly : ∀ q, q ∈ w.readOnlySubpaths ↔ q ∈ w'.readOnlySubpaths
  protectedNames : ∀ n, n ∈ w.protectedMetadataNames ↔ n ∈ w'.protectedMetadataNames

theorem exists_sameRoot {roots roots' : List WritableRoot} (h : sortedWritableRoots roots = sortedWritableRoots roots')
    {w : WritableRoot} (hw : w ∈ roots) : ∃ w' ∈ roots', SameRoot w w' := by
  unfold sortedWritableRoots at h
  have hmem := mem_map_of_mem (f := fun root : WritableRoot =>
    { root with
      readOnlySubpaths := sortedAbsolutePaths root.readOnlySubpaths
      protectedMetadataNames := (root.protectedMetadataNames.insertionSort (· ≤ ·)).destutter (· ≠ ·) }) hw
  rw [← mem_insertionSort (fun left right : WritableRoot => left.root.names ≤ right.root.names), h,
    mem_insertionSort] at hmem
  obtain ⟨w', hw', heq⟩ := mem_map.mp hmem
  injection heq with hroot hsub hnms
  refine ⟨w', hw', hroot.symm, mem_of_sorted_eq hsub.symm, fun n => ?_⟩
  rw [← mem_insertionSort (· ≤ ·), ← mem_destutter_ne, ← hnms, mem_destutter_ne, mem_insertionSort]

/-! ## Roots and reading -/

section

variable {host : Host} {policy : FileSystemSandboxPolicy} {cwd : Text} {p q : AbsolutePath}
  {entries entries' : List ResolvedFileSystemEntry}

def ReadableRoot (entries : List ResolvedFileSystemEntry) (q : AbsolutePath) : Prop :=
  (∃ e ∈ entries, e.path = q) ∧ resolveAccess entries q ≠ .none

def UnreadableRoot (entries : List ResolvedFileSystemEntry) (q : AbsolutePath) : Prop :=
  (∃ e ∈ entries, e.path = q ∧ e.access = .none) ∧ q ≠ .root

theorem mem_getReadableRoots (hkind : policy.kind = .restricted) (hfull : policy.hasFullDiskReadAccess = false) :
    q ∈ policy.getReadableRootsWithCwd host cwd ↔ ReadableRoot (policy.resolvedEntriesWithCwd host cwd) q := by
  unfold getReadableRootsWithCwd
  rw [hfull, if_neg (by simp)]
  simp only [mem_dedupAbsolutePaths, mem_map, mem_filter, Bool.and_eq_true, canReadPathWithCwd_display hkind,
    canRead_iff]
  constructor
  · rintro ⟨e, ⟨he, _, hread⟩, rfl⟩
    exact ⟨⟨e, he, rfl⟩, hread⟩
  · rintro ⟨⟨e, he, rfl⟩, hread⟩
    obtain ⟨g, hg⟩ := exists_decides he (AbsolutePath.StartsWith.refl e.path)
    have hpath := hg.own_path he rfl
    refine ⟨g, ⟨hg.mem, ?_, by rwa [hpath]⟩, hpath⟩
    rwa [← resolveAccess_of_decides hg]

theorem canRead_of_roots (hrdb : ∀ q, ReadableRoot entries q → ReadableRoot entries' q)
    (hunreadable : ∀ q, UnreadableRoot entries' q → UnreadableRoot entries q) (h : resolveAccess entries p ≠ .none) :
    resolveAccess entries' p ≠ .none := by
  obtain ⟨g, hg, hacc⟩ := decides_of_resolveAccess h rfl
  have hroot : ReadableRoot entries g.path :=
    ⟨⟨g, hg.mem, rfl⟩, by rw [resolveAccess_of_decides hg.self, hacc]; exact h⟩
  obtain ⟨⟨e, he, hpath⟩, hread⟩ := hrdb g.path hroot
  obtain ⟨d, hd⟩ := exists_decides he (hpath ▸ hg.startsWith)
  rw [resolveAccess_of_decides hd]
  intro hnone
  have hbel := hd.path_le he (hpath ▸ hg.startsWith)
  rw [hpath] at hbel
  by_cases heq : d.path = g.path
  · rw [← heq, resolveAccess_of_decides hd.self] at hread
    exact hread hnone
  · -- The denying entry stands strictly below an entry that decides, hence not at the root.
    have hne : d.path ≠ .root := by
      intro hroot
      rw [hroot] at hbel heq
      exact heq (hbel.antisymm (AbsolutePath.startsWith_root g.path))
    obtain ⟨⟨u, hu, hupath, _⟩, _⟩ := hunreadable d.path ⟨⟨d, hd.mem, rfl, hnone⟩, hne⟩
    have hle := hg.path_le hu (hupath ▸ hd.startsWith)
    rw [hupath] at hle
    exact heq (hbel.antisymm hle)

/-! ## Access to the whole disk -/

theorem mem_resolvedEntries {e : ResolvedFileSystemEntry} : e ∈ policy.resolvedEntriesWithCwd host cwd ↔
    ∃ entry ∈ policy.entries,
      resolveEntryPath host (AbsolutePath.fromAbsolutePath host.toProcessEnv cwd) entry.path = some e.path ∧
        entry.access = e.access := mem_resolveEntries

theorem exists_root_entry (hcwd : isAbsolute cwd) {predicate : FileSystemAccessMode → Bool}
    (h : policy.hasRootAccess predicate = true) :
    ∃ e ∈ policy.resolvedEntriesWithCwd host cwd, e.path = .root ∧ predicate e.access = true := by
  obtain ⟨c, hc⟩ := exists_fromAbsolutePath host hcwd
  simp only [hasRootAccess, Bool.and_eq_true, any_eq_true, beq_iff_eq] at h
  obtain ⟨_, entry, hent, hpath, hacc⟩ := h
  refine ⟨⟨.root, entry.access⟩, mem_resolvedEntries.mpr ⟨entry, hent, ?_, rfl⟩, rfl, hacc⟩
  rw [hpath, hc]
  rfl

theorem restricted_of_narrowed (h : policy.hasFullDiskWriteAccess = false) : policy.kind = .restricted := by
  cases hk : policy.kind with
  | restricted => rfl
  | unrestricted | externalSandbox => simp [hasFullDiskWriteAccess, hk] at h

theorem restricted_of_unreadable (h : policy.hasFullDiskReadAccess = false) : policy.kind = .restricted := by
  cases hk : policy.kind with
  | restricted => rfl
  | unrestricted | externalSandbox => simp [hasFullDiskReadAccess, hk] at h

theorem canRead_of_fullDiskRead (hcwd : isAbsolute cwd) (hfull : policy.hasFullDiskReadAccess = true) :
    policy.canReadPathWithCwd host p.display cwd = true := by
  cases hkind : policy.kind with
  | unrestricted | externalSandbox =>
      unfold canReadPathWithCwd resolveAccessWithCwd
      rw [hkind]
      rfl
  | restricted =>
      rw [canReadPathWithCwd_display hkind, canRead_iff]
      simp only [hasFullDiskReadAccess, hkind, Bool.and_eq_true, Bool.not_eq_true'] at hfull
      obtain ⟨r, hr, hpath, _⟩ := exists_root_entry hcwd hfull.1
      obtain ⟨g, hg⟩ := exists_decides hr (hpath ▸ AbsolutePath.startsWith_root p)
      rw [resolveAccess_of_decides hg]
      intro hnone
      obtain ⟨entry, hent, _, hacc⟩ := mem_resolvedEntries.mp hg.mem
      have hden : policy.hasDeniedReadRestrictions = true := by
        simp only [hasDeniedReadRestrictions, hkind, beq_self_eq_true, Bool.true_and,
          any_eq_true, beq_iff_eq]
        exact ⟨entry, hent, hacc.trans hnone⟩
      rw [hden] at hfull
      cases hfull.2

/-- A read entry for `/tmp` that only the write entry for the temporary directory sets aside, which stands for
nothing where `/tmp` is no directory. -/
structure ShadowedSlashTmp (host : Host) (policy : FileSystemSandboxPolicy) (cwd : Text) (p : AbsolutePath) : Prop where
  kind : policy.kind = .restricted
  full : policy.hasFullDiskWriteAccess = true
  notDir : host.isDir slashTmpPath = false
  entry : ⟨.path slashTmpPath, .read⟩ ∈ policy.entries
  below : p.StartsWith slashTmpPath
  unopened : ∀ e ∈ policy.resolvedEntriesWithCwd host cwd, e.access = .write → p.StartsWith e.path →
    ¬ e.path.StartsWith slashTmpPath

variable {entry : FileSystemSandboxEntry} {c : AbsolutePath}

theorem hasSameTargetWriteOverride_iff :
    policy.hasSameTargetWriteOverride entry = true ↔ ∃ candidate ∈ policy.entries, candidate.access = .write ∧
      entry.access < .write ∧ fileSystemPathsShareTarget candidate.path entry.path = true := by
  simp only [hasSameTargetWriteOverride, any_eq_true, Bool.and_eq_true,
    canWrite_iff, decide_eq_true_eq]
  constructor
  · rintro ⟨candidate, hmem, ⟨hacc, hlt⟩, hshare⟩
    exact ⟨candidate, hmem, hacc, hacc ▸ hlt, hshare⟩
  · rintro ⟨candidate, hmem, hacc, hlt, hshare⟩
    exact ⟨candidate, hmem, ⟨hacc, hacc.symm ▸ hlt⟩, hshare⟩

theorem eq_root_of_parent (h : q.parent.isNone = true) : q = .root := by
  unfold AbsolutePath.parent at h
  split at h
  · rename_i hnms
    exact AbsolutePath.ext_names hnms
  · cases h

theorem resolveEntryPath_of_matches {path : AbsolutePath} {value : FileSystemSpecialPath}
    (h : specialPathMatchesAbsolutePath value path = true) :
    resolveEntryPath host (some c) (.special value) = some path ∨
      value = .slashTmp ∧ path = slashTmpPath ∧ host.isDir slashTmpPath = false := by
  cases value with
  | root =>
      left
      rw [eq_root_of_parent h]
      rfl
  | slashTmp =>
      have hpath : path = slashTmpPath := beq_iff_eq.mp h
      cases hdir : host.isDir slashTmpPath with
      | false => exact Or.inr ⟨rfl, hpath, rfl⟩
      | true =>
          left
          simp [resolveEntryPath, resolveFileSystemPath, resolveFileSystemSpecialPath, hdir, hpath]
  | minimal => cases h
  | projectRoots subpath => cases h
  | tmpdir => cases h
  | unknown name subpath => cases h

theorem resolveEntryPath_of_specialShareTarget {left right : FileSystemSpecialPath}
    (h : specialPathsShareTarget left right = true) :
    resolveEntryPath host (some c) (.special left) = resolveEntryPath host (some c) (.special right) := by
  unfold specialPathsShareTarget at h
  split at h
  · rfl
  · rfl
  · rfl
  · rfl
  · exact resolveFileSystemSpecialPath_of_sameSubpath h (some c)
  · rfl
  · cases h

theorem resolveEntryPath_of_shareTarget (h : fileSystemPathsShareTarget left right = true)
    (hq : resolveEntryPath host (some c) right = some q) :
    resolveEntryPath host (some c) left = some q ∨ right = .path slashTmpPath ∧ host.isDir slashTmpPath = false := by
  unfold fileSystemPathsShareTarget at h
  split at h
  · left
    rw [beq_iff_eq.mp h, hq]
  · left
    rw [resolveEntryPath_of_specialShareTarget h, hq]
  · -- The left entry is the path: it is where the right one stands, if that stands anywhere.
    rcases resolveEntryPath_of_matches (c := c) h with hres | ⟨rfl, _, hdir⟩
    · rw [hres] at hq
      exact Or.inl hq
    · simp [resolveEntryPath, resolveFileSystemPath, resolveFileSystemSpecialPath, hdir] at hq
  · rcases resolveEntryPath_of_matches (c := c) h with hres | ⟨_, rfl, hdir⟩
    · rw [hres]
      exact Or.inl hq
    · exact Or.inr ⟨rfl, hdir⟩
  · cases hq
  · cases h
  · cases h

theorem exists_override (h : policy.narrowsWrite entry = false) (hacc : entry.access ≠ .write)
    (hq : resolveEntryPath host (some c) entry.path = some q) :
    (entry.path = .special .root ∧ entry.access ≠ .none) ∨ policy.hasSameTargetWriteOverride entry = true := by
  have hnot : (!entry.access.canWrite) = true := by
    rw [Bool.not_eq_true', ← Bool.not_eq_true, canWrite_iff]
    exact hacc
  unfold narrowsWrite at h
  rw [hnot, Bool.true_and] at h
  split at h
  · exact Or.inr (by simpa using h)
  · cases h
  · rename_i hpath
    exact Or.inl ⟨hpath, by simpa using h⟩
  · rename_i hpath
    rw [hpath] at hq
    cases hq
  · rename_i hpath
    rw [hpath] at hq
    cases hq
  · exact Or.inr (by simpa using h)

theorem narrowsWrite_of_hasNoNarrowing (hkind : policy.kind = .restricted) (h : policy.hasWriteNarrowingEntries = false)
    (hent : entry ∈ policy.entries) : policy.narrowsWrite entry = false := by
  simp only [hasWriteNarrowingEntries, hkind, beq_self_eq_true, Bool.true_and,
    ← Bool.not_eq_true, any_eq_true, not_exists, not_and] at h
  simpa using h entry hent

theorem hasFullDiskWriteAccess_iff (hkind : policy.kind = .restricted) : policy.hasFullDiskWriteAccess = true ↔
    ⟨.special .root, .write⟩ ∈ policy.entries ∧ ∀ entry ∈ policy.entries, policy.narrowsWrite entry = false := by
  simp only [hasFullDiskWriteAccess, hasRootAccess,
    hasWriteNarrowingEntries, hkind, beq_self_eq_true, Bool.true_and, Bool.and_eq_true,
    Bool.not_eq_true', any_eq_true, any_eq_false, beq_iff_eq, canWrite_iff,
    Bool.not_eq_true]
  refine and_congr_left fun _ => ⟨?_, fun h => ⟨_, h, rfl, rfl⟩⟩
  rintro ⟨⟨path, access⟩, hent, rfl, rfl⟩
  exact hent

theorem narrowsWrite_mono {other : FileSystemSandboxPolicy}
    (h : policy.hasSameTargetWriteOverride entry = true → other.hasSameTargetWriteOverride entry = true)
    (hold : policy.narrowsWrite entry = false) : other.narrowsWrite entry = false := by
  unfold narrowsWrite at hold ⊢
  cases hacc : (!entry.access.canWrite) with
  | false => rfl
  | true =>
      rw [hacc, Bool.true_and] at hold
      rw [Bool.true_and]
      split at hold
      next =>
        rw [h (by simpa using hold)]
        rfl
      next => cases hold
      next => exact hold
      next => rfl
      next => rfl
      next =>
        rw [h (by simpa using hold)]
        rfl

theorem shadowedSlashTmp_of_override {g : ResolvedFileSystemEntry}
    (hc : AbsolutePath.fromAbsolutePath host.toProcessEnv cwd = some c) (hkind : policy.kind = .restricted)
    (hfull : policy.hasFullDiskWriteAccess = true) (hg : Decides (policy.resolvedEntriesWithCwd host cwd) p g)
    (hgacc : g.access ≠ .write) (hent : entry ∈ policy.entries)
    (hres : resolveEntryPath host (some c) entry.path = some g.path) (hacc : entry.access = g.access)
    (h : policy.hasSameTargetWriteOverride entry = true) : ShadowedSlashTmp host policy cwd p := by
  obtain ⟨candidate, hcand, hcacc, hlt, hshare⟩ := hasSameTargetWriteOverride_iff.mp h
  rw [hacc] at hlt
  have hread : g.access = .read := by
    cases hm : g.access with
    | read => rfl
    | write => exact absurd hm hgacc
    | none =>
        rw [hm] at hlt
        exact absurd hlt (by decide)
  rcases resolveEntryPath_of_shareTarget hshare hres with hcres | ⟨hpath, hdir⟩
  · have hmem : (⟨g.path, .write⟩ : ResolvedFileSystemEntry) ∈ policy.resolvedEntriesWithCwd host cwd :=
      mem_resolvedEntries.mpr ⟨candidate, hcand, by rw [hc, hcres], hcacc⟩
    have hnone := hg.none_of_write_beside hgacc hmem rfl rfl
    rw [hread] at hnone
    cases hnone
  · have hgpath : g.path = slashTmpPath := by
      rw [hpath] at hres
      exact (Option.some.inj hres).symm
    refine ⟨hkind, hfull, hdir, ?_, hgpath ▸ hg.startsWith, fun e he heacc hpe hbel => ?_⟩
    · have heq : entry = ⟨.path slashTmpPath, .read⟩ := by
        rw [← hpath, ← hread, ← hacc]
      exact heq ▸ hent
    · have heq : e.path = g.path := hgpath ▸ hbel.antisymm (hgpath ▸ hg.path_le he hpe)
      have hnone := hg.none_of_write_beside hgacc he heq heacc
      rw [hread] at hnone
      cases hnone

theorem writeDecides_of_fullDiskWrite (hcwd : isAbsolute cwd) (hkind : policy.kind = .restricted)
    (hfull : policy.hasFullDiskWriteAccess = true) :
    WriteDecides (policy.resolvedEntriesWithCwd host cwd) p ↔ ¬ ShadowedSlashTmp host policy cwd p := by
  obtain ⟨c, hc⟩ := exists_fromAbsolutePath host hcwd
  constructor
  · rintro ⟨g, hg, hacc⟩ h
    refine h.unopened g hg.mem hacc hg.startsWith ?_
    exact hg.path_le (mem_resolvedEntries.mpr ⟨_, h.entry, rfl, rfl⟩ : ⟨slashTmpPath, .read⟩ ∈ _) h.below
  · intro hno
    have hpts := hfull
    simp only [hasFullDiskWriteAccess, hkind, Bool.and_eq_true, Bool.not_eq_true'] at hpts
    obtain ⟨r, hr, hrpath, hracc⟩ := exists_root_entry hcwd hpts.1
    obtain ⟨g, hg⟩ := exists_decides hr (hrpath ▸ AbsolutePath.startsWith_root p)
    by_contra hwr
    have hgacc : g.access ≠ .write := fun hacc => hwr ⟨g, hg, hacc⟩
    obtain ⟨entry, hent, hres, hacc⟩ := mem_resolvedEntries.mp hg.mem
    rw [hc] at hres
    have hnarrow := narrowsWrite_of_hasNoNarrowing hkind hpts.2 hent
    rcases exists_override hnarrow (hacc ▸ hgacc) hres with ⟨hroot, hnone⟩ | hoverride
    · have hgroot : g.path = .root := by
        rw [hroot] at hres
        exact (Option.some.inj hres).symm
      rw [hacc] at hnone
      exact hnone (hg.none_of_write_beside hgacc hr (hrpath.trans hgroot.symm)
        (canWrite_iff.mp hracc))
    · exact hno (shadowedSlashTmp_of_override hc hkind hfull hg hgacc hent hres hacc hoverride)

theorem canWrite_of_fullDiskWrite (hcwd : isAbsolute cwd) (hfull : policy.hasFullDiskWriteAccess = true) :
    policy.canWritePathWithCwd host p.display cwd = true ↔ ¬ ShadowedSlashTmp host policy cwd p := by
  cases hk : policy.kind with
  | restricted =>
      rw [← writeDecides_of_fullDiskWrite hcwd hk hfull, ← resolveAccess_eq_write]
      unfold canWritePathWithCwd
      rw [resolveAccessWithCwd_display hk, hfull]
      simp
  | unrestricted | externalSandbox =>
      refine iff_of_true ?_ fun h => by rw [h.kind] at hk; cases hk
      unfold canWritePathWithCwd resolveAccessWithCwd
      rw [hfull, hk]
      rfl

end

end CodexStudy.Sandbox
