import CodexStudy.Sandbox.Lemmas.Permissions

/-!
# The order of the entries

Which entry decides about a path does not depend on the order of the entries.
-/

namespace CodexStudy.Sandbox

open CodexStudy.Lib FileSystemSandboxPolicy List
open CodexStudy.ApplyPatch (AbsolutePath ProcessEnv)

/-- The metadata directories that the target lies in are opened by an entry inside them, or none of them is. -/
def MetadataAgrees (host : Host) (entries : List ResolvedFileSystemEntry) (target : AbsolutePath) : Prop :=
  ∀ m ∈ metadataChildren host entries target, ∀ m' ∈ metadataChildren host entries target,
    hasExplicitWriteEntryForMetadataPath entries m.1 target = hasExplicitWriteEntryForMetadataPath entries m'.1 target

/-- The whole disk is writable, or no write entry decides about the path, or its metadata directories agree. -/
def OrderFree (host : Host) (policy : FileSystemSandboxPolicy) (path cwd : Text) : Prop :=
  policy.hasFullDiskWriteAccess = true ∨
    ∀ target ∈ resolveCandidatePath host path cwd, WriteDecides (policy.resolvedEntriesWithCwd host cwd) target →
      MetadataAgrees host (policy.resolvedEntriesWithCwd host cwd) target

def withEntries (policy : FileSystemSandboxPolicy) (entries : List FileSystemSandboxEntry) : FileSystemSandboxPolicy :=
  { policy with entries := entries }

section

variable {host : Host} {policy : FileSystemSandboxPolicy} {entries : List FileSystemSandboxEntry} {path cwd : Text}

variable (h : policy.entries.Perm entries)

include h in
theorem resolvedEntries_perm :
    (policy.resolvedEntriesWithCwd host cwd).Perm ((withEntries policy entries).resolvedEntriesWithCwd host cwd) :=
  h.filterMap _

include h in
theorem hasSameTargetWriteOverride_perm (entry : FileSystemSandboxEntry) :
    (withEntries policy entries).hasSameTargetWriteOverride entry = policy.hasSameTargetWriteOverride entry := by
  rw [Bool.eq_iff_iff]
  simp only [hasSameTargetWriteOverride, any_eq_true, withEntries, h.mem_iff]

include h in
theorem hasFullDiskWriteAccess_perm :
    (withEntries policy entries).hasFullDiskWriteAccess = policy.hasFullDiskWriteAccess := by
  have hnarrow : (withEntries policy entries).narrowsWrite = policy.narrowsWrite := by
    funext entry
    simp only [narrowsWrite, hasSameTargetWriteOverride_perm h]
  have hroot (predicate : FileSystemAccessMode → Bool) :
      (withEntries policy entries).hasRootAccess predicate = policy.hasRootAccess predicate := by
    rw [Bool.eq_iff_iff]
    simp only [hasRootAccess, Bool.and_eq_true, any_eq_true, withEntries, h.mem_iff]
  have hnarrowing : (withEntries policy entries).hasWriteNarrowingEntries = policy.hasWriteNarrowingEntries := by
    unfold hasWriteNarrowingEntries
    rw [hnarrow, Bool.eq_iff_iff]
    simp only [Bool.and_eq_true, any_eq_true, withEntries, h.mem_iff]
  unfold hasFullDiskWriteAccess
  rw [hroot, hnarrowing]
  rfl

include h in
theorem resolveAccessWithCwd_perm :
    (withEntries policy entries).resolveAccessWithCwd host path cwd = policy.resolveAccessWithCwd host path cwd := by
  unfold resolveAccessWithCwd
  have (target : AbsolutePath) :
      resolveAccess ((withEntries policy entries).resolvedEntriesWithCwd host cwd) target =
        resolveAccess (policy.resolvedEntriesWithCwd host cwd) target :=
    resolveAccess_congr fun e => (resolvedEntries_perm h).mem_iff.symm
  simp only [this]
  rfl

include h in
theorem canReadPathWithCwd_perm :
    (withEntries policy entries).canReadPathWithCwd host path cwd = policy.canReadPathWithCwd host path cwd := by
  unfold canReadPathWithCwd
  rw [resolveAccessWithCwd_perm h]

end

section

variable {host : Host} {entries entries' : List ResolvedFileSystemEntry} {target : AbsolutePath}

variable (h : ∀ e, e ∈ entries ↔ e ∈ entries')

include h in
theorem writeDecides_congr :
    WriteDecides entries target ↔ WriteDecides entries' target := by
  rw [← resolveAccess_eq_write, ← resolveAccess_eq_write, resolveAccess_congr h]

include h in
theorem mem_metadataChildren_congr (m : AbsolutePath × Text) :
    m ∈ metadataChildren host entries target ↔ m ∈ metadataChildren host entries' target := by
  simp only [mem_metadataChildren, h]

theorem metadataWriteDenied_of_head {m : AbsolutePath × Text}
    (h : metadataChildOfWritableRoot host entries target = some m) :
    metadataWriteDenied host entries target = !hasExplicitWriteEntryForMetadataPath entries m.1 target := by
  unfold metadataWriteDenied
  rw [h]

include h in
theorem metadataWriteDenied_congr (hagree : MetadataAgrees host entries target) :
    metadataWriteDenied host entries target = metadataWriteDenied host entries' target := by
  cases hm : metadataChildOfWritableRoot host entries target with
  | none =>
      have hemp : metadataChildren host entries' target = [] := by
        rw [eq_nil_iff_forall_not_mem]
        intro m' hm'
        rw [← mem_metadataChildren_congr h, metadataChildOfWritableRoot_eq_none.mp hm] at hm'
        cases hm'
      unfold metadataWriteDenied
      rw [hm, metadataChildOfWritableRoot_eq_none.mpr hemp]
  | some m =>
      have hmem := mem_of_metadataChildOfWritableRoot hm
      cases hm' : metadataChildOfWritableRoot host entries' target with
      | none =>
          rw [mem_metadataChildren_congr h, metadataChildOfWritableRoot_eq_none.mp hm'] at hmem
          cases hmem
      | some m' =>
          have hmem' := (mem_metadataChildren_congr h m').mpr (mem_of_metadataChildOfWritableRoot hm')
          rw [metadataWriteDenied_of_head hm, metadataWriteDenied_of_head hm', hagree m hmem m' hmem',
            hasExplicitWriteEntry_congr h]

end

theorem exists_perm_head {host : Host} {policy : FileSystemSandboxPolicy} {cwd : Text} {e : ResolvedFileSystemEntry}
    (he : e ∈ policy.resolvedEntriesWithCwd host cwd) : ∃ entries, policy.entries.Perm entries ∧
      ((withEntries policy entries).resolvedEntriesWithCwd host cwd).head? = some e := by
  obtain ⟨x, hx, hxe⟩ := mem_filterMap.mp he
  refine ⟨x :: policy.entries.erase x, perm_cons_erase hx, ?_⟩
  simp only [resolvedEntriesWithCwd, withEntries, filterMap_cons, hxe, head?_cons]

theorem exists_perm_metadataChild {host : Host} {policy : FileSystemSandboxPolicy} {cwd : Text} {target : AbsolutePath}
    {m : AbsolutePath × Text} (hm : m ∈ metadataChildren host (policy.resolvedEntriesWithCwd host cwd) target) :
    ∃ entries, policy.entries.Perm entries ∧ metadataWriteDenied host
      ((withEntries policy entries).resolvedEntriesWithCwd host cwd) target =
        !hasExplicitWriteEntryForMetadataPath (policy.resolvedEntriesWithCwd host cwd) m.1 target := by
  obtain ⟨e, he, hacc, hch⟩ := mem_metadataChildren.mp hm
  obtain ⟨entries, hperm, hhead⟩ := exists_perm_head he
  refine ⟨entries, hperm, ?_⟩
  have hfst : metadataChildOfWritableRoot host ((withEntries policy entries).resolvedEntriesWithCwd host cwd) target
      = some m := by
    obtain ⟨rest, hrest⟩ := head?_eq_some_iff.mp hhead
    rw [hrest]
    unfold metadataChildOfWritableRoot
    rw [filter_cons_of_pos (by simp [hacc]), findSome?_cons, hch]
  rw [metadataWriteDenied_of_head hfst, hasExplicitWriteEntry_congr fun e => (resolvedEntries_perm hperm).mem_iff]

/-- Access is the same for all orders of the entries exactly if the path is order free. -/
theorem access_order_free_iff (host : Host) (policy : FileSystemSandboxPolicy) (hkind : policy.kind = .restricted)
    (path cwd : Text) : (∀ entries, policy.entries.Perm entries →
      (withEntries policy entries).resolveAccessWithCwd host path cwd = policy.resolveAccessWithCwd host path cwd ∧
      (withEntries policy entries).canReadPathWithCwd host path cwd = policy.canReadPathWithCwd host path cwd ∧
      (withEntries policy entries).canWritePathWithCwd host path cwd = policy.canWritePathWithCwd host path cwd) ↔
    OrderFree host policy path cwd := by
  constructor
  · intro hall
    by_cases hfull : policy.hasFullDiskWriteAccess = true
    · exact Or.inl hfull
    · have hfull : policy.hasFullDiskWriteAccess = false := by simpa using hfull
      refine Or.inr fun target htgt hwr m hm m' hm' => ?_
      -- Put the entries of the two directories in front in turn.
      have hsame (entries : List FileSystemSandboxEntry) (hperm : policy.entries.Perm entries) :
          (metadataWriteDenied host ((withEntries policy entries).resolvedEntriesWithCwd host cwd) target = false ↔
            policy.canWritePathWithCwd host path cwd = true) := by
        rw [← (hall entries hperm).2.2, canWritePathWithCwd_iff (withEntries policy entries) hkind
          ((hasFullDiskWriteAccess_perm hperm).trans hfull)]
        constructor
        · intro hden
          exact ⟨target, htgt,
            (writeDecides_congr fun e => (resolvedEntries_perm hperm).mem_iff).mp hwr, hden⟩
        · rintro ⟨target', htgt', _, hden⟩
          rw [Option.mem_def.mp htgt] at htgt'
          cases htgt'
          exact hden
      obtain ⟨entries, hperm, hden⟩ := exists_perm_metadataChild hm
      obtain ⟨entries', hperm', hden'⟩ := exists_perm_metadataChild hm'
      have h := hsame entries hperm
      have h' := hsame entries' hperm'
      rw [hden, Bool.not_eq_false'] at h
      rw [hden', Bool.not_eq_false'] at h'
      rw [Bool.eq_iff_iff]
      exact h.trans h'.symm
  · intro hfree entries hperm
    refine ⟨resolveAccessWithCwd_perm hperm, canReadPathWithCwd_perm hperm, ?_⟩
    rw [Bool.eq_iff_iff]
    rcases Bool.eq_false_or_eq_true policy.hasFullDiskWriteAccess with hfull | hfull
    · have hfull' := (hasFullDiskWriteAccess_perm hperm).trans hfull
      unfold canWritePathWithCwd
      rw [resolveAccessWithCwd_perm hperm, hfull, hfull']
      simp
    · have hagree := hfree.resolve_left (by rw [hfull]; nofun)
      rw [canWritePathWithCwd_iff (withEntries policy entries) hkind
        ((hasFullDiskWriteAccess_perm hperm).trans hfull), canWritePathWithCwd_iff policy hkind hfull]
      have hmem (e : ResolvedFileSystemEntry) : e ∈ policy.resolvedEntriesWithCwd host cwd ↔
          e ∈ (withEntries policy entries).resolvedEntriesWithCwd host cwd := (resolvedEntries_perm hperm).mem_iff
      constructor
      · rintro ⟨target, htgt, hwr, hden⟩
        have hwr := (writeDecides_congr hmem).mpr hwr
        exact ⟨target, htgt, hwr, by rwa [metadataWriteDenied_congr hmem (hagree target htgt hwr)]⟩
      · rintro ⟨target, htgt, hwr, hden⟩
        exact ⟨target, htgt, (writeDecides_congr hmem).mp hwr,
          by rwa [← metadataWriteDenied_congr hmem (hagree target htgt hwr)]⟩

/-! ## Runs -/

def nestedRoots : List FileSystemSandboxEntry := [pathEntry "/w" .write, pathEntry "/w/.git" .write]

theorem nested_entries_order_free :
    (restricted nestedEntries.reverse).canWritePathWithCwd {} "/w/docs/notes/.git/config".toList "/w".toList =
      (restricted nestedEntries).canWritePathWithCwd {} "/w/docs/notes/.git/config".toList "/w".toList := by
  refine ((access_order_free_iff {} (.restricted nestedEntries) rfl "/w/docs/notes/.git/config".toList "/w".toList).mpr
    (Or.inr fun target htgt _ m hm m' hm' => ?_) nestedEntries.reverse (reverse_perm _).symm).2.2
  have hpath : resolveCandidatePath {} "/w/docs/notes/.git/config".toList "/w".toList =
      some (AbsolutePath.absolutizeFrom "/w/docs/notes/.git/config".toList .root) := by decide +kernel
  rw [hpath] at htgt
  cases htgt
  have hchildren : metadataChildren {} ((restricted nestedEntries).resolvedEntriesWithCwd
      {} "/w".toList) (AbsolutePath.absolutizeFrom "/w/docs/notes/.git/config".toList .root) =
      [(AbsolutePath.absolutizeFrom "/w/docs/notes/.git".toList .root, ".git".toList)] := by decide +kernel
  rw [hchildren, mem_singleton] at hm hm'
  rw [hm, hm']

/-- With the outer root first the inner entry opens the path; with the inner root first nothing does. -/
theorem order_decides_nested_metadata : nestedRoots.Perm nestedRoots.reverse ∧
      (restricted nestedRoots).canWritePathWithCwd {} "/w/.git/.git/config" "/w" = true ∧
      (restricted nestedRoots.reverse).canWritePathWithCwd {} "/w/.git/.git/config" "/w" = false :=
  ⟨(reverse_perm _).symm, by decide +kernel, by decide +kernel⟩

end CodexStudy.Sandbox
