import CodexStudy.Sandbox.Lemmas.Signature

/-!
# The whole disk, and roots that are granted

A policy that is said to reach the whole disk gives access to every path.
-/

namespace CodexStudy.Sandbox

open CodexStudy.Lib List FileSystemSandboxPolicy Bool
open CodexStudy.ApplyPatch (AbsolutePath ProcessEnv isAbsolute)

variable {target : AbsolutePath} {e : ResolvedFileSystemEntry}

section

variable {host : Host} {policy : FileSystemSandboxPolicy} {cwd : Text}

/-! ## Paths that are given as texts -/

theorem exists_resolveCandidatePath (host : Host) (hcwd : isAbsolute cwd) (path : Text) :
    ∃ target, resolveCandidatePath host path cwd = some target := by
  obtain ⟨c, hc⟩ := exists_fromAbsolutePath host hcwd
  unfold resolveCandidatePath
  split
  next habs => exact exists_fromAbsolutePath host habs
  next => exact ⟨_, by rw [hc]; rfl⟩

theorem canReadPathWithCwd_of_candidate {path : Text} (h : resolveCandidatePath host path cwd = some target) :
    policy.canReadPathWithCwd host path cwd = policy.canReadPathWithCwd host target.display cwd := by
  unfold canReadPathWithCwd resolveAccessWithCwd
  rw [h, resolveCandidatePath_display]

theorem canWritePathWithCwd_of_candidate {path : Text} (h : resolveCandidatePath host path cwd = some target) :
    policy.canWritePathWithCwd host path cwd = policy.canWritePathWithCwd host target.display cwd := by
  unfold canWritePathWithCwd isMetadataWriteDenied
    resolveAccessWithCwd
  rw [h, resolveCandidatePath_display]

/-! ## The whole disk -/

/-- Where `/tmp` is a directory, a policy gives the access to the disk that it is said to give. -/
theorem full_disk_flags_sound (path : Text) (hcwd : isAbsolute cwd) (htmp : host.isDir slashTmpPath = true) :
    (policy.hasFullDiskWriteAccess = true → policy.canWritePathWithCwd host path cwd = true) ∧
      (policy.hasFullDiskReadAccess = true → policy.canReadPathWithCwd host path cwd = true) := by
  obtain ⟨target, htgt⟩ := exists_resolveCandidatePath host hcwd path
  rw [canWritePathWithCwd_of_candidate htgt, canReadPathWithCwd_of_candidate htgt]
  refine ⟨fun hfull => (canWrite_of_fullDiskWrite hcwd hfull).mpr fun hshadow => ?_, canRead_of_fullDiskRead hcwd⟩
  rw [hshadow.notDir] at htmp
  cases htmp

theorem not_denied_of_fullDiskWrite (hcwd : isAbsolute cwd) (hkind : policy.kind = .restricted)
    (hfull : policy.hasFullDiskWriteAccess = true)
    (he : e ∈ policy.resolvedEntriesWithCwd host cwd) : e.access ≠ .none := by
  obtain ⟨c, hc⟩ := exists_fromAbsolutePath host hcwd
  intro hnone
  simp only [hasFullDiskWriteAccess, hkind, and_eq_true, not_eq_true'] at hfull
  obtain ⟨entry, hent, hres, hacc⟩ := mem_resolvedEntries.mp he
  rw [hc] at hres
  rw [hnone] at hacc
  have hnarrow := narrowsWrite_of_hasNoNarrowing hkind hfull.2 hent
  rcases exists_override hnarrow (by rw [hacc]; decide) hres with ⟨-, hne⟩ | hoverride
  · exact hne hacc
  · obtain ⟨-, -, -, hlt, -⟩ := hasSameTargetWriteOverride_iff.mp hoverride
    rw [hacc] at hlt
    exact absurd hlt (by decide)

theorem canRead_of_fullDiskWrite (hcwd : isAbsolute cwd) (hkind : policy.kind = .restricted)
    (hfull : policy.hasFullDiskWriteAccess = true) (p : AbsolutePath) :
    policy.canReadPathWithCwd host p.display cwd = true := by
  rw [canReadPathWithCwd_display hkind, FileSystemAccessMode.canRead_iff]
  have hpts := hfull
  simp only [hasFullDiskWriteAccess, hkind, and_eq_true] at hpts
  obtain ⟨r, hr, hpath, -⟩ := exists_root_entry hcwd hpts.1
  obtain ⟨g, hg⟩ := exists_decides hr (hpath ▸ AbsolutePath.startsWith_root p)
  rw [resolveAccess_of_decides hg]
  exact not_denied_of_fullDiskWrite hcwd hkind hfull hg.mem

end

/-! ## One more entry -/

section

variable {host : Host} {policy a b : FileSystemSandboxPolicy} {cwd : Text} {path p q : AbsolutePath}
  {access : FileSystemAccessMode} {entries : List ResolvedFileSystemEntry}

def AddsAccess (host : Host) (cwd : Text) (a b : FileSystemSandboxPolicy) : Prop :=
  ∀ p : AbsolutePath,
    (a.canReadPathWithCwd host p.display cwd = true → b.canReadPathWithCwd host p.display cwd = true) ∧
      (a.canWritePathWithCwd host p.display cwd = true → b.canWritePathWithCwd host p.display cwd = true)

theorem AddsAccess.refl (policy : FileSystemSandboxPolicy) : AddsAccess host cwd policy policy := fun _ => ⟨id, id⟩

theorem AddsAccess.trans {c : FileSystemSandboxPolicy} (h : AddsAccess host cwd a b) (h' : AddsAccess host cwd b c) :
    AddsAccess host cwd a c := fun p => ⟨(h' p).1 ∘ (h p).1, (h' p).2 ∘ (h p).2⟩

/-- An entry denies exactly this path. -/
def DeniesExactly (host : Host) (policy : FileSystemSandboxPolicy) (cwd : Text) (path : AbsolutePath) : Prop :=
  ∃ e ∈ policy.resolvedEntriesWithCwd host cwd, e.access = .none ∧ e.path = path

theorem resolvedEntries_push : (policy.pushPathEntry path access).resolvedEntriesWithCwd host cwd =
    policy.resolvedEntriesWithCwd host cwd ++ [⟨path, access⟩] := by
  unfold resolvedEntriesWithCwd pushPathEntry
  rw [filterMap_append]
  rfl

theorem deniesExactly_push (policy : FileSystemSandboxPolicy) (path : AbsolutePath) (haccess : access ≠ .none) :
    DeniesExactly host (policy.pushPathEntry path access) cwd q ↔ DeniesExactly host policy cwd q := by
  unfold DeniesExactly
  rw [resolvedEntries_push]
  constructor
  · rintro ⟨e, he, hnone, hpath⟩
    rcases mem_append.mp he with he | he
    · exact ⟨e, he, hnone, hpath⟩
    · rw [mem_singleton.mp he] at hnone
      exact absurd hnone haccess
  · rintro ⟨e, he, h⟩
    exact ⟨e, mem_append_left _ he, h⟩

theorem hasFullDiskWriteAccess_push_write (h : policy.hasFullDiskWriteAccess = true) :
    (policy.pushPathEntry path .write).hasFullDiskWriteAccess = true := by
  cases hkind : policy.kind with
  | unrestricted | externalSandbox => simp only [hasFullDiskWriteAccess,
      pushPathEntry, hkind]
  | restricted =>
      obtain ⟨hroot, hnarrow⟩ := (hasFullDiskWriteAccess_iff hkind).mp h
      have hkind' : (policy.pushPathEntry path .write).kind = .restricted := hkind
      refine (hasFullDiskWriteAccess_iff hkind').mpr ⟨mem_append_left _ hroot, fun entry hent => ?_⟩
      rcases mem_append.mp hent with hent | hent
      · refine narrowsWrite_mono (fun hover => ?_) (hnarrow entry hent)
        obtain ⟨candidate, hcand, hshare⟩ := hasSameTargetWriteOverride_iff.mp hover
        exact hasSameTargetWriteOverride_iff.mpr ⟨candidate, mem_append_left _ hcand, hshare⟩
      · rw [mem_singleton.mp hent]
        rfl

theorem restricted_of_not_canRead {path : Text} (h : ¬ policy.canReadPathWithCwd host path cwd = true) :
    policy.kind = .restricted := by
  cases hk : policy.kind with
  | restricted => rfl
  | unrestricted | externalSandbox =>
      refine absurd ?_ h
      unfold canReadPathWithCwd resolveAccessWithCwd
      rw [hk]
      rfl

theorem restricted_of_not_canWrite {path : Text} (h : ¬ policy.canWritePathWithCwd host path cwd = true) :
    policy.kind = .restricted := by
  cases hk : policy.kind with
  | restricted => rfl
  | unrestricted | externalSandbox =>
      refine absurd ?_ h
      unfold canWritePathWithCwd resolveAccessWithCwd
        hasFullDiskWriteAccess
      rw [hk]
      rfl

theorem canWrite_of_canWritePath {path : Text} (h : policy.canWritePathWithCwd host path cwd = true) :
    (policy.resolveAccessWithCwd host path cwd).canWrite = true := by
  unfold canWritePathWithCwd at h
  split at h
  next => cases h
  next hwr => simpa using hwr

theorem mem_append_singleton_iff {x : ResolvedFileSystemEntry} : e ∈ entries ++ [x] ↔ e ∈ entries ∨ e ∈ [x] :=
  mem_append

/-! ## An entry for reading -/

theorem writeDecides_push_read (hread : (resolveAccess entries path).canRead = false) (h : WriteDecides entries q) :
    WriteDecides (entries ++ [⟨path, .read⟩]) q := by
  refine (merged_write_iff (fun _ => mem_append_singleton_iff) ?_).mpr ?_ h
  · intro x hx
    rw [mem_singleton.mp hx]
    exact nofun
  · intro e he hacc x hx _ hxq
    rw [mem_singleton.mp hx] at hxq ⊢
    rcases he.startsWith.total hxq with hle | hle
    · exact .inl hle
    · have hdecides := he.mono hle hxq
      rw [resolveAccess_of_decides hdecides, hacc] at hread
      cases hread

theorem metadataWriteDenied_push_read :
    metadataWriteDenied host (entries ++ [⟨path, .read⟩]) q = metadataWriteDenied host entries q := by
  have hfilter : (entries ++ [(⟨path, .read⟩ : ResolvedFileSystemEntry)]).filter (fun entry => entry.access.canWrite) =
      entries.filter fun entry => entry.access.canWrite := by
    rw [filter_append, filter_singleton]
    exact append_nil _
  have hexplicit (m : AbsolutePath) : hasExplicitWriteEntryForMetadataPath (entries ++ [⟨path, .read⟩]) m q =
      hasExplicitWriteEntryForMetadataPath entries m q := by
    unfold hasExplicitWriteEntryForMetadataPath
    rw [any_append]
    exact or_false _
  unfold metadataWriteDenied metadataChildOfWritableRoot
  rw [hfilter]
  simp only [hexplicit]

theorem grantReadableRoot_addsAccess (hcwd : isAbsolute cwd) :
    AddsAccess host cwd policy (policy.grantReadableRoot host cwd path) := by
  unfold grantReadableRoot
  split
  next => exact .refl policy
  next hread =>
    have hkind := restricted_of_not_canRead hread
    rw [not_eq_true] at hread
    have hfull : policy.hasFullDiskWriteAccess = false := by
      rw [← not_eq_true]
      intro hfull
      rw [canRead_of_fullDiskWrite hcwd hkind hfull] at hread
      cases hread
    rw [canReadPathWithCwd_display hkind] at hread
    have hkind' : (policy.pushPathEntry path .read).kind = .restricted := hkind
    intro p
    rw [canReadPathWithCwd_display hkind, canReadPathWithCwd_display hkind', canWritePathWithCwd_display hkind hfull,
      resolvedEntries_push]
    refine ⟨merged_canRead (fun _ => mem_append_singleton_iff) ?_, ?_⟩
    · intro x hx
      rw [mem_singleton.mp hx]
      exact nofun
    · rintro ⟨hwr, hden⟩
      have hwr' := writeDecides_push_read hread hwr
      cases hfull' : (policy.pushPathEntry path .read).hasFullDiskWriteAccess with
      | true =>
          unfold canWritePathWithCwd
          rw [resolveAccessWithCwd_display hkind', resolvedEntries_push, resolveAccess_eq_write.mpr hwr', hfull']
          rfl
      | false =>
          rw [canWritePathWithCwd_display hkind' hfull', resolvedEntries_push, metadataWriteDenied_push_read]
          exact ⟨hwr', hden⟩

/-! ## An entry for writing -/

theorem metadataChildOfWritableRoot_push (entries : List ResolvedFileSystemEntry) (path : AbsolutePath) :
    metadataChildOfWritableRoot host (entries ++ [⟨path, .write⟩]) q =
      (metadataChildOfWritableRoot host entries q).or (metadataChildOf host q ⟨path, .write⟩) := by
  unfold metadataChildOfWritableRoot
  rw [filter_append, findSome?_append]
  congr 1
  cases h : metadataChildOf host q ⟨path, .write⟩ with
  | none => simp [h]
  | some m => simp [h]

theorem metadataChildOfWritableRoot_ne_none {n : Text} (he : e ∈ entries)
    (hacc : e.access = .write) (hn : n ∈ protectedMetadataPathNames)
    (hq : q.StartsWith (e.path.join host.toProcessEnv n)) : metadataChildOfWritableRoot host entries q ≠ none := by
  rw [Ne, metadataChildOfWritableRoot_eq_none]
  intro hnil
  have hmem := mem_metadataChildren.mpr ⟨e, he, hacc, metadataChildOf_eq_some.mpr ⟨hn, rfl, hq⟩⟩
  rw [hnil] at hmem
  cases hmem

theorem metadataWriteDenied_push_write
    (hpath : ¬ (WriteDecides entries path ∧ metadataWriteDenied host entries path = false))
    (hwr : WriteDecides entries q) (hopen : metadataWriteDenied host entries q = false) :
    metadataWriteDenied host (entries ++ [⟨path, .write⟩]) q = false := by
  rw [← not_eq_true, metadataWriteDenied_iff]
  rintro ⟨m, hm, hcls⟩
  rw [metadataChildOfWritableRoot_push] at hm
  cases hch : metadataChildOfWritableRoot host entries q with
  | some m' =>
      rw [hch, Option.some_or, Option.some.injEq] at hm
      subst hm
      rw [← not_eq_true, metadataWriteDenied_iff] at hopen
      exact hopen ⟨m', hch, fun f hf => hcls f (mem_append_left _ hf)⟩
  | none =>
      rw [hch, Option.none_or] at hm
      obtain ⟨m, n⟩ := m
      obtain ⟨hn, rfl, hqm⟩ := metadataChildOf_eq_some.mp hm
      obtain ⟨e, he, hacc⟩ := hwr
      have hqpath : q.StartsWith path := hqm.trans (join_startsWith hn)
      rcases he.startsWith.total hqpath with hle | hle
      · by_cases heq : e.path = path
        · exact metadataChildOfWritableRoot_ne_none he.mem hacc hn (heq ▸ hqm) hch
        · exact hcls e (mem_append_left _ he.mem) hacc he.startsWith
            (startsWith_join_of_between hn hqm he.startsWith hle heq)
      · -- The entry that opens `q` decides about the root as well, which is then closed as metadata.
        have hden : metadataWriteDenied host entries path = true := by
          by_contra hnot
          exact hpath ⟨⟨e, he.mono hle hqpath, hacc⟩, not_eq_true _ ▸ hnot⟩
        obtain ⟨⟨m, n'⟩, hm', -⟩ := metadataWriteDenied_iff.mp hden
        obtain ⟨f, hf, hfacc, hfchild⟩ := mem_metadataChildren.mp (mem_of_metadataChildOfWritableRoot hm')
        obtain ⟨hn', rfl, hpm⟩ := metadataChildOf_eq_some.mp hfchild
        exact metadataChildOfWritableRoot_ne_none hf hfacc hn' (hqpath.trans hpm) hch

theorem grantWritableRoot_addsAccess : AddsAccess host cwd policy (policy.grantWritableRoot host cwd path) := by
  unfold grantWritableRoot
  split
  next => exact .refl policy
  next hcls =>
    have hkind := restricted_of_not_canWrite hcls
    have hkind' : (policy.pushPathEntry path .write).kind = .restricted := hkind
    intro p
    have hwr (h : WriteDecides (policy.resolvedEntriesWithCwd host cwd) p) :
        WriteDecides (policy.resolvedEntriesWithCwd host cwd ++ [⟨path, .write⟩]) p := by
      refine (merged_write_iff (fun _ => mem_append_singleton_iff) ?_).mpr ?_ h
      · intro x hx
        rw [mem_singleton.mp hx]
        exact nofun
      · intro e _ _ x hx hxacc
        rw [mem_singleton.mp hx] at hxacc
        cases hxacc
    refine ⟨?_, fun hcan => ?_⟩
    · rw [canReadPathWithCwd_display hkind, canReadPathWithCwd_display hkind', resolvedEntries_push]
      refine merged_canRead (fun _ => mem_append_singleton_iff) fun x hx => ?_
      rw [mem_singleton.mp hx]
      exact nofun
    · cases hfull' : (policy.pushPathEntry path .write).hasFullDiskWriteAccess with
      | true =>
          have hdecides : WriteDecides (policy.resolvedEntriesWithCwd host cwd) p := by
            rw [← resolveAccess_eq_write, ← resolveAccessWithCwd_display hkind, ← FileSystemAccessMode.canWrite_iff]
            exact canWrite_of_canWritePath hcan
          unfold canWritePathWithCwd
          rw [resolveAccessWithCwd_display hkind', resolvedEntries_push, resolveAccess_eq_write.mpr (hwr hdecides),
            hfull']
          rfl
      | false =>
          have hfull : policy.hasFullDiskWriteAccess = false := by
            rw [← not_eq_true]
            intro hfull
            rw [hasFullDiskWriteAccess_push_write hfull] at hfull'
            cases hfull'
          rw [canWritePathWithCwd_display hkind hfull] at hcls hcan
          rw [canWritePathWithCwd_display hkind' hfull', resolvedEntries_push]
          exact ⟨hwr hcan.1, metadataWriteDenied_push_write hcls hcan.1 hcan.2⟩

/-! ## The roots themselves -/

/-- At a granted root an entry at the root decides, which denies it only if another one denies exactly the root. -/
theorem exists_decides_push (hden : ¬ ∃ e ∈ entries, e.access = .none ∧ e.path = path) (haccess : access ≠ .none) :
    ∃ g, Decides (entries ++ [⟨path, access⟩]) path g ∧ g.path = path ∧ access ≤ g.access ∧ g.access ≠ .none := by
  have hmem : (⟨path, access⟩ : ResolvedFileSystemEntry) ∈ entries ++ [⟨path, access⟩] :=
    mem_append_right _ (mem_singleton_self _)
  obtain ⟨g, hg⟩ := exists_decides hmem (AbsolutePath.StartsWith.refl path)
  have hgpath : g.path = path := hg.startsWith.antisymm (hg.path_le hmem (AbsolutePath.StartsWith.refl path)) |>.symm
  refine ⟨g, hg, hgpath, Governs.rank_le hg hmem (by rw [hgpath]), fun hnone => ?_⟩
  rcases mem_append.mp hg.mem with hold | hnew
  · exact hden ⟨g, hold, hnone, hgpath⟩
  · rw [mem_singleton.mp hnew] at hnone
    exact haccess hnone

theorem canRead_grantReadableRoot (hden : ¬ DeniesExactly host policy cwd path) :
    (policy.grantReadableRoot host cwd path).canReadPathWithCwd host path.display cwd = true := by
  unfold grantReadableRoot
  split
  next hread => exact hread
  next hread =>
    have hkind : (policy.pushPathEntry path .read).kind = .restricted :=
      (restricted_of_not_canRead hread : policy.kind = _)
    obtain ⟨g, hg, -, -, hne⟩ := exists_decides_push hden (nofun : FileSystemAccessMode.read ≠ .none)
    rw [canReadPathWithCwd_display hkind, resolvedEntries_push, resolveAccess_of_decides hg,
      FileSystemAccessMode.canRead_iff]
    exact hne

theorem canWrite_grantWritableRoot (hden : ¬ DeniesExactly host policy cwd path) :
    (policy.grantWritableRoot host cwd path).canWritePathWithCwd host path.display cwd = true := by
  unfold grantWritableRoot
  split
  next hwr => exact hwr
  next hwr =>
    have hkind : (policy.pushPathEntry path .write).kind = .restricted :=
      (restricted_of_not_canWrite hwr : policy.kind = _)
    obtain ⟨g, hg, hgpath, hle, hne⟩ := exists_decides_push hden (nofun : FileSystemAccessMode.write ≠ .none)
    have hacc : g.access = .write := by
      cases hm : g.access with
      | read =>
          rw [hm] at hle
          exact absurd hle (by decide)
      | write => rfl
      | none => exact absurd hm hne
    cases hfull : (policy.pushPathEntry path .write).hasFullDiskWriteAccess with
    | true =>
        unfold canWritePathWithCwd
        rw [resolveAccessWithCwd_display hkind, resolvedEntries_push, resolveAccess_of_decides hg, hacc, hfull]
        rfl
    | false =>
        rw [canWritePathWithCwd_display hkind hfull, resolvedEntries_push]
        have hopen := @metadataWriteDenied_of_path_eq host _ _ (hgpath ▸ hg) hacc
        rw [hgpath] at hopen
        exact ⟨⟨g, hg, hacc⟩, hopen⟩

/-! ## Lists of roots -/

theorem foldl_grant_spec {grant : FileSystemSandboxPolicy → AbsolutePath → FileSystemSandboxPolicy}
    {reaches : FileSystemSandboxPolicy → AbsolutePath → Prop}
    (hadds : ∀ policy root, AddsAccess host cwd policy (grant policy root))
    (hden : ∀ policy root path, DeniesExactly host (grant policy root) cwd path → DeniesExactly host policy cwd path)
    (hreaches : ∀ policy root, ¬ DeniesExactly host policy cwd root → reaches (grant policy root) root)
    (hmono : ∀ a b root, AddsAccess host cwd a b → reaches a root → reaches b root)
    (roots : List AbsolutePath) (policy : FileSystemSandboxPolicy) :
    AddsAccess host cwd policy (roots.foldl grant policy) ∧
      ∀ root ∈ roots, ¬ DeniesExactly host policy cwd root → reaches (roots.foldl grant policy) root := by
  induction roots generalizing policy with
  | nil => exact ⟨.refl policy, nofun⟩
  | cons first roots ih =>
      obtain ⟨hrest, hlater⟩ := ih (grant policy first)
      rw [foldl_cons]
      refine ⟨(hadds policy first).trans hrest, fun root hroot hnot => ?_⟩
      rcases mem_cons.mp hroot with rfl | hroot
      · exact hmono _ _ _ hrest (hreaches policy root hnot)
      · exact hlater root hroot fun h => hnot (hden _ _ _ h)

theorem withAdditionalReadableRoots_spec (hcwd : isAbsolute cwd) (roots : List AbsolutePath) :
    AddsAccess host cwd policy (policy.withAdditionalReadableRoots host cwd roots) ∧
      ∀ root ∈ roots, ¬ DeniesExactly host policy cwd root →
        (policy.withAdditionalReadableRoots host cwd roots).canReadPathWithCwd host root.display cwd = true := by
  unfold withAdditionalReadableRoots
  split
  next hfull => exact ⟨.refl policy, fun root _ _ => canRead_of_fullDiskRead hcwd hfull⟩
  next =>
    refine foldl_grant_spec (fun _ _ => grantReadableRoot_addsAccess hcwd) ?_
      (fun _ _ => canRead_grantReadableRoot) (fun _ _ root h => (h root).1) roots policy
    intro policy root path h
    unfold grantReadableRoot at h
    split at h
    next => exact h
    next => exact (deniesExactly_push policy root (nofun : FileSystemAccessMode.read ≠ .none)).mp h

theorem withAdditionalWritableRoots_spec (roots : List AbsolutePath) :
    AddsAccess host cwd policy (policy.withAdditionalWritableRoots host cwd roots) ∧
      ∀ root ∈ roots, ¬ DeniesExactly host policy cwd root →
        (policy.withAdditionalWritableRoots host cwd roots).canWritePathWithCwd host root.display cwd = true := by
  refine foldl_grant_spec (fun _ _ => grantWritableRoot_addsAccess) ?_
    (fun _ _ => canWrite_grantWritableRoot) (fun _ _ root h => (h root).2) roots policy
  intro policy root path h
  unfold grantWritableRoot at h
  split at h
  next => exact h
  next => exact (deniesExactly_push policy root (nofun : FileSystemAccessMode.write ≠ .none)).mp h

end

/-- Under the one policy everything can be read and written that can be under the other, wherever it is asked for. -/
def KeepsAccess (host : Host) (cwd : Text) (a b : FileSystemSandboxPolicy) : Prop :=
  ∀ path : Text, (a.canReadPathWithCwd host path cwd = true → b.canReadPathWithCwd host path cwd = true) ∧
    (a.canWritePathWithCwd host path cwd = true → b.canWritePathWithCwd host path cwd = true)

theorem AddsAccess.keepsAccess {host : Host} {cwd : Text} {a b : FileSystemSandboxPolicy} (hcwd : isAbsolute cwd)
    (h : AddsAccess host cwd a b) : KeepsAccess host cwd a b := by
  intro path
  obtain ⟨target, htgt⟩ := exists_resolveCandidatePath host hcwd path
  simp only [canReadPathWithCwd_of_candidate htgt, canWritePathWithCwd_of_candidate htgt]
  exact h target

/-- Granted roots only add access, and are themselves reached unless an entry denies exactly the root. -/
theorem granted_roots_only_add (host : Host) (policy : FileSystemSandboxPolicy) (cwd : Text)
    (roots : List AbsolutePath) (hcwd : isAbsolute cwd) :
    (KeepsAccess host cwd policy (policy.withAdditionalReadableRoots host cwd roots) ∧
      ∀ root ∈ roots, ¬ DeniesExactly host policy cwd root →
        (policy.withAdditionalReadableRoots host cwd roots).canReadPathWithCwd host root.display cwd = true) ∧
    KeepsAccess host cwd policy (policy.withAdditionalWritableRoots host cwd roots) ∧
      ∀ root ∈ roots, ¬ DeniesExactly host policy cwd root →
        (policy.withAdditionalWritableRoots host cwd roots).canWritePathWithCwd host root.display cwd = true := by
  obtain ⟨hread, hrdb⟩ := @withAdditionalReadableRoots_spec host policy cwd hcwd roots
  obtain ⟨hwr, hwritable⟩ := @withAdditionalWritableRoots_spec host policy cwd roots
  exact ⟨⟨hread.keepsAccess hcwd, hrdb⟩, hwr.keepsAccess hcwd, hwritable⟩

/-! ## Policies of both kinds -/

def tempHost : Host where
  files := (FileTree.ofFiles [(["tmp".toList, "log".toList], [])]).getD FileTree.empty

def writableDisk : FileSystemSandboxPolicy :=
  .restricted [⟨.special .root, .write⟩, pathEntry "/tmp" .read, ⟨.special .slashTmp, .write⟩]

theorem writableDisk_reaches_tmp : isAbsolute "/w".toList ∧ tempHost.isDir slashTmpPath = true ∧
      writableDisk.canWritePathWithCwd tempHost "/tmp/log".toList "/w".toList = true := by
  have hcwd : isAbsolute "/w".toList := rfl
  have htmp : tempHost.isDir slashTmpPath = true := by decide +kernel
  exact ⟨hcwd, htmp, (full_disk_flags_sound "/tmp/log".toList hcwd htmp).1 (by decide +kernel)⟩

def writableProject : FileSystemSandboxPolicy :=
  .restricted [⟨.special .root, .read⟩, ⟨.special (.projectRoots none), .write⟩, pathEntry "/w/secret" .none]

def gitDirectory : AbsolutePath := AbsolutePath.absolutizeFrom "/w/.git" .root

/-- The metadata directory of the project is granted, and the project itself stays writable. -/
theorem gitDirectory_is_granted : isAbsolute "/w" ∧
      (writableProject.withAdditionalWritableRoots {} "/w" [gitDirectory]).canWritePathWithCwd {}
        gitDirectory.display "/w" = true ∧
      (writableProject.withAdditionalWritableRoots {} "/w" [gitDirectory]).canWritePathWithCwd {}
        "/w/a" "/w" = true := by
  have hden : ¬ DeniesExactly {} writableProject "/w" gitDirectory := by
    unfold DeniesExactly
    decide +kernel
  obtain ⟨-, hkps, hreached⟩ := granted_roots_only_add {} writableProject "/w" [gitDirectory] rfl
  exact ⟨rfl, hreached gitDirectory (mem_singleton_self _) hden, (hkps "/w/a").2 (by decide +kernel)⟩

end CodexStudy.Sandbox
