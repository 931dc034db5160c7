import CodexStudy.Sandbox.Lemmas.Signature

/-!
# Equivalent policies

Policies with the same signature read the same paths.
-/

namespace CodexStudy.Sandbox

open CodexStudy.Lib FileSystemSandboxPolicy FileSystemSemanticSignature FileTree
open CodexStudy.ApplyPatch (AbsolutePath isAbsolute)

def SameAccess (host : Host) (a b : FileSystemSandboxPolicy) (cwd : Text) (p : AbsolutePath) : Prop :=
  a.canReadPathWithCwd host p.display cwd = b.canReadPathWithCwd host p.display cwd ∧
    a.canWritePathWithCwd host p.display cwd = b.canWritePathWithCwd host p.display cwd

/-- The path is written under `a`; under `b` an entry excludes it where the `.git` file of the root points to. -/
structure ShadowedGitdir (host : Host) (a b : FileSystemSandboxPolicy) (cwd : Text) (p : AbsolutePath) : Prop where
  narrowed : a.hasFullDiskWriteAccess = false
  excluded : ∃ g h, Decides (a.resolvedEntriesWithCwd host cwd) p g ∧ g.access = .write ∧
    Decides (b.resolvedEntriesWithCwd host cwd) p h ∧ h.access ≠ .write ∧
    resolveGitdirFromFile host (g.path.join host.toProcessEnv ".git") = some h.path
  notDenied : metadataWriteDenied host (a.resolvedEntriesWithCwd host cwd) p = false

section

variable {host : Host} {a b : FileSystemSandboxPolicy} {cwd : Text} {p q : AbsolutePath}

structure OpenUnder (host : Host) (a b : FileSystemSandboxPolicy) (cwd : Text) (p : AbsolutePath)
    (g : ResolvedFileSystemEntry) (w w' : WritableRoot) : Prop where
  decides : Decides (a.resolvedEntriesWithCwd host cwd) p g
  write : g.access = .write
  notDenied : metadataWriteDenied host (a.resolvedEntriesWithCwd host cwd) p = false
  root : w.root = g.path
  left : Describes host a cwd w
  right : Describes host b cwd w'
  same : SameRoot w w'

section

variable {g h : ResolvedFileSystemEntry} {w w' : WritableRoot} {n : Text}

variable (hopen : OpenUnder host a b cwd p g w w') (hka : a.kind = .restricted) (hfa : a.hasFullDiskWriteAccess = false)

include hopen in
theorem OpenUnder.root' : w'.root = g.path :=
  hopen.same.root.symm.trans hopen.root

include hopen hka hfa in
theorem OpenUnder.canWrite_name (hn : n ∈ protectedMetadataPathNames)
    (hpn : p.StartsWith (g.path.join host.toProcessEnv n)) :
    b.canWritePathWithCwd host (g.path.join host.toProcessEnv n).display cwd = true := by
  by_contra hcls
  have hn' : n ∈ w.protectedMetadataNames :=
    (hopen.same.protectedNames n).mpr ((hopen.right.protectedNames n).mpr
      ⟨hn, by rw [hopen.root']; simpa using hcls⟩)
  have hden := denied_of_protectedName hka hfa hopen.left hopen.decides hopen.write hopen.root hn' hpn
  rw [hopen.notDenied] at hden
  cases hden

include hopen hka in
theorem OpenUnder.gitdir_of_closed
    (hkb : b.kind = .restricted) (hfa : a.hasFullDiskWriteAccess = false) (hfb : b.hasFullDiskWriteAccess = false)
    (hh : Decides (b.resolvedEntriesWithCwd host cwd) p h) (hhacc : h.access ≠ .write)
    (hbel : h.path.StartsWith g.path) (hne : h.path ≠ g.path) :
    resolveGitdirFromFile host (g.path.join host.toProcessEnv ".git") = some h.path := by
  have hcarved : Carved (b.resolvedEntriesWithCwd host cwd) w'.root h.path :=
    ⟨⟨h, hh.mem, rfl⟩, fun ⟨f, hf, hfacc⟩ => hhacc ((hh.self.unique hf).2.trans hfacc),
      hopen.root' ▸ hbel, hopen.root' ▸ hne⟩
  have hsub := (hopen.same.readOnly h.path).mpr ((hopen.right.readOnly h.path).mpr (Or.inr hcarved))
  rcases (hopen.left.readOnly h.path).mp hsub with hdef | hcarveda
  · rw [hopen.root] at hdef
    rcases mem_defaultReadOnlySubpaths hdef.1 with hgitdir | ⟨n, hn, hpath⟩
    · exact hgitdir
    · have hopenb := hopen.canWrite_name hka hfa hn (hpath ▸ hh.startsWith)
      rw [canWritePathWithCwd_display hkb hfb, ← hpath] at hopenb
      obtain ⟨f, hf, hfacc⟩ := hopenb.1
      exact absurd ((hh.self.unique hf).2.trans hfacc) hhacc
  · obtain ⟨e, he, hpath⟩ := hcarveda.ofEntry
    exact absurd (hbel.antisymm (hpath ▸ hopen.decides.path_le he (hpath ▸ hh.startsWith))) hne

include hopen hka in
theorem OpenUnder.notDenied_of_write
    (hkb : b.kind = .restricted) (hfa : a.hasFullDiskWriteAccess = false) (hfb : b.hasFullDiskWriteAccess = false)
    (hba : ∀ w ∈ b.getWritableRootsWithCwd host cwd, ∃ w' ∈ a.getWritableRootsWithCwd host cwd, SameRoot w w')
    (hh : Decides (b.resolvedEntriesWithCwd host cwd) p h) (hhacc : h.access = .write)
    (hbel : h.path.StartsWith g.path) : metadataWriteDenied host (b.resolvedEntriesWithCwd host cwd) p = false := by
  by_contra hden
  obtain ⟨n, hn, hm⟩ := (metadataWriteDenied_iff_owner hh hhacc).mp (by simpa using hden)
  obtain ⟨e, _, _, hch⟩ := mem_metadataChildren.mp (mem_of_metadataChildOfWritableRoot hm)
  have hpn := (metadataChildOf_eq_some.mp hch).2.2
  have hpath : h.path = g.path := by
    obtain ⟨v, hv, hvh⟩ := (mem_getWritableRoots hkb hfb).2 h.path ⟨⟨h, hh.self, hhacc⟩, h, hh.mem, rfl⟩
    obtain ⟨v', hv', hvsame⟩ := hba v hv
    obtain ⟨_, f, hf, hfpath⟩ := ((mem_getWritableRoots hka hfa).1 v' hv').isRoot
    have hfh : f.path = h.path := hfpath.trans (hvsame.root.symm.trans hvh)
    exact hbel.antisymm (hfh ▸ hopen.decides.path_le hf (hfh ▸ hh.startsWith))
  have hopenb := hopen.canWrite_name hka hfa hn (hpath ▸ hpn)
  rw [canWritePathWithCwd_display hkb hfb, ← hpath, metadataWriteDenied_join hh hhacc hn hpn] at hopenb
  exact hden hopenb.2

end

theorem canWrite_of_sameRoots (hka : a.kind = .restricted) (hkb : b.kind = .restricted)
    (hfa : a.hasFullDiskWriteAccess = false) (hfb : b.hasFullDiskWriteAccess = false)
    (hab : ∀ w ∈ a.getWritableRootsWithCwd host cwd, ∃ w' ∈ b.getWritableRootsWithCwd host cwd, SameRoot w w')
    (hba : ∀ w ∈ b.getWritableRootsWithCwd host cwd, ∃ w' ∈ a.getWritableRootsWithCwd host cwd, SameRoot w w')
    (hwr : a.canWritePathWithCwd host p.display cwd = true) (hno : ¬ ShadowedGitdir host a b cwd p) :
    b.canWritePathWithCwd host p.display cwd = true := by
  rw [canWritePathWithCwd_display hka hfa] at hwr
  obtain ⟨⟨g, hg, hacc⟩, hnotDenied⟩ := hwr
  obtain ⟨w, hw, hwg⟩ := (mem_getWritableRoots hka hfa).2 g.path ⟨⟨g, hg.self, hacc⟩, g, hg.mem, rfl⟩
  obtain ⟨w', hw', hsame⟩ := hab w hw
  have hopen : OpenUnder host a b cwd p g w w' := ⟨hg, hacc, hnotDenied, hwg, (mem_getWritableRoots hka hfa).1 w hw,
    (mem_getWritableRoots hkb hfb).1 w' hw', hsame⟩
  have hrootb : IsWritableRoot (b.resolvedEntriesWithCwd host cwd) g.path := hopen.root' ▸ hopen.right.isRoot
  obtain ⟨k, hk, hkacc, hkpath⟩ := hrootb.decides
  obtain ⟨h, hh⟩ := exists_decides hk.mem (hkpath ▸ hg.startsWith)
  have hbel : h.path.StartsWith g.path := hkpath ▸ hh.path_le hk.mem (hkpath ▸ hg.startsWith)
  by_cases hhacc : h.access = .write
  · exact (canWritePathWithCwd_display hkb hfb).mpr
      ⟨⟨h, hh, hhacc⟩, hopen.notDenied_of_write hka hkb hfa hfb hba hh hhacc hbel⟩
  · have hne : h.path ≠ g.path := by
      intro heq
      have hk' := hh.self
      rw [heq, ← hkpath] at hk'
      exact hhacc ((hk'.unique hk.self).2.trans hkacc)
    have hgitdir := hopen.gitdir_of_closed hka hkb hfa hfb hh hhacc hbel hne
    exact absurd ⟨hfa, ⟨g, h, hg, hacc, hh, hhacc, hgitdir⟩, hnotDenied⟩ hno

theorem ShadowedGitdir.canWrite (hka : a.kind = .restricted) (h : ShadowedGitdir host a b cwd p) :
    a.canWritePathWithCwd host p.display cwd = true := by
  obtain ⟨g, _, hg, hacc, _⟩ := h.excluded
  exact (canWritePathWithCwd_display hka h.narrowed).mpr ⟨⟨g, hg, hacc⟩, h.notDenied⟩

theorem ShadowedGitdir.not_canWrite (hkb : b.kind = .restricted) (hfb : b.hasFullDiskWriteAccess = false)
    (h : ShadowedGitdir host a b cwd p) : b.canWritePathWithCwd host p.display cwd = false := by
  obtain ⟨_, k, _, _, hk, hkacc, _⟩ := h.excluded
  rw [← Bool.not_eq_true, canWritePathWithCwd_display hkb hfb]
  rintro ⟨⟨f, hf, hfacc⟩, _⟩
  exact hkacc ((hk.unique hf).2.trans hfacc)

theorem canRead_of_signature (hcwd : isAbsolute cwd) (h : a.semanticSignature host cwd = b.semanticSignature host cwd) :
    a.canReadPathWithCwd host p.display cwd = b.canReadPathWithCwd host p.display cwd := by
  have hfull : a.hasFullDiskReadAccess = b.hasFullDiskReadAccess :=
    congrArg FileSystemSemanticSignature.hasFullDiskReadAccess h
  cases hfa : a.hasFullDiskReadAccess with
  | true => rw [canRead_of_fullDiskRead hcwd hfa, canRead_of_fullDiskRead hcwd (hfull ▸ hfa)]
  | false =>
      have hfb : b.hasFullDiskReadAccess = false := hfull ▸ hfa
      have hka := restricted_of_unreadable hfa
      have hkb := restricted_of_unreadable hfb
      have hrdb (q : AbsolutePath) := mem_of_sorted_eq (congrArg readableRoots h) q
      have hunreadable (q : AbsolutePath) := mem_of_sorted_eq (congrArg unreadableRoots h) q
      simp only [mem_getReadableRoots hka hfa, mem_getReadableRoots hkb hfb] at hrdb
      simp only [mem_getUnreadableRoots hka hcwd, mem_getUnreadableRoots hkb hcwd] at hunreadable
      rw [canReadPathWithCwd_display hka, canReadPathWithCwd_display hkb, Bool.eq_iff_iff,
        FileSystemAccessMode.canRead_iff, FileSystemAccessMode.canRead_iff]
      exact ⟨canRead_of_roots (fun q => (hrdb q).mp) fun q => (hunreadable q).mpr,
        canRead_of_roots (fun q => (hrdb q).mpr) fun q => (hunreadable q).mp⟩

/-- What one policy excludes without showing it in the signature is excluded by the other as well. -/
structure Unshadowed (host : Host) (a b : FileSystemSandboxPolicy) (cwd : Text) (p : AbsolutePath) : Prop where
  left : ¬ ShadowedGitdir host a b cwd p
  right : ¬ ShadowedGitdir host b a cwd p
  slashTmp : ShadowedSlashTmp host a cwd p ↔ ShadowedSlashTmp host b cwd p

theorem sameAccess_of_signature (hcwd : isAbsolute cwd)
    (h : a.semanticSignature host cwd = b.semanticSignature host cwd) :
    SameAccess host a b cwd p ↔ Unshadowed host a b cwd p := by
  have hfull : a.hasFullDiskWriteAccess = b.hasFullDiskWriteAccess :=
    congrArg FileSystemSemanticSignature.hasFullDiskWriteAccess h
  unfold SameAccess
  rw [and_iff_right (canRead_of_signature hcwd h), Bool.eq_iff_iff]
  cases hfa : a.hasFullDiskWriteAccess with
  | true =>
      have hfb : b.hasFullDiskWriteAccess = true := hfull ▸ hfa
      rw [canWrite_of_fullDiskWrite hcwd hfa, canWrite_of_fullDiskWrite hcwd hfb, not_iff_not]
      constructor
      · refine fun htmp => ⟨fun hg => ?_, fun hg => ?_, htmp⟩
        · exact absurd (hg.narrowed.symm.trans hfa) (by decide)
        · exact absurd (hg.narrowed.symm.trans hfb) (by decide)
      · exact Unshadowed.slashTmp
  | false =>
      have hfb : b.hasFullDiskWriteAccess = false := hfull ▸ hfa
      have hka := restricted_of_narrowed hfa
      have hkb := restricted_of_narrowed hfb
      have hroots : sortedWritableRoots (a.getWritableRootsWithCwd host cwd) =
          sortedWritableRoots (b.getWritableRootsWithCwd host cwd) :=
        congrArg writableRoots h
      constructor
      · intro hwr
        refine ⟨fun hg => ?_, fun hg => ?_, iff_of_false (fun ht => ?_) fun ht => ?_⟩
        · have := hwr.mp (hg.canWrite hka)
          rw [hg.not_canWrite hkb hfb] at this
          cases this
        · have := hwr.mpr (hg.canWrite hkb)
          rw [hg.not_canWrite hka hfa] at this
          cases this
        · exact absurd (hfa.symm.trans ht.full) (by decide)
        · exact absurd (hfb.symm.trans ht.full) (by decide)
      · intro hno
        exact ⟨fun hw => canWrite_of_sameRoots hka hkb hfa hfb (fun w => exists_sameRoot hroots)
            (fun w => exists_sameRoot hroots.symm) hw hno.left,
          fun hw => canWrite_of_sameRoots hkb hka hfb hfa (fun w => exists_sameRoot hroots.symm)
            (fun w => exists_sameRoot hroots) hw hno.right⟩

/-! ## The older form -/

theorem semanticSignature_of_not_restricted (ha : a.kind ≠ .restricted) :
    a.semanticSignature host cwd = ⟨true, true, false, [], [], [], []⟩ := by
  have hread : a.hasFullDiskReadAccess = true := by
    cases hk : a.kind with
    | restricted => exact absurd hk ha
    | unrestricted | externalSandbox => simp [FileSystemSandboxPolicy.hasFullDiskReadAccess, hk]
  have hwr : a.hasFullDiskWriteAccess = true := by
    cases hk : a.kind with
    | restricted => exact absurd hk ha
    | unrestricted | externalSandbox => simp [FileSystemSandboxPolicy.hasFullDiskWriteAccess, hk]
  simp [FileSystemSandboxPolicy.semanticSignature, FileSystemSandboxPolicy.includePlatformDefaults,
    FileSystemSandboxPolicy.getReadableRootsWithCwd, FileSystemSandboxPolicy.getWritableRootsWithCwd,
    getUnreadableRootsWithCwd, getUnreadableGlobsWithCwd,
    sortedAbsolutePaths, sortedWritableRoots, hread, hwr, ha]

theorem signature_of_not_direct {network : NetworkSandboxPolicy} {legacy : SandboxPolicy}
    (hdirect : a.needsDirectRuntimeEnforcement host network cwd = false)
    (hleg : a.toLegacySandboxPolicy host network cwd = .ok legacy) :
    a.semanticSignature host cwd = (legacyRuntimeFileSystemPolicyForCwd host legacy cwd).semanticSignature host cwd := by
  cases hk : a.kind with
  | restricted =>
      unfold needsDirectRuntimeEnforcement at hdirect
      rw [if_neg (by simp [hk]), hleg] at hdirect
      dsimp only at hdirect
      split at hdirect
      · cases hdirect
      · simpa using hdirect
  | unrestricted =>
      have hkind : (legacyRuntimeFileSystemPolicyForCwd host legacy cwd).kind ≠ .restricted := by
        simp only [toLegacySandboxPolicy, hk] at hleg
        cases hleg
        split <;> nofun
      rw [semanticSignature_of_not_restricted (by simp [hk]), semanticSignature_of_not_restricted hkind]
  | externalSandbox =>
      have hkind : (legacyRuntimeFileSystemPolicyForCwd host legacy cwd).kind ≠ .restricted := by
        simp only [toLegacySandboxPolicy, hk] at hleg
        cases hleg
        nofun
      rw [semanticSignature_of_not_restricted (by simp [hk]), semanticSignature_of_not_restricted hkind]

/-- Equivalent policies agree on a path exactly if neither shadows it; so do a policy and the older form enforced for
it. -/
theorem semantic_equivalence_sound_iff (host : Host) (cwd : Text) (hcwd : isAbsolute cwd) (p : AbsolutePath) :
    (∀ a b : FileSystemSandboxPolicy, a.isSemanticallyEquivalentTo host b cwd = true →
      (SameAccess host a b cwd p ↔ Unshadowed host a b cwd p)) ∧
    ∀ (policy : FileSystemSandboxPolicy) (network : NetworkSandboxPolicy) (legacy : SandboxPolicy),
      policy.needsDirectRuntimeEnforcement host network cwd = false →
      policy.toLegacySandboxPolicy host network cwd = .ok legacy →
      (SameAccess host policy (legacyRuntimeFileSystemPolicyForCwd host legacy cwd) cwd p ↔
        Unshadowed host policy (legacyRuntimeFileSystemPolicyForCwd host legacy cwd) cwd p) := by
  constructor
  · intro a b h
    exact sameAccess_of_signature hcwd (beq_iff_eq.mp h)
  · intro policy network legacy hdirect hleg
    exact sameAccess_of_signature hcwd (signature_of_not_direct hdirect hleg)

end

/-! ## Runs -/

def readableDisk (entries : List FileSystemSandboxEntry) : FileSystemSandboxPolicy :=
  .restricted (⟨.special .root, .read⟩ :: entries)

theorem unshadowed_of_no_files {a b : FileSystemSandboxPolicy} {cwd : Text} {p : AbsolutePath}
    (hfa : a.hasFullDiskWriteAccess = false) (hfb : b.hasFullDiskWriteAccess = false) : Unshadowed {} a b cwd p := by
  have hgitdir (q : AbsolutePath) : resolveGitdirFromFile {} q = none := by
    have hnone : ({} : Host).files.file? q.names = none := by
      unfold file? node? nodeAt
      by_cases h : q.names = []
      · simp [h]
      · simp [h, empty]
    unfold resolveGitdirFromFile
    rw [hnone]
  refine ⟨?_, ?_, iff_of_false (fun h => ?_) fun h => ?_⟩
  · rintro ⟨_, ⟨_, _, _, _, _, _, h⟩, _⟩
    rw [hgitdir] at h
    cases h
  · rintro ⟨_, ⟨_, _, _, _, _, _, h⟩, _⟩
    rw [hgitdir] at h
    cases h
  · exact absurd (hfa.symm.trans h.full) (by decide)
  · exact absurd (hfb.symm.trans h.full) (by decide)

theorem equivalent_policies_agree :
    SameAccess {} (readableDisk [pathEntry "/w" .write]) (readableDisk [pathEntry "/w" .write, pathEntry "/w" .read])
        "/w" (AbsolutePath.absolutizeFrom "/w/a" .root) ∧
      SameAccess {} (readableDisk []) (legacyRuntimeFileSystemPolicyForCwd {} (.readOnly false) "/w")
        "/w" (AbsolutePath.absolutizeFrom "/w/a" .root) := by
  obtain ⟨hequivalent, hleg⟩ := semantic_equivalence_sound_iff {} "/w" (by decide)
    (AbsolutePath.absolutizeFrom "/w/a" .root)
  constructor
  · exact (hequivalent (readableDisk [pathEntry "/w" .write])
      (readableDisk [pathEntry "/w" .write, pathEntry "/w" .read]) (by decide +kernel)).mpr
        (unshadowed_of_no_files (by decide +kernel) (by decide +kernel))
  · exact (hleg (readableDisk []) .restricted (.readOnly false) (by decide +kernel) rfl).mpr
      (unshadowed_of_no_files (by decide +kernel) (by decide +kernel))

def linkedWorktree : Host where
  files := (ofFiles [(["w".toList, ".git".toList], "gitdir: /w/meta".toList),
    (["w".toList, "meta".toList, "HEAD".toList], []), (["w".toList, ".agents".toList, "a".toList], [])]).getD
      empty

/-- The policies differ in an entry for the git directory alone, which the signature does not show. -/
theorem equivalent_policies_differ :
    let a := readableDisk [pathEntry "/w" .write]
    let b := readableDisk [pathEntry "/w" .write, pathEntry "/w/meta" .read]
    let path := "/w/meta/x".toList
    let cwd := "/w".toList
    a.isSemanticallyEquivalentTo linkedWorktree b cwd = true ∧
      a.canWritePathWithCwd linkedWorktree path cwd = true ∧ b.canWritePathWithCwd linkedWorktree path cwd = false ∧
      a.needsDirectRuntimeEnforcement linkedWorktree .restricted cwd = false ∧
      ∃ legacy, a.toLegacySandboxPolicy linkedWorktree .restricted cwd = .ok legacy ∧
        (legacyRuntimeFileSystemPolicyForCwd linkedWorktree legacy cwd).canWritePathWithCwd linkedWorktree path cwd
          = false :=
  ⟨by decide +kernel, by decide +kernel, by decide +kernel, by decide +kernel, _, rfl, by decide +kernel⟩

end CodexStudy.Sandbox
