import CodexStudy.Sandbox.Lemmas.Bwrap

/-!
# Mounted roots
-/

namespace CodexStudy.Sandbox

open CodexStudy.Lib List Or
open CodexStudy.ApplyPatch (AbsolutePath ProcessEnv isAbsolute)

/-- A default read-only path of the root contains the path and lies in some mounted root. -/
structure Reaches (host : LinuxHost) (policy : FileSystemSandboxPolicy) (cwd : Text) (w : WritableRoot)
    (p d : AbsolutePath) : Prop where
  default : DefaultReadOnly host.toHost policy cwd w.root d
  covers : p.StartsWith d
  within : ∃ v ∈ rootsInMountOrder host policy cwd, d.StartsWith v.root

/-- The path lies in a default read-only path of the root of its deciding entry. -/
def InOwnDefault (host : LinuxHost) (policy : FileSystemSandboxPolicy) (cwd : Text) (p : AbsolutePath) : Prop :=
  ∃ g, Decides (policy.resolvedEntriesWithCwd host.toHost cwd) p g ∧
    ∃ d, DefaultReadOnly host.toHost policy cwd g.path d ∧ p.StartsWith d

def InPlatformDefault (policy : FileSystemSandboxPolicy) (p : AbsolutePath) : Prop :=
  policy.includePlatformDefaults = true ∧ ∃ r ∈ linuxPlatformDefaultReadRoots, p.StartsWith r

/-- What the mounts show at the path is what the policy allows. -/
structure Enforced (host : LinuxHost) (policy : FileSystemSandboxPolicy) (cwd : Text) (p : AbsolutePath)
    (content : HostContent) : Prop where
  writable : content = .writable → policy.canWritePathWithCwd host.toHost p.display cwd = true
  written : policy.canWritePathWithCwd host.toHost p.display cwd = true →
    content = .writable ∨ InOwnDefault host policy cwd p
  visible : content ≠ .hidden → policy.canReadPathWithCwd host.toHost p.display cwd = true ∨ InPlatformDefault policy p

section

variable {host : LinuxHost} {policy : FileSystemSandboxPolicy} {cwd : Text} {p q d : AbsolutePath} {w v : WritableRoot}
  {m : Mount} {g : ResolvedFileSystemEntry}

variable (hkind : policy.kind = .restricted) (hfull : policy.hasFullDiskWriteAccess = false) (hcwd : isAbsolute cwd)
  (hp : host.pathExists p = true)

/-! ## The mounted roots -/

include hfull in
theorem mem_rootsInMountOrder : w ∈ rootsInMountOrder host policy cwd ↔
      w ∈ policy.getWritableRootsWithCwd host.toHost cwd ∧ host.pathExists w.root = true := by
  unfold rootsInMountOrder sortedMountRoots mountedWritableRoots
  rw [mem_insertionSort]
  dsimp only
  rw [hfull, Bool.and_false, Bool.false_and, if_neg (by simp), mem_filter]

include hkind hfull in
theorem describes_of_mounted (hw : w ∈ rootsInMountOrder host policy cwd) : Describes host.toHost policy cwd w :=
  (mem_getWritableRoots hkind hfull).1 w ((mem_rootsInMountOrder hfull).mp hw).1

theorem within_iff : isWithinAllowedWritePaths q (allowedWritePaths host policy cwd) = true ↔
    ∃ v ∈ rootsInMountOrder host policy cwd, q.StartsWith v.root := by
  simp only [isWithinAllowedWritePaths, allowedWritePaths, rootsInMountOrder, sortedMountRoots, any_eq_true,
    mem_map, mem_insertionSort, decide_eq_true_eq]
  constructor
  · rintro ⟨_, ⟨w, hw, rfl⟩, hq⟩
    exact ⟨w, hw, hq⟩
  · rintro ⟨w, hw, hq⟩
    exact ⟨_, ⟨w, hw, rfl⟩, hq⟩

theorem mem_readOnlySubpathsForMount {unreadable missingAuto : List AbsolutePath} :
    q ∈ readOnlySubpathsForMount host unreadable missingAuto w ↔
      (q ∈ w.readOnlySubpaths ∧ q ∉ unreadable ∧ q ∉ missingAuto) ∨
        ∃ n ∈ w.protectedMetadataNames, shouldLeaveMissingGitForParentRepoDiscovery host.toHost w.root n = false ∧
          q = w.root.join host.toProcessEnv n := by
  unfold readOnlySubpathsForMount
  rw [mem_appendMetadataPathMasks, mem_filter]
  simp

include hkind hfull hp in
theorem covers_of_not_above (hv : v ∈ rootsInMountOrder host policy cwd) (hnot : ¬ p.StartsWith v.root)
    (hm : m ∈ rootMounts host policy cwd v) (hcov : m.covers p = true) :
    ∃ d, Reaches host policy cwd v p d ∧
      m.content = if (transientEmptyMetadataPath host.toHost d).isSome then .hidden else .readOnly := by
  have hdescribes := describes_of_mounted hkind hfull hv
  rcases mem_cons.mp hm with rfl | hm
  · exact absurd (of_decide_eq_true hcov) hnot
  · rcases mem_append.mp hm with hm | hm
    · obtain ⟨s, hs, hm⟩ := mem_flatMap.mp hm
      obtain ⟨hps, hin, hcont⟩ := covers_readOnlyMounts hp hm hcov
      rcases mem_readOnlySubpathsForMount.mp (mem_sortedByDepth.mp hs) with ⟨hs, _⟩ | ⟨n, hn, _, rfl⟩
      · rcases (hdescribes.readOnly s).mp hs with hdef | hcarved
        · exact ⟨s, ⟨hdef, hps, within_iff.mp hin⟩, hcont⟩
        · exact absurd (hps.trans hcarved.below) hnot
      · exact absurd (hps.trans (join_startsWith ((hdescribes.protectedNames n).mp hn).1)) hnot
    · obtain ⟨u, hu, hm⟩ := mem_flatMap.mp hm
      have hbel := (mem_filter.mp (mem_sortedByDepth.mp hu)).2
      exact absurd ((covers_unreadableMounts hp hm hcov).1.trans (of_decide_eq_true hbel)) hnot

include hkind hfull hcwd hp in
theorem exists_cover_of_reaches (hv : v ∈ rootsInMountOrder host policy cwd)
    (h : Reaches host policy cwd v p d) : ∃ m ∈ rootMounts host policy cwd v, m.covers p = true := by
  have hs : d ∈ readOnlySubpathsForMount host (mountedUnreadableRoots host policy cwd)
      (missingAutoMetadataReadOnlyProjectRootSubpaths host policy cwd) v := by
    refine mem_readOnlySubpathsForMount.mpr (inl ⟨?_, ?_, ?_⟩)
    · exact ((describes_of_mounted hkind hfull hv).readOnly d).mpr (inl h.default)
    · rw [mem_mountedUnreadableRoots hkind hcwd]
      rintro ⟨⟨e, he, hpath, _⟩, _⟩
      exact h.default.2 e he hpath
    · intro hmissing
      have := pathExists_of_startsWith hp h.covers
      rw [not_pathExists_of_missingAuto hmissing] at this
      cases this
  obtain ⟨m, hm, hcov⟩ := exists_readOnlyMount hp h.covers (within_iff.mpr h.within)
  refine ⟨m, mem_cons_of_mem _ (mem_append.mpr (inl (mem_flatMap.mpr ⟨d, ?_, hm⟩))), hcov⟩
  exact mem_sortedByDepth.mpr hs

/-! ## The innermost root above a path -/

def MaskedBelow (host : LinuxHost) (policy : FileSystemSandboxPolicy) (cwd : Text) (w : WritableRoot) (p : AbsolutePath) :
    Prop :=
  ∃ u ∈ mountedUnreadableRoots host policy cwd, u.StartsWith w.root ∧ p.StartsWith u

def ReadOnlyBelow (host : LinuxHost) (policy : FileSystemSandboxPolicy) (cwd : Text) (w : WritableRoot)
    (p : AbsolutePath) : Prop :=
  ∃ s ∈ readOnlySubpathsForMount host (mountedUnreadableRoots host policy cwd)
    (missingAutoMetadataReadOnlyProjectRootSubpaths host policy cwd) w,
    isWithinAllowedWritePaths s (allowedWritePaths host policy cwd) = true ∧ p.StartsWith s

include hp in
theorem content_of_masked (h : MaskedBelow host policy cwd w p) :
    contentOf (rootMounts host policy cwd w) p = .hidden := by
  obtain ⟨u, hu, huw, hpu⟩ := h
  obtain ⟨m, hm, hcov⟩ : ∃ m ∈ unreadableMounts host.toHost (allowedWritePaths host policy cwd) u, m.covers p = true :=
    exists_unreadableMount hp hpu
  have hm : m ∈ (sortedByDepth ((mountedUnreadableRoots host policy cwd).filter fun u =>
      decide (u.StartsWith w.root))).flatMap (unreadableMounts host.toHost (allowedWritePaths host policy cwd)) :=
    mem_flatMap.mpr ⟨u, mem_sortedByDepth.mpr (mem_filter.mpr ⟨hu, decide_eq_true huw⟩), hm⟩
  unfold rootMounts writableRootMounts
  rw [← cons_append, contentOf_append_of_cover hm hcov]
  obtain ⟨t, ht, htcovers, hcont⟩ := exists_contentOf hm hcov
  obtain ⟨u', _, ht⟩ := mem_flatMap.mp ht
  rw [hcont, (covers_unreadableMounts hp ht htcovers).2]

include hp in
theorem content_of_not_masked (h : ¬ MaskedBelow host policy cwd w p) (hw : p.StartsWith w.root) :
    contentOf (rootMounts host policy cwd w) p = .writable ↔ ¬ ReadOnlyBelow host policy cwd w p := by
  unfold rootMounts writableRootMounts
  rw [← cons_append, contentOf_append_of_none]
  · rw [← singleton_append]
    constructor
    · rintro hcont ⟨s, hs, hin, hps⟩
      obtain ⟨m, hm, hcov⟩ := exists_readOnlyMount hp hps hin
      have hm := mem_flatMap.mpr ⟨s, mem_sortedByDepth.mpr hs, hm⟩
      rw [contentOf_append_of_cover hm hcov] at hcont
      obtain ⟨t, ht, htcovers, heq⟩ := exists_contentOf hm hcov
      obtain ⟨s', _, ht⟩ := mem_flatMap.mp ht
      have hsub := (covers_readOnlyMounts hp ht htcovers).2.2
      rw [heq, hsub] at hcont
      split at hcont <;> cases hcont
    · intro hno
      rw [contentOf_append_of_none]
      · unfold contentOf topmost
        simp [Mount.covers, hw]
      · intro m hm
        rw [← Bool.not_eq_true]
        intro hcov
        obtain ⟨s, hs, hm⟩ := mem_flatMap.mp hm
        obtain ⟨hps, hin, _⟩ := covers_readOnlyMounts hp hm hcov
        exact hno ⟨s, mem_sortedByDepth.mp hs, hin, hps⟩
  · intro m hm
    rw [← Bool.not_eq_true]
    intro hcov
    obtain ⟨u, hu, hm⟩ := mem_flatMap.mp hm
    obtain ⟨hu, huw⟩ := mem_filter.mp (mem_sortedByDepth.mp hu)
    exact h ⟨u, hu, of_decide_eq_true huw, (covers_unreadableMounts hp hm hcov).1⟩

structure Innermost (host : LinuxHost) (policy : FileSystemSandboxPolicy) (cwd : Text) (w : WritableRoot)
    (p : AbsolutePath) : Prop where
  mem : w ∈ rootsInMountOrder host policy cwd
  above : p.StartsWith w.root
  inner : ∀ r, IsWritableRoot (policy.resolvedEntriesWithCwd host.toHost cwd) r → p.StartsWith r → w.root.StartsWith r

include hkind hfull hp in
theorem innermost_of_last {before after : List WritableRoot}
    (horder : rootsInMountOrder host policy cwd = before ++ w :: after) (hw : p.StartsWith w.root)
    (hlast : ∀ v ∈ after, ¬ p.StartsWith v.root) : Innermost host policy cwd w p := by
  refine ⟨by simp [horder], hw, fun r hr hpr => ?_⟩
  obtain ⟨v, hv, rfl⟩ := (mem_getWritableRoots hkind hfull).2 r hr
  have hv : v ∈ rootsInMountOrder host policy cwd :=
    (mem_rootsInMountOrder hfull).mpr ⟨hv, pathExists_of_startsWith hp hpr⟩
  have hsrt : (rootsInMountOrder host policy cwd).Pairwise
      fun left right => pathDepth left.root ≤ pathDepth right.root :=
    pairwise_insertionSort _ _
  rw [horder] at hsrt hv
  rcases mem_append.mp hv with hv | hv
  · have hdepth := (pairwise_append.mp hsrt).2.2 v hv w mem_cons_self
    exact hpr.of_length_le hw (by unfold pathDepth at hdepth; omega)
  · rcases mem_cons.mp hv with rfl | hv
    · exact AbsolutePath.StartsWith.refl _
    · exact absurd hpr (hlast v hv)

theorem Innermost.path_eq (h : Innermost host policy cwd w p)
    (hg : Decides (policy.resolvedEntriesWithCwd host.toHost cwd) p g) (hacc : g.access = .write)
    (hw : Describes host.toHost policy cwd w) : g.path = w.root := by
  obtain ⟨k, hk, _, hkpath⟩ := hw.isRoot.decides
  have hle := h.inner g.path ⟨⟨g, hg.self, hacc⟩, g, hg.mem, rfl⟩ hg.startsWith
  have hge := hg.path_le hk.mem (hkpath ▸ h.above)
  rw [hkpath] at hge
  exact hge.antisymm hle

include hkind hcwd in
theorem canRead_of_not_masked
    (hw : Describes host.toHost policy cwd w) (hpw : p.StartsWith w.root) (h : ¬ MaskedBelow host policy cwd w p) :
    resolveAccess (policy.resolvedEntriesWithCwd host.toHost cwd) p ≠ .none := by
  obtain ⟨k, hk, hkacc, hkpath⟩ := hw.isRoot.decides
  obtain ⟨g, hg⟩ := exists_decides hk.mem (hkpath ▸ hpw)
  rw [resolveAccess_of_decides hg]
  intro hnone
  have hge : g.path.StartsWith w.root := hkpath ▸ hg.path_le hk.mem (hkpath ▸ hpw)
  have hne : g.path ≠ w.root := by
    intro heq
    have hself := hg.self
    rw [heq] at hself
    have := (hself.unique hk).2
    rw [hnone, hkacc] at this
    cases this
  refine h ⟨g.path, (mem_mountedUnreadableRoots hkind hcwd).mpr ⟨⟨g, hg.mem, rfl, hnone⟩, fun hroot => hne ?_⟩, hge,
    hg.startsWith⟩
  rw [hroot] at hge ⊢
  exact (AbsolutePath.startsWith_root w.root).antisymm hge |>.symm

include hkind hfull hp in
theorem Innermost.write_of_not_covered (h : Innermost host policy cwd w p) (hmasked : ¬ MaskedBelow host policy cwd w p)
    (hro : ¬ ReadOnlyBelow host policy cwd w p) (hg : Decides (policy.resolvedEntriesWithCwd host.toHost cwd) p g) :
    g.access = .write := by
  have hw := describes_of_mounted hkind hfull h.mem
  obtain ⟨k, hk, hkacc, hkpath⟩ := hw.isRoot.decides
  have hge : g.path.StartsWith w.root := hkpath ▸ hg.path_le hk.mem (hkpath ▸ h.above)
  by_contra hacc
  have hne : g.path ≠ w.root := by
    intro heq
    have hself := hg.self
    rw [heq] at hself
    exact hacc ((hself.unique hk).2.trans hkacc)
  have hcarved : Carved (policy.resolvedEntriesWithCwd host.toHost cwd) w.root g.path :=
    ⟨⟨g, hg.mem, rfl⟩, fun ⟨f, hf, hfacc⟩ => hacc ((hg.self.unique hf).2.trans hfacc), hge, hne⟩
  refine hro ⟨g.path, mem_readOnlySubpathsForMount.mpr (inl ⟨(hw.readOnly _).mpr (inr hcarved), ?_, ?_⟩),
    within_iff.mpr ⟨w, h.mem, hge⟩, hg.startsWith⟩
  · exact fun hu => hmasked ⟨g.path, hu, hge, hg.startsWith⟩
  · intro hmissing
    have hexists := pathExists_of_startsWith hp hg.startsWith
    rw [not_pathExists_of_missingAuto hmissing] at hexists
    cases hexists

include hkind hfull hp in
theorem Innermost.notDenied (h : Innermost host policy cwd w p)
    (hro : ¬ ReadOnlyBelow host policy cwd w p) (hg : Decides (policy.resolvedEntriesWithCwd host.toHost cwd) p g)
    (hgwrite : g.access = .write) :
    metadataWriteDenied host.toHost (policy.resolvedEntriesWithCwd host.toHost cwd) p = false := by
  have hw := describes_of_mounted hkind hfull h.mem
  have hpath := h.path_eq hg hgwrite hw
  rw [← Bool.not_eq_true]
  intro hden
  obtain ⟨n, hn, hm⟩ := (metadataWriteDenied_iff_owner hg hgwrite).mp hden
  obtain ⟨e, _, _, hch⟩ := mem_metadataChildren.mp (mem_of_metadataChildOfWritableRoot hm)
  have hpn := (metadataChildOf_eq_some.mp hch).2.2
  have hname : n ∈ w.protectedMetadataNames := by
    refine (hw.protectedNames n).mpr ⟨hn, ?_⟩
    rw [← Bool.not_eq_true, canWritePathWithCwd_display hkind hfull, ← hpath, metadataWriteDenied_join hg hgwrite hn hpn,
      hden]
    exact fun h => absurd h.2 (by decide)
  -- The directory exists, so that it is not left to a repository above.
  have hleave : shouldLeaveMissingGitForParentRepoDiscovery host.toHost w.root n = false := by
    unfold shouldLeaveMissingGitForParentRepoDiscovery
    rw [← hpath, pathExists_of_startsWith hp hpn]
    simp
  exact hro ⟨w.root.join host.toProcessEnv n, mem_readOnlySubpathsForMount.mpr (inr ⟨n, hname, hleave, rfl⟩),
    within_iff.mpr ⟨w, h.mem, join_startsWith hn⟩, hpath ▸ hpn⟩

include hkind hfull hcwd hp in
theorem canWrite_of_not_covered (h : Innermost host policy cwd w p)
    (hmasked : ¬ MaskedBelow host policy cwd w p) (hro : ¬ ReadOnlyBelow host policy cwd w p) :
    policy.canWritePathWithCwd host.toHost p.display cwd = true := by
  have hw := describes_of_mounted hkind hfull h.mem
  obtain ⟨g, hg, _⟩ := decides_of_resolveAccess (canRead_of_not_masked hkind hcwd hw h.above hmasked) rfl
  have hgwrite := h.write_of_not_covered hkind hfull hp hmasked hro hg
  exact (canWritePathWithCwd_display hkind hfull).mpr
    ⟨⟨g, hg, hgwrite⟩, h.notDenied hkind hfull hp hro hg hgwrite⟩

include hkind hfull hcwd in
theorem not_covered_of_canWrite (h : Innermost host policy cwd w p)
    (hwr : policy.canWritePathWithCwd host.toHost p.display cwd = true) :
    ¬ MaskedBelow host policy cwd w p ∧ (ReadOnlyBelow host policy cwd w p → InOwnDefault host policy cwd p) := by
  have hw := describes_of_mounted hkind hfull h.mem
  obtain ⟨⟨g, hg, hacc⟩, hopen⟩ := (canWritePathWithCwd_display hkind hfull).mp hwr
  have hpath := h.path_eq hg hacc hw
  constructor
  · rintro ⟨u, hu, huw, hpu⟩
    obtain ⟨⟨e, he, rfl, hnone⟩, _⟩ := (mem_mountedUnreadableRoots hkind hcwd).mp hu
    have heq := (hg.path_le he hpu).antisymm (hpath ▸ huw)
    have hrank := Governs.rank_le hg he (by rw [heq])
    rw [hacc, hnone] at hrank
    exact absurd hrank (by decide)
  · rintro ⟨s, hs, _, hps⟩
    rcases mem_readOnlySubpathsForMount.mp hs with ⟨hs, _⟩ | ⟨n, hn, _, rfl⟩
    · rcases (hw.readOnly s).mp hs with hdef | hcarved
      · exact ⟨g, hg, s, hpath ▸ hdef, hps⟩
      · obtain ⟨e, he, rfl⟩ := hcarved.ofEntry
        have heq := (hg.path_le he hps).antisymm (hpath ▸ hcarved.below)
        exact absurd (heq.symm.trans hpath) hcarved.ne
    · rw [denied_of_protectedName hkind hfull hw hg hacc hpath.symm hn (hpath ▸ hps)] at hopen
      cases hopen

include hkind hfull hcwd hp in
theorem enforced_of_innermost (h : Innermost host policy cwd w p) :
    Enforced host policy cwd p (contentOf (rootMounts host policy cwd w) p) := by
  by_cases hmasked : MaskedBelow host policy cwd w p
  · rw [content_of_masked hp hmasked]
    refine ⟨nofun, fun hwr => ?_, fun hne => absurd rfl hne⟩
    exact absurd hmasked (not_covered_of_canWrite hkind hfull hcwd h hwr).1
  · have hcont := content_of_not_masked hp hmasked h.above
    refine ⟨fun heq => ?_, fun hwr => ?_, fun _ => ?_⟩
    · exact canWrite_of_not_covered hkind hfull hcwd hp h hmasked (hcont.mp heq)
    · by_cases hro : ReadOnlyBelow host policy cwd w p
      · exact inr ((not_covered_of_canWrite hkind hfull hcwd h hwr).2 hro)
      · exact inl (hcont.mpr hro)
    · rw [canReadPathWithCwd_display hkind, FileSystemAccessMode.canRead_iff]
      exact inl (canRead_of_not_masked hkind hcwd (describes_of_mounted hkind hfull h.mem) h.above hmasked)

/-! ## Paths outside the writable roots -/

theorem mem_mountedReadableRoots (h : q ∈ mountedReadableRoots host policy cwd) :
    q ∈ policy.getReadableRootsWithCwd host.toHost cwd ∨
      policy.includePlatformDefaults = true ∧ q ∈ linuxPlatformDefaultReadRoots := by
  unfold mountedReadableRoots at h
  dsimp only at h
  rw [mem_destutter_ne, sortedAbsolutePaths, mem_insertionSort] at h
  rcases mem_append.mp h with h | h
  · exact inl h
  · split at h
    · rename_i hplatform
      exact inr ⟨hplatform, mem_of_mem_filter h⟩
    · cases h

theorem mem_mounts_baseOptions (hm : m ∈ mounts (baseOptions host policy cwd)) : m.content = .hidden ∨
    m.content = .readOnly ∧ (policy.hasFullDiskReadAccess = true ∨
      policy.hasFullDiskReadAccess = false ∧ m.target ∈ mountedReadableRoots host policy cwd) := by
  obtain ⟨option, hopt, hmount⟩ := mem_filterMap.mp hm
  unfold baseOptions at hopt
  split at hopt
  · rename_i hfull
    simp only [mem_cons, not_mem_nil, or_false] at hopt
    rcases hopt with rfl | rfl <;> cases hmount
    · exact inr ⟨rfl, inl hfull⟩
    · exact inl rfl
  · rename_i hfull
    have hfull : policy.hasFullDiskReadAccess = false := by simpa using hfull
    dsimp only at hopt
    split at hopt
    · rename_i hroot
      obtain ⟨r, hr, heq⟩ := any_eq_true.mp hroot
      cases beq_iff_eq.mp heq
      simp only [mem_cons, not_mem_nil, or_false] at hopt
      rcases hopt with rfl | rfl <;> cases hmount
      · exact inr ⟨rfl, inr ⟨hfull, hr⟩⟩
      · exact inl rfl
    · rcases mem_append.mp hopt with hopt | hopt
      · simp only [mem_cons, not_mem_nil, or_false] at hopt
        rcases hopt with rfl | rfl <;> cases hmount <;> exact inl rfl
      · obtain ⟨r, hr, rfl⟩ := mem_map.mp hopt
        cases hmount
        exact inr ⟨rfl, inr ⟨hfull, mem_of_mem_filter hr⟩⟩

include hkind hcwd in
theorem visible_of_base (hno : ∀ u ∈ mountedUnreadableRoots host policy cwd, ¬ p.StartsWith u)
    (hm : m ∈ mounts (baseOptions host policy cwd)) (hcov : m.covers p = true) (hvis : m.content ≠ .hidden) :
    policy.canReadPathWithCwd host.toHost p.display cwd = true ∨ InPlatformDefault policy p := by
  have hpm : p.StartsWith m.target := of_decide_eq_true hcov
  rcases mem_mounts_baseOptions hm with hhidden | ⟨_, hfull | ⟨hfull, hmem⟩⟩
  · exact absurd hhidden hvis
  · exact inl (canRead_of_fullDiskRead hcwd hfull)
  rcases mem_mountedReadableRoots hmem with hrdb | ⟨hplatform, hmem⟩
  · rw [mem_getReadableRoots hkind hfull] at hrdb
    obtain ⟨⟨e, he, hpath⟩, hread⟩ := hrdb
    left
    rw [canReadPathWithCwd_display hkind, FileSystemAccessMode.canRead_iff]
    obtain ⟨g, hg⟩ := exists_decides he (hpath ▸ hpm)
    rw [resolveAccess_of_decides hg]
    intro hnone
    have hge : g.path.StartsWith m.target := hpath ▸ hg.path_le he (hpath ▸ hpm)
    refine hno g.path ((mem_mountedUnreadableRoots hkind hcwd).mpr ⟨⟨g, hg.mem, rfl, hnone⟩, fun hroot => ?_⟩)
      hg.startsWith
    have heq : m.target = g.path := by
      rw [hroot] at hge ⊢
      exact (AbsolutePath.startsWith_root _).antisymm hge
    rw [heq, resolveAccess_of_decides hg.self] at hread
    exact hread hnone
  · exact inr ⟨hplatform, m.target, hmem, hpm⟩

include hkind hfull hp in
theorem exists_root_of_canWrite (hwr : policy.canWritePathWithCwd host.toHost p.display cwd = true) :
    ∃ w ∈ rootsInMountOrder host policy cwd, p.StartsWith w.root := by
  obtain ⟨⟨g, hg, hacc⟩, _⟩ := (canWritePathWithCwd_display hkind hfull).mp hwr
  obtain ⟨w, hw, hpath⟩ := (mem_getWritableRoots hkind hfull).2 g.path ⟨⟨g, hg.self, hacc⟩, g, hg.mem, rfl⟩
  have hpw : p.StartsWith w.root := hpath ▸ hg.startsWith
  exact ⟨w, (mem_rootsInMountOrder hfull).mpr ⟨hw, pathExists_of_startsWith hp hpw⟩, hpw⟩

include hp in
theorem exists_outer_mask (hno : ∀ w ∈ rootsInMountOrder host policy cwd, ¬ p.StartsWith w.root) {u : AbsolutePath}
    (hu : u ∈ mountedUnreadableRoots host policy cwd) (hpu : p.StartsWith u) :
    (∃ m ∈ maskMounts host policy cwd (unreadableAncestors host policy cwd), m.covers p = true) ∨
      ∃ m ∈ maskMounts host policy cwd (rootlessUnreadable host policy cwd), m.covers p = true := by
  obtain ⟨m, hm, hcov⟩ : ∃ m ∈ unreadableMounts host.toHost (allowedWritePaths host policy cwd) u, m.covers p = true :=
    exists_unreadableMount hp hpu
  have hin : ¬ isWithinAllowedWritePaths u (allowedWritePaths host policy cwd) = true := by
    rw [within_iff]
    rintro ⟨w, hw, huw⟩
    exact hno w hw (hpu.trans huw)
  by_cases hroot : ((allowedWritePaths host policy cwd).any fun root => decide (root.StartsWith u)) = true
  · have hmem : u ∈ unreadableAncestors host policy cwd :=
      mem_filter.mpr ⟨hu, by rw [hroot, Bool.and_true]; simpa using hin⟩
    exact inl ⟨m, mem_flatMap.mpr ⟨u, mem_sortedByDepth.mpr hmem, hm⟩, hcov⟩
  · have hmem : u ∈ rootlessUnreadable host policy cwd := by
      refine mem_filter.mpr ⟨hu, ?_⟩
      unfold isWithinAllowedWritePaths at hin
      simp only [any_eq_true, decide_eq_true_eq, not_exists, not_and] at hin hroot
      simp only [Bool.not_eq_true', ← Bool.not_eq_true, any_eq_true, Bool.or_eq_true, decide_eq_true_eq, not_exists,
        not_and, not_or]
      exact fun r hr => ⟨hin r hr, hroot r hr⟩
    exact inr ⟨m, mem_flatMap.mpr ⟨u, mem_sortedByDepth.mpr hmem, hm⟩, hcov⟩

theorem hidden_of_mem_masks {paths : List AbsolutePath} (hp : host.pathExists p = true)
    (hm : m ∈ maskMounts host policy cwd paths)
    (hcov : m.covers p = true) : m.content = .hidden ∧ ∃ u ∈ paths, p.StartsWith u := by
  obtain ⟨u, hu, hm⟩ := mem_flatMap.mp hm
  obtain ⟨hpu, hcont⟩ := covers_unreadableMounts hp hm hcov
  exact ⟨hcont, u, mem_sortedByDepth.mp hu, hpu⟩

section Outside

variable (hno : ∀ w ∈ rootsInMountOrder host policy cwd, ¬ p.StartsWith w.root)
include hp hno

include hkind hfull in
theorem not_covers_of_outside :
    ∀ m ∈ (rootsInMountOrder host policy cwd).flatMap (rootMounts host policy cwd), m.covers p = false := by
  intro m hm
  rw [← Bool.not_eq_true]
  intro hcovers
  obtain ⟨v, hv, hm⟩ := mem_flatMap.mp hm
  obtain ⟨d, hreaches, _⟩ := covers_of_not_above hkind hfull hp hv (hno v hv) hm hcovers
  obtain ⟨w, hw, hdw⟩ := hreaches.within
  exact hno w hw (hreaches.covers.trans hdw)

include hkind hfull in
theorem hidden_of_masked {u : AbsolutePath} (hu : u ∈ mountedUnreadableRoots host policy cwd) (hpu : p.StartsWith u) :
    contentOf (planMounts host policy cwd) p = .hidden := by
  have hroots := not_covers_of_outside hkind hfull hp hno
  obtain ⟨m, hm, hcovers⟩ : ∃ m ∈ maskMounts host policy cwd (unreadableAncestors host policy cwd) ++
      ((rootsInMountOrder host policy cwd).flatMap (rootMounts host policy cwd) ++
        maskMounts host policy cwd (rootlessUnreadable host policy cwd)), m.covers p = true := by
    rcases exists_outer_mask hp hno hu hpu with ⟨m, hm, hcovers⟩ | ⟨m, hm, hcovers⟩
    · exact ⟨m, mem_append.mpr (inl hm), hcovers⟩
    · exact ⟨m, mem_append.mpr (inr (mem_append.mpr (inr hm))), hcovers⟩
  rw [planMounts, append_assoc, append_assoc, contentOf_append_of_cover hm hcovers]
  obtain ⟨t, ht, htcovers, hcontent⟩ := exists_contentOf hm hcovers
  rw [hcontent]
  rcases mem_append.mp ht with ht | ht
  · exact (hidden_of_mem_masks hp ht htcovers).1
  · rcases mem_append.mp ht with ht | ht
    · rw [hroots t ht] at htcovers
      cases htcovers
    · exact (hidden_of_mem_masks hp ht htcovers).1

include hkind hfull in
theorem contentOf_planMounts_of_unmasked (hunmasked : ∀ u ∈ mountedUnreadableRoots host policy cwd, ¬ p.StartsWith u) :
    contentOf (planMounts host policy cwd) p = contentOf (mounts (baseOptions host policy cwd)) p := by
  have hmasks {paths : List AbsolutePath} (hpaths : ∀ u ∈ paths, u ∈ mountedUnreadableRoots host policy cwd) :
      ∀ m ∈ maskMounts host policy cwd paths, m.covers p = false := by
    intro m hm
    rw [← Bool.not_eq_true]
    intro hcovers
    obtain ⟨_, u, hu, hpu⟩ := hidden_of_mem_masks hp hm hcovers
    exact hunmasked u (hpaths u hu) hpu
  have hancestors : ∀ u ∈ unreadableAncestors host policy cwd, u ∈ mountedUnreadableRoots host policy cwd :=
    fun u hu => mem_of_mem_filter hu
  have hrootless : ∀ u ∈ rootlessUnreadable host policy cwd, u ∈ mountedUnreadableRoots host policy cwd :=
    fun u hu => mem_of_mem_filter hu
  rw [planMounts, contentOf_append_of_none (hmasks hrootless),
    contentOf_append_of_none (not_covers_of_outside hkind hfull hp hno), contentOf_append_of_none (hmasks hancestors)]

include hcwd in
include hkind hfull in
/-- Outside the writable roots the masks hide what cannot be read. -/
theorem enforced_outside :
    Enforced host policy cwd p (contentOf (planMounts host policy cwd) p) := by
  have hwritten : policy.canWritePathWithCwd host.toHost p.display cwd ≠ true := by
    intro hwrite
    obtain ⟨w, hw, hpw⟩ := exists_root_of_canWrite hkind hfull hp hwrite
    exact hno w hw hpw
  by_cases hmasked : ∃ u ∈ mountedUnreadableRoots host policy cwd, p.StartsWith u
  · obtain ⟨u, hu, hpu⟩ := hmasked
    rw [hidden_of_masked hkind hfull hp hno hu hpu]
    exact ⟨nofun, fun hwrite => absurd hwrite hwritten, fun hne => absurd rfl hne⟩
  · have hunmasked : ∀ u ∈ mountedUnreadableRoots host policy cwd, ¬ p.StartsWith u :=
      fun u hu hpu => hmasked ⟨u, hu, hpu⟩
    rw [contentOf_planMounts_of_unmasked hkind hfull hp hno hunmasked]
    refine ⟨fun hcontent => ?_, fun hwrite => absurd hwrite hwritten, fun hvisible => ?_⟩
    · obtain ⟨t, ht, _, heq⟩ := exists_cover_of_content
        (show contentOf (mounts (baseOptions host policy cwd)) p ≠ .hidden by rw [hcontent]; nofun)
      rw [hcontent] at heq
      rcases mem_mounts_baseOptions ht with hhidden | ⟨hreadOnly, _⟩
      · rw [hhidden] at heq
        cases heq
      · rw [hreadOnly] at heq
        cases heq
    · obtain ⟨t, ht, hcovers, heq⟩ := exists_cover_of_content hvisible
      exact visible_of_base hkind hcwd hunmasked ht hcovers (heq ▸ hvisible)

end Outside

end

end CodexStudy.Sandbox
