import CodexStudy.Sandbox.Lemmas.Permissions
import CodexStudy.Sandbox.Lemmas.Targets

/-!
# What a writable root lets through
-/

namespace CodexStudy.Sandbox

open CodexStudy.Lib List FileSystemSandboxPolicy FileSystemAccessMode
open CodexStudy.ApplyPatch

/-! ## Which paths are roots -/

section

variable {host : Host} {policy : FileSystemSandboxPolicy} {cwd : Text} {p q : AbsolutePath}

@[simp] theorem normalizeEffectiveAbsolutePath_eq : normalizeEffectiveAbsolutePath host p = p := rfl

@[simp] theorem mem_dedupAbsolutePaths {paths : List AbsolutePath} {b : Bool} :
    p ∈ dedupAbsolutePaths host paths b ↔ p ∈ paths := by
  unfold dedupAbsolutePaths
  rw [mem_eraseDups]
  simp

theorem exists_fromAbsolutePath (host : Host) (hcwd : isAbsolute cwd) :
    ∃ c, AbsolutePath.fromAbsolutePath host.toProcessEnv cwd = some c :=
  ⟨_, AbsolutePath.fromAbsolutePath_of_isAbsolute host.toProcessEnv hcwd⟩

/-! ## Unreadable roots -/

theorem resolveAccess_of_none_entry {entries : List ResolvedFileSystemEntry} {e : ResolvedFileSystemEntry}
    (he : e ∈ entries) (hacc : e.access = .none) : resolveAccess entries e.path = .none := by
  obtain ⟨g, hg⟩ := exists_decides he (AbsolutePath.StartsWith.refl e.path)
  have heq : e.path = g.path := (hg.path_le he (AbsolutePath.StartsWith.refl _)).antisymm hg.startsWith |>.symm
  have hrank := Governs.rank_le hg he (by rw [heq])
  rw [hacc, none_le_iff] at hrank
  rw [resolveAccess_of_decides hg, hrank]

theorem mem_getUnreadableRoots (hkind : policy.kind = .restricted) (hcwd : isAbsolute cwd) :
    p ∈ policy.getUnreadableRootsWithCwd host cwd ↔
      (∃ e ∈ policy.resolvedEntriesWithCwd host cwd, e.path = p ∧ e.access = .none) ∧ p ≠ .root := by
  obtain ⟨c, hc⟩ := exists_fromAbsolutePath host hcwd
  unfold getUnreadableRootsWithCwd
  rw [if_neg (by simp [hkind])]
  simp only [hc, Option.map_some, mem_dedupAbsolutePaths, mem_map, mem_filter, Bool.and_eq_true, beq_iff_eq,
    canReadPathWithCwd_display hkind, absoluteRootPathForCwd, bne_iff_ne, ne_eq, Option.some.injEq]
  constructor
  · rintro ⟨e, ⟨he, ⟨hacc, _⟩, hroot⟩, rfl⟩
    exact ⟨⟨e, he, rfl, hacc⟩, fun h => hroot h.symm⟩
  · rintro ⟨⟨e, he, rfl, hacc⟩, hroot⟩
    exact ⟨e, ⟨he, ⟨hacc, by simp [resolveAccess_of_none_entry he hacc, canRead]⟩,
      fun h => hroot h.symm⟩, rfl⟩

/-! ## Patterns -/

/-- None of the entries is a pattern. -/
def WithoutGlobs (entries : List FileSystemSandboxEntry) : Prop :=
  ∀ entry ∈ entries, ∀ pattern, entry.path ≠ .globPattern pattern

theorem withoutGlobs_nested : WithoutGlobs nestedEntries := by
  intro entry hent pattern
  simp only [nestedEntries, mem_cons, not_mem_nil, or_false] at hent
  rcases hent with rfl | rfl | rfl <;> nofun

theorem getUnreadableGlobs_eq_nil (h : WithoutGlobs policy.entries) : policy.getUnreadableGlobsWithCwd host cwd = [] := by
  unfold getUnreadableGlobsWithCwd
  split
  · rfl
  · have hnil : (policy.entries.filter fun entry => entry.access == .none).filterMap
        (fun entry => entry.path.globPattern?.map fun pattern => (resolveAgainstCwd host pattern cwd).display) = [] := by
      rw [filterMap_eq_nil_iff]
      intro entry hent
      have hent := h entry (mem_of_mem_filter hent)
      cases hpath : entry.path with
      | path q => rfl
      | globPattern pattern => exact absurd hpath (hent pattern)
      | special value => rfl
    rw [hnil]
    rfl

end

/-! ## Metadata names -/

section

variable {env : ProcessEnv} {host : Host} {p q r m : AbsolutePath} {n : Text}
  {entries : List ResolvedFileSystemEntry} {e g : ResolvedFileSystemEntry}

variable (hg : Decides entries p g) (hacc : g.access = .write) (hn : n ∈ protectedMetadataPathNames)

include hn in
theorem isName_of_metadata : IsName n := by
  have hall : ∀ n ∈ protectedMetadataPathNames, IsName n := by decide +kernel
  exact hall n hn

include hn in
theorem names_join_metadata : (r.join env n).names = r.names ++ [n] := by
  have hname := isName_of_metadata hn
  have hhead : n.head? = some '.' := by
    have hall : ∀ n ∈ protectedMetadataPathNames, n.head? = some '.' := by decide +kernel
    exact hall n hn
  have hexpand : maybeExpandHomeDirectory env.homeDir n = n := by
    refine maybeExpand_of_not_startsAtHome env.homeDir ?_
    rintro (rfl | ⟨rest, rfl⟩) <;> cases hhead
  change normalizeNames (pathWithBase (maybeExpandHomeDirectory env.homeDir n) r) = _
  rw [hexpand]
  unfold pathWithBase
  rw [if_neg (by rw [hhead]; decide), AbsolutePath.components_of_not_mem hname.2.2.2 hname.1]
  refine (foldl_pushComponent_of_normal ?_ []).trans (nil_append _)
  intro c hc
  rcases mem_append.mp hc with hc | hc
  · exact r.normal c hc
  · rwa [mem_singleton.mp hc]

include hn in
theorem startsWith_join_iff :
    p.StartsWith (r.join env n) ↔ r.names ++ [n] <+: p.names := by
  rw [AbsolutePath.StartsWith, names_join_metadata hn]

include hn in
theorem join_startsWith : (r.join env n).StartsWith r := by
  rw [AbsolutePath.StartsWith, names_join_metadata hn]
  exact prefix_append _ _

include hn in
theorem not_startsWith_join : ¬ r.StartsWith (r.join env n) := by
  rw [startsWith_join_iff hn]
  intro h
  have := h.length_le
  rw [length_append, length_singleton] at this
  omega

include hn in
theorem join_ne : r.join env n ≠ r := by
  intro h
  have hlen := congrArg (fun q => q.names.length) h
  simp [names_join_metadata hn] at hlen

include hn in
theorem startsWith_join_of_between (hp : p.StartsWith (r.join env n))
    (hq : p.StartsWith q) (hqr : q.StartsWith r) (hne : q ≠ r) : q.StartsWith (r.join env n) := by
  refine hp.of_length_le hq ?_
  rw [names_join_metadata hn, length_append, length_singleton]
  refine Nat.lt_of_le_of_ne hqr.length_le fun h => hne ?_
  exact AbsolutePath.ext_names (List.IsPrefix.eq_of_length hqr h).symm

theorem head?_stripPrefix : (stripPrefix p r).bind head? = some n ↔ r.names ++ [n] <+: p.names := by
  unfold stripPrefix
  split
  · rename_i h
    obtain ⟨rest, hrest⟩ := h
    rw [Option.bind_some, ← hrest, drop_left, prefix_append_right_inj]
    cases rest with
    | nil => simp
    | cons a rest => simp [eq_comm]
  · rename_i h
    refine iff_of_false (by simp) fun hpre => h ?_
    exact (prefix_append _ _).trans hpre

theorem metadataPathName_eq_some {name : Text} :
    metadataPathName name = some n ↔ n ∈ protectedMetadataPathNames ∧ n = name := by
  unfold metadataPathName
  constructor
  · intro h
    exact ⟨mem_of_find?_eq_some h, by simpa using find?_some h⟩
  · rintro ⟨hn, rfl⟩
    cases h : protectedMetadataPathNames.find? (· == n) with
    | none =>
        rw [find?_eq_none] at h
        exact absurd (beq_self_eq_true n) (h n hn)
    | some m =>
        have : m = n := by simpa using find?_some h
        rw [this]

theorem metadataChildOf_eq_some : metadataChildOf host p e = some (m, n) ↔
    n ∈ protectedMetadataPathNames ∧ m = e.path.join host.toProcessEnv n ∧ p.StartsWith m := by
  have hbind : metadataChildOf host p e = (((stripPrefix p e.path).bind head?).bind metadataPathName).map
      fun name => (e.path.join host.toProcessEnv name, name) := by
    unfold metadataChildOf
    cases stripPrefix p e.path with
    | none => rfl
    | some relative => rfl
  rw [hbind, Option.map_eq_some_iff]
  constructor
  · rintro ⟨name, hname, heq⟩
    obtain ⟨first, hfst, hname⟩ := Option.bind_eq_some_iff.mp hname
    obtain ⟨hmem, rfl⟩ := metadataPathName_eq_some.mp hname
    cases heq
    exact ⟨hmem, rfl, (startsWith_join_iff hmem).mpr (head?_stripPrefix.mp hfst)⟩
  · rintro ⟨hmem, rfl, hp⟩
    refine ⟨n, Option.bind_eq_some_iff.mpr ⟨n, ?_, metadataPathName_eq_some.mpr ⟨hmem, rfl⟩⟩, rfl⟩
    exact head?_stripPrefix.mpr ((startsWith_join_iff hmem).mp hp)

/-! ## The metadata rule below the deciding entry -/

theorem metadataWriteDenied_iff : metadataWriteDenied host entries p = true ↔
    ∃ m, metadataChildOfWritableRoot host entries p = some m ∧
      ∀ f ∈ entries, f.access = .write → p.StartsWith f.path → ¬ f.path.StartsWith m.1 := by
  unfold metadataWriteDenied
  cases metadataChildOfWritableRoot host entries p with
  | none => simp
  | some m =>
      simp only [Option.some.injEq, exists_eq_left']
      rw [Bool.not_eq_true', ← Bool.not_eq_true, hasExplicitWriteEntry_iff]
      push Not
      rfl

include hg hacc in
theorem metadataWriteDenied_iff_owner :
    metadataWriteDenied host entries p = true ↔ ∃ n ∈ protectedMetadataPathNames,
      metadataChildOfWritableRoot host entries p = some (g.path.join host.toProcessEnv n, n) := by
  rw [metadataWriteDenied_iff]
  constructor
  · rintro ⟨⟨m, n⟩, hm, hcls⟩
    obtain ⟨e, he, _, hch⟩ := mem_metadataChildren.mp (mem_of_metadataChildOfWritableRoot hm)
    obtain ⟨hn, rfl, hpm⟩ := metadataChildOf_eq_some.mp hch
    have hge := hg.path_le he (hpm.trans (join_startsWith hn))
    by_cases heq : g.path = e.path
    · exact ⟨n, hn, by rw [hm, heq]⟩
    · exact absurd (startsWith_join_of_between hn hpm hg.startsWith hge heq) (hcls g hg.mem hacc hg.startsWith)
  · rintro ⟨n, hn, hm⟩
    refine ⟨_, hm, fun f hf _ hpf hfm => ?_⟩
    exact not_startsWith_join hn ((hg.path_le hf hpf).trans hfm)

theorem metadataWriteDenied_of_path_eq (hg : Decides entries g.path g) (hacc : g.access = .write) :
    metadataWriteDenied host entries g.path = false := by
  rw [← Bool.not_eq_true, metadataWriteDenied_iff_owner hg hacc]
  rintro ⟨n, hn, hm⟩
  obtain ⟨e, _, _, hch⟩ := mem_metadataChildren.mp (mem_of_metadataChildOfWritableRoot hm)
  exact not_startsWith_join hn (metadataChildOf_eq_some.mp hch).2.2

include hg hacc in
theorem metadataWriteDenied_between (hq : q.StartsWith g.path) (hne : q ≠ g.path) (hp : p.StartsWith q) :
    metadataWriteDenied host entries q = metadataWriteDenied host entries p := by
  have hchildren : metadataChildOfWritableRoot host entries q = metadataChildOfWritableRoot host entries p := by
    rw [metadataChildOfWritableRoot_eq_head?, metadataChildOfWritableRoot_eq_head?]
    congr 1
    refine filterMap_congr fun e he => ?_
    ext ⟨m, n⟩
    rw [metadataChildOf_eq_some, metadataChildOf_eq_some]
    refine and_congr_right fun hn => and_congr_right ?_
    rintro rfl
    refine ⟨fun h => hp.trans h, fun h => ?_⟩
    have hge := hg.path_le (mem_of_mem_filter he) (h.trans (join_startsWith hn))
    refine startsWith_join_of_between hn h hp (hq.trans hge) fun heq => ?_
    exact hne (hq.antisymm (heq ▸ hge))
  rw [Bool.eq_iff_iff, metadataWriteDenied_iff_owner (hg.mono hq hp) hacc, metadataWriteDenied_iff_owner hg hacc,
    hchildren]

include hg hacc hn in
theorem metadataWriteDenied_join (hp : p.StartsWith (g.path.join host.toProcessEnv n)) :
    metadataWriteDenied host entries (g.path.join host.toProcessEnv n) = metadataWriteDenied host entries p :=
  metadataWriteDenied_between hg hacc (join_startsWith hn) (join_ne hn) hp

end

/-! ## The parts of a writable root -/

/-- The path of an entry, where a write entry decides. -/
def IsWritableRoot (entries : List ResolvedFileSystemEntry) (r : AbsolutePath) : Prop :=
  WriteDecides entries r ∧ ∃ e ∈ entries, e.path = r

structure Carved (entries : List ResolvedFileSystemEntry) (r q : AbsolutePath) : Prop where
  ofEntry : ∃ e ∈ entries, e.path = q
  notWrite : ¬ WriteDecides entries q
  below : q.StartsWith r
  ne : q ≠ r

def protectsMissingDotCodex (host : Host) (cwd : Text) (r : AbsolutePath) : Bool :=
  (AbsolutePath.fromAbsolutePath host.toProcessEnv cwd).any fun cwd => cwd == r

/-- A default read-only path of the root that no entry stands for. -/
def DefaultReadOnly (host : Host) (policy : FileSystemSandboxPolicy) (cwd : Text) (r q : AbsolutePath) : Prop :=
  q ∈ defaultReadOnlySubpathsForWritableRoot host r (protectsMissingDotCodex host cwd r) ∧
    ∀ e ∈ policy.resolvedEntriesWithCwd host cwd, e.path ≠ q

/-- The root lets the path through. -/
structure Opens (host : Host) (policy : FileSystemSandboxPolicy) (cwd : Text) (r p : AbsolutePath) : Prop where
  above : p.StartsWith r
  writable : ∀ e ∈ policy.resolvedEntriesWithCwd host cwd, p.StartsWith e.path → e.path.StartsWith r →
    WriteDecides (policy.resolvedEntriesWithCwd host cwd) e.path
  metadata : ∀ n ∈ protectedMetadataPathNames, p.StartsWith (r.join host.toProcessEnv n) →
    metadataWriteDenied host (policy.resolvedEntriesWithCwd host cwd) (r.join host.toProcessEnv n) = false
  defaults : ∀ q, DefaultReadOnly host policy cwd r q → ¬ p.StartsWith q

structure Describes (host : Host) (policy : FileSystemSandboxPolicy) (cwd : Text) (w : WritableRoot) : Prop where
  isRoot : IsWritableRoot (policy.resolvedEntriesWithCwd host cwd) w.root
  readOnly : ∀ q, q ∈ w.readOnlySubpaths ↔
    DefaultReadOnly host policy cwd w.root q ∨ Carved (policy.resolvedEntriesWithCwd host cwd) w.root q
  protectedNames : ∀ n, n ∈ w.protectedMetadataNames ↔ n ∈ protectedMetadataPathNames ∧
    policy.canWritePathWithCwd host (w.root.join host.toProcessEnv n).display cwd = false

section

variable {host : Host} {policy : FileSystemSandboxPolicy} {cwd : Text} {p q r : AbsolutePath} {w : WritableRoot}
  {entries : List ResolvedFileSystemEntry} {e g : ResolvedFileSystemEntry}

theorem Decides.self (hg : Decides entries p g) : Decides entries g.path g :=
  hg.mono (AbsolutePath.StartsWith.refl g.path) hg.startsWith

theorem Decides.own_path (hg : Decides entries p g) (he : e ∈ entries) (hpath : e.path = p) : g.path = p := by
  have hle := hg.path_le he (hpath ▸ AbsolutePath.StartsWith.refl e.path)
  rw [hpath] at hle
  exact hle.antisymm hg.startsWith

theorem IsWritableRoot.decides (h : IsWritableRoot entries r) :
    ∃ g, Decides entries r g ∧ g.access = .write ∧ g.path = r := by
  obtain ⟨⟨g, hg, hacc⟩, e, he, hpath⟩ := h
  exact ⟨g, hg, hacc, hg.own_path he hpath⟩

theorem metadataWriteDenied_of_isWritableRoot (h : IsWritableRoot entries r) :
    metadataWriteDenied host entries r = false := by
  obtain ⟨g, hg, hacc, rfl⟩ := h.decides
  exact metadataWriteDenied_of_path_eq hg hacc

variable (hkind : policy.kind = .restricted) (hfull : policy.hasFullDiskWriteAccess = false)

include hkind hfull in
theorem canWritePathWithCwd_entry
    (he : e ∈ policy.resolvedEntriesWithCwd host cwd) : policy.canWritePathWithCwd host e.path.display cwd = true ↔
      WriteDecides (policy.resolvedEntriesWithCwd host cwd) e.path := by
  rw [canWritePathWithCwd_display hkind hfull]
  exact and_iff_left_of_imp fun h => metadataWriteDenied_of_isWritableRoot ⟨h, e, he, rfl⟩

theorem carveoutPath_eq (raw : List AbsolutePath) (hraw : ∀ r' ∈ raw, r' = r) :
    carveoutPath host r raw q = if q ≠ r ∧ q.StartsWith r then some q else none := by
  unfold carveoutPath
  dsimp only [normalizeEffectiveAbsolutePath_eq]
  by_cases heq : q = r
  · simp [heq]
  · by_cases hbel : q.StartsWith r
    · rw [if_neg heq, if_pos hbel]
      cases r.parent.isSome with
      | true => simp [heq, hbel]
      | false => simp [heq, hbel]
    · have hnot : ¬ (q ≠ r ∧ q.StartsWith r) := fun h => hbel h.2
      rw [if_neg heq, if_neg hbel, if_neg hnot, if_pos (Or.inr hbel)]
      split
      · rename_i path h
        split at h
        · obtain ⟨r', hr', hsuf⟩ := exists_of_findSome?_eq_some h
          rw [hraw r' hr', stripPrefix, if_neg hbel] at hsuf
          cases hsuf
        · cases h
      · rfl

theorem exists_nonWrite_entry (h : Carved entries r q) : ∃ e ∈ entries, e.path = q ∧ e.access ≠ .write := by
  obtain ⟨e, he, hpath⟩ := h.ofEntry
  obtain ⟨g, hg⟩ := exists_decides he (p := q) (hpath ▸ AbsolutePath.StartsWith.refl e.path)
  exact ⟨g, hg.mem, hg.own_path he hpath, fun hacc => h.notWrite ⟨g, hg, hacc⟩⟩

include hkind hfull in
theorem mem_carveouts {raw : List AbsolutePath} (hraw : ∀ r' ∈ raw, r' = r) :
    q ∈ ((policy.resolvedEntriesWithCwd host cwd).filter fun entry => !entry.access.canWrite &&
        !policy.canWritePathWithCwd host entry.path.display cwd).filterMap
          (fun entry => carveoutPath host r raw entry.path) ↔ Carved (policy.resolvedEntriesWithCwd host cwd) r q := by
  simp only [mem_filterMap, mem_filter, carveoutPath_eq raw hraw, Bool.and_eq_true, Bool.not_eq_true',
    ← Bool.not_eq_true, canWrite_iff]
  constructor
  · rintro ⟨e, ⟨he, _, hwr⟩, hcarve⟩
    split at hcarve
    · rename_i hbel
      cases hcarve
      exact ⟨⟨e, he, rfl⟩, fun h => hwr ((canWritePathWithCwd_entry hkind hfull he).mpr h), hbel.2, hbel.1⟩
    · cases hcarve
  · intro h
    obtain ⟨e, he, rfl, hacc⟩ := exists_nonWrite_entry h
    refine ⟨e, ⟨he, hacc, fun hwr => h.notWrite ((canWritePathWithCwd_entry hkind hfull he).mp hwr)⟩, ?_⟩
    rw [if_pos ⟨h.ne, h.below⟩]

theorem mem_protectedMetadataNames {raw : List AbsolutePath} (hraw : ∀ r' ∈ raw, r' = r) {n : Text} :
    n ∈ policy.protectedMetadataNamesForWritableRoot host r raw cwd ↔ n ∈ protectedMetadataPathNames ∧
      policy.canWritePathWithCwd host (r.join host.toProcessEnv n).display cwd = false := by
  unfold protectedMetadataNamesForWritableRoot
  rw [mem_filter]
  refine and_congr_right fun _ => ?_
  simp only [all_eq_true, mem_map, mem_cons, Bool.not_eq_true']
  constructor
  · exact fun h => h _ ⟨r, Or.inl rfl, rfl⟩
  · rintro h _ ⟨r', hr', rfl⟩
    rcases hr' with rfl | hr'
    · exact h
    · rwa [hraw r' hr']

include hkind hfull in
theorem mem_getWritableRoots :
    (∀ w ∈ policy.getWritableRootsWithCwd host cwd, Describes host policy cwd w) ∧
      ∀ r, IsWritableRoot (policy.resolvedEntriesWithCwd host cwd) r →
        ∃ w ∈ policy.getWritableRootsWithCwd host cwd, w.root = r := by
  have hroot (r : AbsolutePath) : r ∈ dedupAbsolutePaths host
      (((policy.resolvedEntriesWithCwd host cwd).filter fun entry => entry.access.canWrite &&
        policy.canWritePathWithCwd host entry.path.display cwd).map ResolvedFileSystemEntry.path) true ↔
      IsWritableRoot (policy.resolvedEntriesWithCwd host cwd) r := by
    simp only [mem_dedupAbsolutePaths, mem_map, mem_filter, Bool.and_eq_true]
    constructor
    · rintro ⟨e, ⟨he, _, hwr⟩, rfl⟩
      exact ⟨(canWritePathWithCwd_entry hkind hfull he).mp hwr, e, he, rfl⟩
    · intro h
      obtain ⟨g, hg, hacc, rfl⟩ := h.decides
      exact ⟨g, ⟨hg.mem, by simp [hacc], (canWritePathWithCwd_entry hkind hfull hg.mem).mpr h.1⟩, rfl⟩
  unfold getWritableRootsWithCwd
  rw [hfull, if_neg (by simp)]
  dsimp only
  constructor
  · intro w hw
    obtain ⟨r, hr, rfl⟩ := mem_map.mp hw
    have hraw (paths : List AbsolutePath) :
        ∀ r' ∈ paths.filter fun path => normalizeEffectiveAbsolutePath host path == r, r' = r := by
      intro r' hr'
      simpa using (mem_filter.mp hr').2
    refine ⟨(hroot r).mp hr, fun q => ?_, fun n => mem_protectedMetadataNames (hraw _)⟩
    rw [mem_dedupAbsolutePaths, mem_append, mem_carveouts hkind hfull (hraw _), mem_filter]
    refine or_congr_left (and_congr_right fun _ => ?_)
    simp [hasExplicitResolvedPathEntry]
  · intro r hr
    exact ⟨_, mem_map.mpr ⟨r, (hroot r).mpr hr, rfl⟩, rfl⟩

theorem mem_defaultReadOnlySubpaths {protectMissingDotCodex : Bool}
    (h : q ∈ defaultReadOnlySubpathsForWritableRoot host r protectMissingDotCodex) :
    resolveGitdirFromFile host (r.join host.toProcessEnv ".git") = some q ∨
      ∃ n ∈ protectedMetadataPathNames, q = r.join host.toProcessEnv n := by
  unfold defaultReadOnlySubpathsForWritableRoot at h
  rw [mem_dedupAbsolutePaths] at h
  rcases mem_append.mp h with h | hcodex
  · rcases mem_append.mp h with hgit | hagents
    · split at hgit
      · rcases mem_append.mp hgit with hgitdir | htop
        · split at hgitdir
          · exact Or.inl (Option.mem_toList.mp hgitdir)
          · cases hgitdir
        · exact Or.inr ⟨_, by decide +kernel, mem_singleton.mp htop⟩
      · cases hgit
    · split at hagents
      · exact Or.inr ⟨_, by decide +kernel, mem_singleton.mp hagents⟩
      · cases hagents
  · split at hcodex
    · exact Or.inr ⟨_, by decide +kernel, mem_singleton.mp hcodex⟩
    · cases hcodex

theorem denied_of_protectedName {n : Text}
    (hkind : policy.kind = .restricted) (hfull : policy.hasFullDiskWriteAccess = false) (hw : Describes host policy cwd w)
    (hg : Decides (policy.resolvedEntriesWithCwd host cwd) p g) (hacc : g.access = .write) (hroot : w.root = g.path)
    (hn : n ∈ w.protectedMetadataNames) (hpn : p.StartsWith (g.path.join host.toProcessEnv n)) :
    metadataWriteDenied host (policy.resolvedEntriesWithCwd host cwd) p = true := by
  obtain ⟨hname, hno⟩ := (hw.protectedNames n).mp hn
  rw [← Bool.not_eq_true, canWritePathWithCwd_display hkind hfull, hroot, metadataWriteDenied_join hg hacc hname hpn] at hno
  by_contra hopen
  exact hno ⟨⟨g, hg.mono (join_startsWith hname) hpn, hacc⟩, by simpa using hopen⟩

/-! ## What a root lets through -/

theorem pathContainsProtectedMetadataName_iff : w.pathContainsProtectedMetadataName p = true ↔
    ∃ n ∈ w.protectedMetadataNames, w.root.names ++ [n] <+: p.names := by
  unfold WritableRoot.pathContainsProtectedMetadataName
  cases h : (stripPrefix p w.root).bind head? with
  | none =>
      refine iff_of_false (by simp) ?_
      rintro ⟨n, _, hn⟩
      rw [head?_stripPrefix.mpr hn] at h
      cases h
  | some first =>
      dsimp only
      rw [contains_iff_mem]
      constructor
      · exact fun hmem => ⟨first, hmem, head?_stripPrefix.mp h⟩
      · rintro ⟨n, hmem, hn⟩
        rw [head?_stripPrefix.mpr hn] at h
        cases h
        exact hmem

theorem isPathWritable_iff : w.isPathWritable p = true ↔ p.StartsWith w.root ∧
    (∀ q ∈ w.readOnlySubpaths, ¬ p.StartsWith q) ∧
      ∀ n ∈ w.protectedMetadataNames, ¬ w.root.names ++ [n] <+: p.names := by
  unfold WritableRoot.isPathWritable
  by_cases habove : p.StartsWith w.root
  · rw [if_neg (by simpa using habove)]
    split
    · rename_i h
      refine iff_of_false (by simp) fun hall => ?_
      obtain ⟨q, hq, hpq⟩ := any_eq_true.mp h
      exact hall.2.1 q hq (of_decide_eq_true hpq)
    · rename_i h
      rw [Bool.not_eq_true', ← Bool.not_eq_true, pathContainsProtectedMetadataName_iff]
      simp only [any_eq_true, decide_eq_true_eq, not_exists, not_and] at h
      constructor
      · exact fun hnms => ⟨habove, h, fun n hn hpn => hnms ⟨n, hn, hpn⟩⟩
      · rintro ⟨_, _, hnms⟩ ⟨n, hn, hpn⟩
        exact hnms n hn hpn
  · simp [habove]

theorem writeDecides_of_not_carved (hr : IsWritableRoot entries r) (hcarved : ∀ q, Carved entries r q → ¬ p.StartsWith q)
    (hpq : p.StartsWith q) (hqr : q.StartsWith r) : WriteDecides entries q := by
  obtain ⟨g, hg, hacc, hgr⟩ := hr.decides
  obtain ⟨e, he⟩ := exists_decides hg.mem (hgr ▸ hqr)
  have her := he.path_le hg.mem (hgr ▸ hqr)
  rw [hgr] at her
  by_contra hno
  have hnot : ¬ WriteDecides entries e.path := by
    rintro ⟨f, hf, hfacc⟩
    have := he.self.unique hf
    exact hno ⟨e, he, this.2.trans hfacc⟩
  have hne : e.path ≠ r := fun h => hnot (h ▸ hr.1)
  exact hcarved e.path ⟨⟨e, he.mem, rfl⟩, hnot, her, hne⟩ (hpq.trans he.startsWith)

include hkind hfull in
theorem opens_iff (hw : Describes host policy cwd w) : w.isPathWritable p = true ↔ Opens host policy cwd w.root p := by
  rw [isPathWritable_iff]
  constructor
  · rintro ⟨habove, hsub, hnms⟩
    have hcarved : ∀ q, Carved (policy.resolvedEntriesWithCwd host cwd) w.root q → ¬ p.StartsWith q :=
      fun q hq => hsub q ((hw.readOnly q).mpr (Or.inr hq))
    refine ⟨habove, fun e _ hpe her => writeDecides_of_not_carved hw.isRoot hcarved hpe her, fun n hn hpn => ?_,
      fun q hq => hsub q ((hw.readOnly q).mpr (Or.inl hq))⟩
    by_contra hden
    refine hnms n ((hw.protectedNames n).mpr ⟨hn, ?_⟩) ((startsWith_join_iff hn).mp hpn)
    rw [← Bool.not_eq_true, canWritePathWithCwd_display hkind hfull]
    exact fun h => hden h.2
  · intro h
    refine ⟨h.above, fun q hq hpq => ?_, fun n hn hpn => ?_⟩
    · rcases (hw.readOnly q).mp hq with hdef | hcarved
      · exact h.defaults q hdef hpq
      · obtain ⟨e, he, rfl⟩ := hcarved.ofEntry
        exact hcarved.notWrite (h.writable e he hpq hcarved.below)
    · obtain ⟨hn, hno⟩ := (hw.protectedNames n).mp hn
      have hpn : p.StartsWith (w.root.join host.toProcessEnv n) := (startsWith_join_iff hn).mpr hpn
      rw [← Bool.not_eq_true, canWritePathWithCwd_display hkind hfull] at hno
      refine hno ⟨?_, h.metadata n hn hpn⟩
      refine writeDecides_of_not_carved hw.isRoot (fun q hq hpq => ?_) hpn (join_startsWith hn)
      obtain ⟨e, he, rfl⟩ := hq.ofEntry
      exact hq.notWrite (h.writable e he hpq hq.below)

include hkind hfull in
theorem exists_isPathWritable_iff :
    (∃ w ∈ policy.getWritableRootsWithCwd host cwd, w.isPathWritable p = true) ↔
      ∃ r, IsWritableRoot (policy.resolvedEntriesWithCwd host cwd) r ∧ Opens host policy cwd r p := by
  constructor
  · rintro ⟨w, hw, hp⟩
    have hw := (mem_getWritableRoots hkind hfull).1 w hw
    exact ⟨w.root, hw.isRoot, (opens_iff hkind hfull hw).mp hp⟩
  · rintro ⟨r, hr, hp⟩
    obtain ⟨w, hw, rfl⟩ := (mem_getWritableRoots hkind hfull).2 r hr
    exact ⟨w, hw, (opens_iff hkind hfull ((mem_getWritableRoots hkind hfull).1 w hw)).mpr hp⟩

end

end CodexStudy.Sandbox
