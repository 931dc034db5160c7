import CodexStudy.Sandbox.Bwrap
import CodexStudy.Sandbox.Lemmas.Signature

/-!
# What the mounts show
-/

namespace CodexStudy.Sandbox

open CodexStudy.Lib List
open CodexStudy.ApplyPatch (AbsolutePath ProcessEnv isAbsolute)

inductive HostContent where
  | hidden
  | readOnly
  | writable
  deriving DecidableEq

structure Mount where
  target : AbsolutePath
  content : HostContent

def BwrapOption.mount? : BwrapOption → Option Mount
  | .bind path => some ⟨path, .writable⟩
  | .roBind path => some ⟨path, .readOnly⟩
  | .tmpfs path | .dev path | .roBindData _ path => some ⟨path, .hidden⟩
  | .dir _ | .perms _ | .remountRo _ => none

def mounts (options : List BwrapOption) : List Mount := options.filterMap BwrapOption.mount?

def Mount.covers (p : AbsolutePath) (m : Mount) : Bool := decide (p.StartsWith m.target)

def contentOf (layers : List Mount) (p : AbsolutePath) : HostContent :=
  ((topmost (Mount.covers p) layers).map Mount.content).getD .hidden

def hostContent (options : List BwrapOption) (p : AbsolutePath) : HostContent := contentOf (mounts options) p

section

variable {p : AbsolutePath} {layers layers' : List Mount}

theorem contentOf_append_of_none (h : ∀ m ∈ layers', m.covers p = false) :
    contentOf (layers ++ layers') p = contentOf layers p := by
  unfold contentOf
  rw [topmost_append_of_none h]

theorem contentOf_append_of_cover {m : Mount} (hm : m ∈ layers') (hcov : m.covers p = true) :
    contentOf (layers ++ layers') p = contentOf layers' p := by
  unfold contentOf
  rw [topmost_append_of_isSome (topmost_isSome hm hcov)]

theorem exists_contentOf {m : Mount} (hm : m ∈ layers) (hcov : m.covers p = true) :
    ∃ t ∈ layers, t.covers p = true ∧ contentOf layers p = t.content := by
  obtain ⟨t, ht⟩ := Option.isSome_iff_exists.mp (topmost_isSome hm hcov)
  refine ⟨t, (mem_of_topmost ht).1, (mem_of_topmost ht).2, ?_⟩
  unfold contentOf
  rw [ht]
  rfl

theorem exists_cover_of_content (h : contentOf layers p ≠ .hidden) :
    ∃ t ∈ layers, t.covers p = true ∧ contentOf layers p = t.content := by
  by_cases hex : ∃ m ∈ layers, m.covers p = true
  · obtain ⟨m, hm, hcov⟩ := hex
    exact exists_contentOf hm hcov
  · refine absurd ?_ h
    unfold contentOf
    rw [topmost_eq_none.mpr]
    · rfl
    · intro m hm
      rw [← Bool.not_eq_true]
      exact fun hcov => hex ⟨m, hm, hcov⟩

end

/-! ## The mounts of the parts -/

section

variable {host : LinuxHost} {allowed : List AbsolutePath} {b b' : BwrapArgs} {path : AbsolutePath}

def missingMounts (host : Host) (allowed : List AbsolutePath) (path : AbsolutePath) : List Mount :=
  match findFirstNonExistentComponent host path with
  | none => []
  | some firstMissingComponent =>
      if isWithinAllowedWritePaths firstMissingComponent allowed then [⟨firstMissingComponent, .hidden⟩] else []

def readOnlyMounts (host : Host) (allowed : List AbsolutePath) (path : AbsolutePath) : List Mount :=
  if isWithinAllowedWritePaths path allowed && (transientEmptyMetadataPath host path).isSome then [⟨path, .hidden⟩]
  else if host.pathExists path then
    if isWithinAllowedWritePaths path allowed then [⟨path, .readOnly⟩] else []
  else missingMounts host allowed path

def unreadableMounts (host : Host) (allowed : List AbsolutePath) (path : AbsolutePath) : List Mount :=
  if host.pathExists path then [⟨path, .hidden⟩] else missingMounts host allowed path

def writableRootMounts (host : LinuxHost) (unreadable missingAuto allowed : List AbsolutePath) (w : WritableRoot) :
    List Mount :=
  ⟨w.root, .writable⟩ ::
    ((sortedByDepth (readOnlySubpathsForMount host unreadable missingAuto w)).flatMap (readOnlyMounts host.toHost allowed) ++
      (sortedByDepth (unreadable.filter fun u => decide (u.StartsWith w.root))).flatMap
        (unreadableMounts host.toHost allowed))

@[simp] theorem mounts_push (options : List BwrapOption) :
    mounts (b.push options).options = mounts b.options ++ mounts options := filterMap_append

@[simp] theorem addTarget_options (target : SyntheticMountTarget) : (b.addTarget target).options = b.options := rfl

theorem mounts_append (options options' : List BwrapOption) :
    mounts (options ++ options') = mounts options ++ mounts options' := filterMap_append

theorem mounts_flatMap_nil {α : Type} {l : List α} {f : α → List BwrapOption} (h : ∀ a, mounts (f a) = []) :
    mounts (l.flatMap f) = [] := by
  induction l with
  | nil => rfl
  | cons a l ih => rw [flatMap_cons, mounts_append, h, ih, append_nil]

theorem mounts_map_dir (dirs : List AbsolutePath) : mounts (dirs.map .dir) = [] := by
  unfold mounts
  rw [filterMap_eq_nil_iff]
  intro option hopt
  obtain ⟨dir, _, rfl⟩ := mem_map.mp hopt
  rfl

theorem mounts_mountTargetParentDirOptions (host : Host) (mountTarget anchor : AbsolutePath) :
    mounts (mountTargetParentDirOptions host mountTarget anchor) = [] := by
  unfold mountTargetParentDirOptions
  dsimp only
  split
  · rfl
  · exact mounts_map_dir _

theorem mounts_mountPointOptions (unreadable : List AbsolutePath) (root : AbsolutePath) :
    mounts (mountPointOptions host unreadable root) = [] := by
  unfold mountPointOptions
  split
  · rfl
  · exact mounts_mountTargetParentDirOptions _ _ _

theorem mounts_appendEmptyFile (h : appendEmptyFileBindDataArgs host b path = .ok b') :
    mounts b'.options = mounts b.options ++ [⟨path, .hidden⟩] := by
  unfold appendEmptyFileBindDataArgs at h
  split at h
  · cases h
    exact mounts_push _
  · cases hfd : host.devNull with
    | error e =>
        rw [hfd] at h
        cases h
    | ok fd =>
        rw [hfd] at h
        cases h
        exact mounts_push _

theorem mounts_appendMissingEmptyFile (h : appendMissingEmptyFileBindDataArgs host b path = .ok b') :
    mounts b'.options = mounts b.options ++ [⟨path, .hidden⟩] := by
  unfold appendMissingEmptyFileBindDataArgs at h
  cases hb : appendEmptyFileBindDataArgs host b path with
  | error e =>
      rw [hb] at h
      cases h
  | ok t =>
      rw [hb] at h
      cases h
      have ht := mounts_appendEmptyFile hb
      exact ht

theorem mounts_appendMissingReadOnlySubpath (h : appendMissingReadOnlySubpathArgs host b path = .ok b') :
    mounts b'.options = mounts b.options ++ [⟨path, .hidden⟩] := by
  unfold appendMissingReadOnlySubpathArgs at h
  split at h
  · cases h
    exact mounts_push _
  · exact mounts_appendMissingEmptyFile h

theorem mounts_missing (mask : AbsolutePath → Except Text BwrapArgs)
    (hmask : ∀ first, mask first = .ok b' → mounts b'.options = mounts b.options ++ [⟨first, .hidden⟩])
    (h : (match findFirstNonExistentComponent host.toHost path with
      | none => Except.ok b
      | some first => if isWithinAllowedWritePaths first allowed then mask first else .ok b) = .ok b') :
    mounts b'.options = mounts b.options ++ missingMounts host.toHost allowed path := by
  unfold missingMounts
  cases hfst : findFirstNonExistentComponent host.toHost path with
  | none =>
      rw [hfst] at h
      cases h
      exact (append_nil _).symm
  | some first =>
      rw [hfst] at h
      dsimp only at h ⊢
      split at h
      · rename_i hin
        rw [if_pos hin]
        exact hmask first h
      · rename_i hin
        rw [if_neg hin]
        cases h
        exact (append_nil _).symm

theorem mounts_appendReadOnlySubpath (h : appendReadOnlySubpathArgs host allowed b path = .ok b') :
    mounts b'.options = mounts b.options ++ readOnlyMounts host.toHost allowed path := by
  unfold appendReadOnlySubpathArgs at h
  unfold readOnlyMounts
  split at h
  · rename_i htra hin
    rw [if_pos (by rw [htra, hin]; rfl)]
    cases hb : appendEmptyFileBindDataArgs host b path with
    | error e =>
        rw [hb] at h
        cases h
    | ok t =>
        rw [hb] at h
        cases h
        have ht := mounts_appendEmptyFile hb
        exact ht
  · rename_i htra hin
    rw [if_pos (by rw [htra, hin]; rfl)]
    cases h
    exact mounts_push _
  · rename_i hfile hdir
    have hno : ¬ (isWithinAllowedWritePaths path allowed &&
        (transientEmptyMetadataPath host.toHost path).isSome) = true := by
      rw [Bool.and_eq_true]
      rintro ⟨hin, htra⟩
      obtain ⟨kind, hkind⟩ := Option.isSome_iff_exists.mp htra
      cases kind with
      | file => exact hfile hkind hin
      | directory => exact hdir hkind hin
    rw [if_neg hno]
    split at h
    · rename_i hexists
      rw [if_pos hexists]
      split at h
      · rename_i hin
        rw [if_pos hin]
        cases h
        exact mounts_push _
      · rename_i hin
        rw [if_neg hin]
        cases h
        exact (append_nil _).symm
    · rename_i hexists
      rw [if_neg hexists]
      exact mounts_missing (appendMissingReadOnlySubpathArgs host b)
        (fun _ h => mounts_appendMissingReadOnlySubpath h) h

theorem mounts_appendUnreadableRoot (h : appendUnreadableRootArgs host allowed b path = .ok b') :
    mounts b'.options = mounts b.options ++ unreadableMounts host.toHost allowed path := by
  unfold appendUnreadableRootArgs at h
  unfold unreadableMounts
  split at h
  · rename_i hexists
    rw [if_pos hexists]
    unfold appendExistingUnreadablePathArgs at h
    split at h
    · cases h
      rw [mounts_push, mounts_append, mounts_append,
        mounts_flatMap_nil fun _ => mounts_mountTargetParentDirOptions _ _ _]
      rfl
    · rw [mounts_appendEmptyFile h, mounts_push, show mounts [.perms "000"] = [] from rfl, append_nil]
  · rename_i hexists
    rw [if_neg hexists]
    exact mounts_missing (appendMissingEmptyFileBindDataArgs host b) (fun _ h => mounts_appendMissingEmptyFile h) h

theorem mounts_appendWritableRoot {unreadable missingAuto : List AbsolutePath} {w : WritableRoot}
    (h : appendWritableRootArgs host unreadable missingAuto allowed b w = .ok b') :
    mounts b'.options = mounts b.options ++ writableRootMounts host unreadable missingAuto allowed w := by
  unfold appendWritableRootArgs at h
  obtain ⟨t, ht, h⟩ := except_bind_eq_ok.mp h
  have hsubs := foldlM_layers (fun b : BwrapArgs => mounts b.options)
    (fun _ _ _ h => mounts_appendReadOnlySubpath h) ht
  have hnested := foldlM_layers (fun b : BwrapArgs => mounts b.options)
    (fun _ _ _ h => mounts_appendUnreadableRoot h) h
  dsimp only at hsubs hnested
  rw [hnested, hsubs, mounts_push, mounts_append, mounts_mountPointOptions]
  simp [mounts, BwrapOption.mount?, writableRootMounts]

end

/-! ## The mounts of a plan -/

section

variable {host : LinuxHost} {policy : FileSystemSandboxPolicy} {cwd : Text} {allowed : List AbsolutePath}
  {p q path : AbsolutePath} {m : Mount} {n : Text}

def allowedWritePaths (host : LinuxHost) (policy : FileSystemSandboxPolicy) (cwd : Text) : List AbsolutePath :=
  (mountedWritableRoots host policy cwd).map WritableRoot.root

def mountedUnreadableRoots (host : LinuxHost) (policy : FileSystemSandboxPolicy) (cwd : Text) : List AbsolutePath :=
  (sortedAbsolutePaths (policy.getUnreadableRootsWithCwd host.toHost cwd)).destutter (· ≠ ·)

def unreadableAncestors (host : LinuxHost) (policy : FileSystemSandboxPolicy) (cwd : Text) : List AbsolutePath :=
  (mountedUnreadableRoots host policy cwd).filter fun u =>
    !isWithinAllowedWritePaths u (allowedWritePaths host policy cwd) &&
      (allowedWritePaths host policy cwd).any fun root => decide (root.StartsWith u)

def rootlessUnreadable (host : LinuxHost) (policy : FileSystemSandboxPolicy) (cwd : Text) : List AbsolutePath :=
  (mountedUnreadableRoots host policy cwd).filter fun u =>
    !(allowedWritePaths host policy cwd).any fun root => decide (u.StartsWith root) || decide (root.StartsWith u)

def rootMounts (host : LinuxHost) (policy : FileSystemSandboxPolicy) (cwd : Text) (w : WritableRoot) : List Mount :=
  writableRootMounts host (mountedUnreadableRoots host policy cwd)
    (missingAutoMetadataReadOnlyProjectRootSubpaths host policy cwd) (allowedWritePaths host policy cwd) w

def rootsInMountOrder (host : LinuxHost) (policy : FileSystemSandboxPolicy) (cwd : Text) : List WritableRoot :=
  sortedMountRoots (mountedWritableRoots host policy cwd)

def maskMounts (host : LinuxHost) (policy : FileSystemSandboxPolicy) (cwd : Text) (paths : List AbsolutePath) : List Mount :=
  (sortedByDepth paths).flatMap (unreadableMounts host.toHost (allowedWritePaths host policy cwd))

def planMounts (host : LinuxHost) (policy : FileSystemSandboxPolicy) (cwd : Text) : List Mount :=
  mounts (baseOptions host policy cwd) ++ maskMounts host policy cwd (unreadableAncestors host policy cwd) ++
    (rootsInMountOrder host policy cwd).flatMap (rootMounts host policy cwd) ++
    maskMounts host policy cwd (rootlessUnreadable host policy cwd)

theorem mounts_createFilesystemArgs (hglobs : WithoutGlobs policy.entries) {depth : Option Nat} {b : BwrapArgs}
    (h : createFilesystemArgs host policy cwd depth = .ok b) : mounts b.options = planMounts host policy cwd := by
  unfold createFilesystemArgs at h
  obtain ⟨expanded, hexpanded, h⟩ := except_bind_eq_ok.mp h
  rw [getUnreadableGlobs_eq_nil hglobs] at hexpanded
  cases hexpanded
  obtain ⟨t, ht, h⟩ := except_bind_eq_ok.mp h
  obtain ⟨t', ht', h⟩ := except_bind_eq_ok.mp h
  rw [append_nil] at ht ht' h
  have hancestors := foldlM_layers (fun b : BwrapArgs => mounts b.options)
    (fun _ _ _ h => mounts_appendUnreadableRoot h) ht
  have hroots := foldlM_layers (fun b : BwrapArgs => mounts b.options) (fun _ _ _ h => mounts_appendWritableRoot h) ht'
  have hrootless := foldlM_layers (fun b : BwrapArgs => mounts b.options)
    (fun _ _ _ h => mounts_appendUnreadableRoot h) h
  exact hrootless.trans (by rw [hroots, hancestors]; rfl)

/-! ## Which mounts cover an existing path -/

variable (hp : host.pathExists p = true)

include hp in
theorem pathExists_of_startsWith (hq : p.StartsWith q) : host.pathExists q = true := by
  unfold Host.pathExists FileTree.present at hp ⊢
  by_cases heq : q = p
  · rwa [heq]
  · have hdir := host.files.dir_of_prefix (Option.isSome_iff_ne_none.mp hp) hq fun h => heq (AbsolutePath.ext_names h)
    rw [hdir]
    rfl

include hp in
theorem not_covers_missing (hm : m ∈ missingMounts host.toHost allowed path) :
    m.covers p = false := by
  unfold missingMounts at hm
  split at hm
  · cases hm
  · rename_i first hfst
    split at hm
    · rw [mem_singleton.mp hm, ← Bool.not_eq_true, Mount.covers, decide_eq_true_eq]
      intro hcov
      have := find?_some hfst
      rw [pathExists_of_startsWith hp hcov] at this
      cases this
    · cases hm

include hp in
theorem covers_readOnlyMounts (hm : m ∈ readOnlyMounts host.toHost allowed path)
    (hcov : m.covers p = true) : p.StartsWith path ∧ isWithinAllowedWritePaths path allowed = true ∧
      m.content = if (transientEmptyMetadataPath host.toHost path).isSome then .hidden else .readOnly := by
  unfold readOnlyMounts at hm
  split at hm
  · rename_i h
    rw [Bool.and_eq_true] at h
    rw [mem_singleton.mp hm] at hcov ⊢
    exact ⟨of_decide_eq_true hcov, h.1, by rw [if_pos h.2]⟩
  · rename_i h
    split at hm
    · split at hm
      · rename_i hin
        rw [mem_singleton.mp hm] at hcov ⊢
        rw [hin, Bool.true_and] at h
        exact ⟨of_decide_eq_true hcov, hin, by rw [if_neg h]⟩
      · cases hm
    · rw [not_covers_missing hp hm] at hcov
      cases hcov

include hp in
theorem exists_readOnlyMount (hpath : p.StartsWith path) (hin : isWithinAllowedWritePaths path allowed = true) :
    ∃ m ∈ readOnlyMounts host.toHost allowed path, m.covers p = true := by
  unfold readOnlyMounts
  rw [hin, Bool.true_and, if_pos rfl, if_pos (pathExists_of_startsWith hp hpath)]
  split
  · exact ⟨_, mem_singleton.mpr rfl, decide_eq_true hpath⟩
  · exact ⟨_, mem_singleton.mpr rfl, decide_eq_true hpath⟩

include hp in
theorem covers_unreadableMounts (hm : m ∈ unreadableMounts host.toHost allowed path)
    (hcov : m.covers p = true) : p.StartsWith path ∧ m.content = .hidden := by
  unfold unreadableMounts at hm
  split at hm
  · rw [mem_singleton.mp hm] at hcov ⊢
    exact ⟨of_decide_eq_true hcov, rfl⟩
  · rw [not_covers_missing hp hm] at hcov
    cases hcov

include hp in
theorem exists_unreadableMount (hpath : p.StartsWith path) :
    ∃ m ∈ unreadableMounts host.toHost allowed path, m.covers p = true := by
  unfold unreadableMounts
  rw [if_pos (pathExists_of_startsWith hp hpath)]
  exact ⟨_, mem_singleton.mpr rfl, decide_eq_true hpath⟩

/-! ## The members of the lists -/

theorem mem_sortedByDepth {paths : List AbsolutePath} : q ∈ sortedByDepth paths ↔ q ∈ paths :=
  mem_insertionSort _

theorem mem_mountedUnreadableRoots (hkind : policy.kind = .restricted) (hcwd : isAbsolute cwd) :
    q ∈ mountedUnreadableRoots host policy cwd ↔ UnreadableRoot (policy.resolvedEntriesWithCwd host.toHost cwd) q := by
  unfold mountedUnreadableRoots sortedAbsolutePaths
  rw [mem_destutter_ne, mem_insertionSort, mem_getUnreadableRoots hkind hcwd]
  rfl

theorem not_pathExists_of_missingAuto (hq : q ∈ missingAutoMetadataReadOnlyProjectRootSubpaths host policy cwd) :
    host.pathExists q = false := by
  unfold missingAutoMetadataReadOnlyProjectRootSubpaths at hq
  obtain ⟨entry, _, hres⟩ := mem_filterMap.mp hq
  split at hres
  · split at hres
    · dsimp only at hres
      split at hres
      · cases hres
      · rename_i hmissing
        cases hres
        simpa using hmissing
    · cases hres
  · cases hres

theorem mem_appendMetadataPathMasks {root : AbsolutePath} {names : List Text} {subpaths : List AbsolutePath} :
    q ∈ appendMetadataPathMasksForWritableRoot host root names subpaths ↔ q ∈ subpaths ∨
      ∃ n ∈ names, shouldLeaveMissingGitForParentRepoDiscovery host.toHost root n = false ∧
        q = root.join host.toProcessEnv n := by
  unfold appendMetadataPathMasksForWritableRoot
  induction names generalizing subpaths with
  | nil => simp
  | cons n names ih =>
      have hround : (q ∈ if shouldLeaveMissingGitForParentRepoDiscovery host.toHost root n then subpaths
          else if subpaths.contains (root.join host.toProcessEnv n) then subpaths
          else subpaths ++ [root.join host.toProcessEnv n]) ↔ q ∈ subpaths ∨
            shouldLeaveMissingGitForParentRepoDiscovery host.toHost root n = false ∧
              q = root.join host.toProcessEnv n := by
        split
        · rename_i h
          simp [h]
        · rename_i h
          split
          · rename_i hmem
            refine ⟨Or.inl, ?_⟩
            rintro (hq | ⟨_, rfl⟩)
            · exact hq
            · exact contains_iff_mem.mp hmem
          · simp [h]
      rw [foldl_cons, ih, hround, or_assoc]
      simp only [mem_cons, exists_eq_or_imp]

end

end CodexStudy.Sandbox
