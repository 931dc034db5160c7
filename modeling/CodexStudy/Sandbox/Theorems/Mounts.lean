import CodexStudy.Sandbox.Lemmas.Mounts

/-!
# The mounts enforce the policy

Of the mounts of a plan those of the innermost writable root above a path decide, or the masks where there is none.
-/

namespace CodexStudy.Sandbox

open CodexStudy.Lib List Bool
open CodexStudy.ApplyPatch (AbsolutePath ProcessEnv isAbsolute)

/-- Of the roots mounted after those above the path, the last one with a default read-only path that contains it. -/
def LateDefault (host : LinuxHost) (policy : FileSystemSandboxPolicy) (cwd : Text) (p d : AbsolutePath) : Prop :=
  ∃ before w after, rootsInMountOrder host policy cwd = before ++ w :: after ∧
    (∀ v ∈ w :: after, ¬ p.StartsWith v.root) ∧ Reaches host policy cwd w p d ∧
    ∀ v ∈ after, ∀ d', ¬ Reaches host policy cwd v p d'

/-- A late default path takes write access away, or shows what cannot be read. -/
def Misplaced (host : LinuxHost) (policy : FileSystemSandboxPolicy) (cwd : Text) (p : AbsolutePath) : Prop :=
  ∃ d, LateDefault host policy cwd p d ∧
    (policy.canWritePathWithCwd host.toHost p.display cwd = true ∧ ¬ InOwnDefault host policy cwd p ∨
      transientEmptyMetadataPath host.toHost d = none ∧
        policy.canReadPathWithCwd host.toHost p.display cwd = false ∧ ¬ InPlatformDefault policy p)

section

variable {host : LinuxHost} {policy : FileSystemSandboxPolicy} {cwd : Text} {p d : AbsolutePath} {w : WritableRoot}

/-! ## The plan -/

theorem content_of_late (hkind : policy.kind = .restricted) (hfull : policy.hasFullDiskWriteAccess = false)
    (hcwd : isAbsolute cwd) (hp : host.pathExists p = true) (h : LateDefault host policy cwd p d) (base : List Mount) :
    contentOf (base ++ (rootsInMountOrder host policy cwd).flatMap (rootMounts host policy cwd)) p =
      if (transientEmptyMetadataPath host.toHost d).isSome then .hidden else .readOnly := by
  obtain ⟨before, v, after, horder, hnot, hreaches, hlast⟩ := h
  have hmem (w : WritableRoot) (hw : w ∈ v :: after) : w ∈ rootsInMountOrder host policy cwd := by
    rw [horder]
    exact mem_append.mpr (Or.inr hw)
  obtain ⟨m, hm, hcov⟩ := exists_cover_of_reaches hkind hfull hcwd hp (hmem v mem_cons_self) hreaches
  have haft : ∀ m ∈ after.flatMap (rootMounts host policy cwd), m.covers p = false := by
    intro m hm
    rw [← not_eq_true]
    intro hcov
    obtain ⟨w, hw, hm⟩ := mem_flatMap.mp hm
    have hw' := mem_cons_of_mem v hw
    obtain ⟨d', hd', _⟩ := covers_of_not_above hkind hfull hp (hmem w hw') (hnot w hw') hm hcov
    exact hlast w hw d' hd'
  rw [horder, flatMap_append, flatMap_cons, ← append_assoc, ← append_assoc,
    contentOf_append_of_none haft, contentOf_append_of_cover hm hcov]
  obtain ⟨t, ht, htcovers, hcont⟩ := exists_contentOf hm hcov
  obtain ⟨d', hd', heq⟩ :=
    covers_of_not_above hkind hfull hp (hmem v mem_cons_self) (hnot v mem_cons_self) ht htcovers
  -- Only one default path of a root lies outside its metadata directories.
  have hgitdir {d : AbsolutePath} (hd : Reaches host policy cwd v p d) :
      resolveGitdirFromFile host.toHost (v.root.join host.toProcessEnv ".git") = some d := by
    refine (mem_defaultReadOnlySubpaths hd.default.1).resolve_right ?_
    rintro ⟨n, hn, rfl⟩
    exact hnot v mem_cons_self (hd.covers.trans (join_startsWith hn))
  have hsame := (hgitdir hd').symm.trans (hgitdir hreaches)
  rw [hcont, heq, Option.some.inj hsame]

theorem not_covers_rootless (hp : host.pathExists p = true) (hw : w ∈ rootsInMountOrder host policy cwd)
    (hpw : p.StartsWith w.root) : ∀ m ∈ maskMounts host policy cwd (rootlessUnreadable host policy cwd),
      m.covers p = false := by
  intro m hm
  rw [← not_eq_true]
  intro hcov
  obtain ⟨_, u, hu, hpu⟩ := hidden_of_mem_masks hp hm hcov
  have hrootless := (mem_filter.mp hu).2
  have hmem : w.root ∈ allowedWritePaths host policy cwd := by
    unfold rootsInMountOrder sortedMountRoots at hw
    exact mem_map_of_mem ((mem_insertionSort _).mp hw)
  rw [not_eq_true', ← not_eq_true, any_eq_true] at hrootless
  refine hrootless ⟨w.root, hmem, ?_⟩
  rw [or_eq_true, decide_eq_true_eq, decide_eq_true_eq]
  exact hpu.total hpw

theorem enforced_of_not_late (hkind : policy.kind = .restricted) (hfull : policy.hasFullDiskWriteAccess = false)
    (hcwd : isAbsolute cwd) (hp : host.pathExists p = true) (hlate : ¬ ∃ d, LateDefault host policy cwd p d) :
    Enforced host policy cwd p (contentOf (planMounts host policy cwd) p) := by
  by_cases hroot : ∃ w ∈ rootsInMountOrder host policy cwd, p.StartsWith w.root
  · obtain ⟨before, w, after, horder, hpw, hlast⟩ := exists_last hroot
    have hinner := innermost_of_last hkind hfull hp horder hpw hlast
    have haft : ∀ m ∈ after.flatMap (rootMounts host policy cwd), m.covers p = false := by
      intro m hm
      rw [← not_eq_true]
      intro hcov
      obtain ⟨v, hv, hm⟩ := mem_flatMap.mp hm
      have hv' : v ∈ rootsInMountOrder host policy cwd := by
        rw [horder]
        exact mem_append.mpr (Or.inr (mem_cons_of_mem _ hv))
      obtain ⟨d, hd, _⟩ := covers_of_not_above hkind hfull hp hv' (hlast v hv) hm hcov
      -- The last such root after the innermost one has a late default path.
      obtain ⟨between, u, rest, hspl, ⟨d', hd'⟩, hnone⟩ :=
        exists_last (show ∃ v ∈ after, ∃ d, Reaches host policy cwd v p d from ⟨v, hv, d, hd⟩)
      refine hlate ⟨d', before ++ w :: between, u, rest, by rw [horder, hspl]; simp, fun x hx => ?_, hd',
        fun x hx d'' hd'' => hnone x hx ⟨d'', hd''⟩⟩
      exact hlast x (by rw [hspl]; exact mem_append.mpr (Or.inr hx))
    have hcov : (⟨w.root, .writable⟩ : Mount).covers p = true := decide_eq_true hpw
    rw [planMounts, contentOf_append_of_none (not_covers_rootless hp hinner.mem hpw), horder, flatMap_append,
      flatMap_cons, ← append_assoc, ← append_assoc, contentOf_append_of_none haft,
      contentOf_append_of_cover (show (⟨w.root, .writable⟩ : Mount) ∈ rootMounts host policy cwd w from mem_cons_self)
        hcov]
    exact enforced_of_innermost hkind hfull hcwd hp hinner
  · exact enforced_outside hkind hfull hcwd hp fun w hw hpw => hroot ⟨w, hw, hpw⟩

/-- A plan enforces the policy at an existing path exactly if no late default path is misplaced there. -/
theorem mount_plan_enforces_iff (host : LinuxHost) (policy : FileSystemSandboxPolicy) (hkind : policy.kind = .restricted)
    (hglobs : WithoutGlobs policy.entries) (hfull : policy.hasFullDiskWriteAccess = false) (cwd : Text)
    (hcwd : isAbsolute cwd) (depth : Option Nat) (plan : BwrapArgs)
    (hplan : createFilesystemArgs host policy cwd depth = .ok plan) (p : AbsolutePath) (hp : host.pathExists p = true) :
    Enforced host policy cwd p (hostContent plan.options p) ↔ ¬ Misplaced host policy cwd p := by
  rw [hostContent, mounts_createFilesystemArgs hglobs hplan]
  have hcont (d : AbsolutePath) (hd : LateDefault host policy cwd p d) : contentOf (planMounts host policy cwd) p =
      if (transientEmptyMetadataPath host.toHost d).isSome then .hidden else .readOnly := by
    obtain ⟨_, _, _, _, _, hreaches, _⟩ := id hd
    obtain ⟨w, hw, hdw⟩ := hreaches.within
    rw [planMounts, contentOf_append_of_none (not_covers_rootless hp hw (hreaches.covers.trans hdw))]
    exact content_of_late hkind hfull hcwd hp hd _
  have hnotWritable (d : AbsolutePath) (hd : LateDefault host policy cwd p d) :
      contentOf (planMounts host policy cwd) p ≠ .writable := by
    rw [hcont d hd]
    split
    · intro h
      cases h
    · intro h
      cases h
  constructor
  · rintro henforced ⟨d, hd, ⟨hwr, hown⟩ | ⟨htra, hread, hplatform⟩⟩
    · exact (henforced.written hwr).elim (hnotWritable d hd) hown
    · have hvis : contentOf (planMounts host policy cwd) p ≠ .hidden := by
        rw [hcont d hd, htra]
        intro h
        cases h
      rcases henforced.visible hvis with h | h
      · rw [hread] at h
        cases h
      · exact hplatform h
  · intro hno
    by_cases hlate : ∃ d, LateDefault host policy cwd p d
    · obtain ⟨d, hd⟩ := hlate
      refine ⟨fun h => absurd h (hnotWritable d hd), fun hwr => ?_, fun hvis => ?_⟩
      · by_contra hown
        exact hno ⟨d, hd, Or.inl ⟨hwr, fun h => hown (Or.inr h)⟩⟩
      · by_contra hneither
        rw [hcont d hd] at hvis
        refine hno ⟨d, hd, Or.inr ⟨?_, ?_, fun h => hneither (Or.inr h)⟩⟩
        · by_contra htra
          exact hvis (if_pos (Option.isSome_iff_ne_none.mpr htra))
        · rw [← not_eq_true]
          exact fun h => hneither (Or.inl h)
    · exact enforced_of_not_late hkind hfull hcwd hp hlate

end

/-! ## Runs -/

def hostWithFiles (files : List (List String × String)) : LinuxHost where
  files := (FileTree.ofFiles (files.map fun file => (file.1.map String.toList, file.2.toList))).getD FileTree.empty

def oneNote : LinuxHost := hostWithFiles [(["w", "docs", "notes", "a"], "")]

theorem nested_roots_enforced :
    ∃ plan, createFilesystemArgs oneNote (.restricted nestedEntries) "/w" none = .ok plan ∧
      Enforced oneNote (.restricted nestedEntries) "/w" (AbsolutePath.absolutizeFrom "/w/docs/notes/a" .root)
        (hostContent plan.options (AbsolutePath.absolutizeFrom "/w/docs/notes/a" .root)) := by
  have hok : (createFilesystemArgs oneNote (.restricted nestedEntries) "/w" none).toOption.isSome
      = true := by decide +kernel
  cases hplan : createFilesystemArgs oneNote (.restricted nestedEntries) "/w" none with
  | error e =>
      rw [hplan] at hok
      cases hok
  | ok plan =>
      refine ⟨plan, rfl, (mount_plan_enforces_iff oneNote (.restricted nestedEntries) rfl withoutGlobs_nested
        (by decide +kernel) "/w" (by decide) none plan hplan (AbsolutePath.absolutizeFrom "/w/docs/notes/a" .root)
        (by decide +kernel)).mpr ?_⟩
      rintro ⟨d, ⟨before, w, after, horder, hnot, _⟩, _⟩
      have habove : ∀ v ∈ rootsInMountOrder oneNote (.restricted nestedEntries) "/w",
          (AbsolutePath.absolutizeFrom "/w/docs/notes/a" .root).StartsWith v.root := by decide +kernel
      refine hnot w mem_cons_self (habove w ?_)
      rw [horder]
      exact mem_append.mpr (Or.inr mem_cons_self)

def worktreeElsewhere : LinuxHost := hostWithFiles
  [(["wt", ".git"], "gitdir: /repo/bare/wt"), (["repo", "bare", "wt", "HEAD"], "x"),
    (["repo", "bare", "wt", "locked", "key"], "x")]

/-- The git directory of the root mounted last is mounted read-only over the other root and over its mask. -/
theorem late_gitdir_misplaced :
    let policy := FileSystemSandboxPolicy.restricted [⟨.special .root, .read⟩, pathEntry "/repo" .write,
      pathEntry "/wt" .write, pathEntry "/repo/bare/wt/locked" .none]
    let cwd := "/wt".toList
    let content (path : String) := (createFilesystemArgs worktreeElsewhere policy cwd none).toOption.map fun plan =>
      hostContent plan.options (AbsolutePath.absolutizeFrom path.toList .root)
    policy.hasFullDiskWriteAccess = false ∧ policy.includePlatformDefaults = false ∧
      (policy.canWritePathWithCwd worktreeElsewhere.toHost "/repo/bare/wt/HEAD".toList cwd = true ∧
        defaultReadOnlySubpathsForWritableRoot worktreeElsewhere.toHost
          (AbsolutePath.absolutizeFrom "/repo".toList .root) false = [] ∧
        content "/repo/bare/wt/HEAD" = some .readOnly) ∧
      policy.canReadPathWithCwd worktreeElsewhere.toHost "/repo/bare/wt/locked/key".toList cwd = false ∧
      content "/repo/bare/wt/locked/key" = some .readOnly :=
  ⟨by decide +kernel, by decide +kernel, ⟨by decide +kernel, by decide +kernel, by decide +kernel⟩, by decide +kernel,
    by decide +kernel⟩

end CodexStudy.Sandbox
