import CodexStudy.NewCore.Lemmas.Links

/-!
# Files that nobody touched

A task is created by one walk over the project, which skips the ignored directories, and refreshed by another one,
which skips `.git` only; in between the shell configuration is added.
-/

namespace CodexStudy.NewCore

open CodexStudy.Lib FileTree ChangedFile List Option

/-! ## The workspace of a new task -/

theorem copyProject_file? (t : Tree) (p : RelPath) :
    (copyProject t).file? p = if ignored p then none else t.file? p := by
  rw [copyProject, restrict_file?]
  cases ignored p <;> rfl

section

variable {τ : Type} [Root τ]

theorem materializeSharedPath_tree {root : AbsPath} {t : τ} {ws ws' : Workspace} {mount : SharedPathMount}
    (h : materializeSharedPath root t ws mount = .ok ws') : ws'.tree = ws.tree := by
  unfold materializeSharedPath at h
  split at h
  · cases h; rfl
  · split at h
    · cases h; rfl
    · split at h
      · split at h
        · cases h
        · split at h <;> cases h <;> rfl
      · cases h; rfl

theorem materializeSharedPaths_tree (root : AbsPath) (t : τ) (mounts : List SharedPathMount) (ws : Workspace) :
    (materializeSharedPaths root t ws mounts).1.tree = ws.tree := by
  induction mounts generalizing ws with
  | nil => rfl
  | cons mount mounts ih =>
      unfold materializeSharedPaths
      rcases h : materializeSharedPath root t ws mount with e | ws'
      · rfl
      · exact (ih ws').trans (materializeSharedPath_tree h)

end

def acceptsConfig (t : Tree) : Bool := t.passable [".codex"] && t.node? shellConfigPath ≠ some .dir

theorem writeShellEnvironmentConfig_file? (env : HostEnv) (ws : Workspace) (binding : EnvironmentBinding)
    (p : RelPath) :
    (writeShellEnvironmentConfig env ws binding).tree.file? p =
      if p = shellConfigPath ∧ acceptsConfig ws.tree = true then
        ((shellConfigBody env binding).map Content.text).or (ws.tree.file? p)
      else ws.tree.file? p := by
  unfold writeShellEnvironmentConfig
  split
  · rename_i hd
    have hpass : ws.tree.passable [".codex"] = false := by
      rw [Bool.eq_false_iff]
      intro hp
      have := createDirAll_isSome.mpr (passable_iff.mp hp)
      rw [hd] at this
      cases this
    simp [acceptsConfig, hpass]
  · rename_i tree hd
    have hpass : ws.tree.passable [".codex"] = true :=
      passable_iff.mpr (createDirAll_isSome.mp (by rw [hd]; rfl))
    have hnode : tree.node? shellConfigPath = ws.tree.node? shellConfigPath := by
      rw [createDirAll_node? hd, if_neg (by decide)]
    have hdir : tree.node? [".codex"] = some .dir := by
      rw [createDirAll_node? hd, if_pos (prefix_refl _)]
    have hfile := createDirAll_file? hd p
    rcases shellConfigBody env binding with _ | body
    · simpa [Workspace.withTree] using hfile
    · simp only [map_some, some_or]
      split
      · rename_i tree' hw
        have hwritable : tree.writable shellConfigPath := write_isSome.mp (by rw [hw]; rfl)
        have haccepts : acceptsConfig ws.tree = true := by
          simp only [acceptsConfig, hpass, Bool.true_and, decide_eq_true_eq]
          rw [← hnode]; exact hwritable.2.1
        change tree'.file? p = _
        rw [write_file? hw, hfile, haccepts]
        by_cases hp : p = shellConfigPath <;> simp [hp]
      · rename_i hw
        have href : acceptsConfig ws.tree = false := by
          rw [Bool.eq_false_iff]
          intro hacc
          simp only [acceptsConfig, hpass, Bool.true_and, decide_eq_true_eq] at hacc
          have : (tree.write shellConfigPath (.text body)).isSome = true :=
            write_isSome.mpr ⟨by decide, by rw [hnode]; exact hacc, hdir⟩
          rw [hw] at this
          cases this
        simpa [href, Workspace.withTree] using hfile

section

variable {τ : Type} [Root τ]

def generatedConfig (env : HostEnv) (project : ProjectRecord) (taskRoot : AbsPath) (now : Nat) (t : τ) :
    Option Text :=
  (detectEnvironmentBinding env t project (taskRoot ++ ["copy"]) now).bind fun binding =>
    match materializeSharedPaths project.rootPath t (.ofTree (copyProject (Root.walk t))) binding.sharedPaths with
    | (_, .error _) => none
    | (_, .ok ()) =>
      if (validateEnvironmentBinding env project.rootPath t binding now).isValid || !binding.detectedTools.isEmpty
      then if acceptsConfig (copyProject (Root.walk t)) then shellConfigBody env binding else none
      else none

theorem createTask_file? (env : HostEnv) (git : GitHost) (project : ProjectRecord) (taskId title : String)
    (taskRoot : AbsPath) (now : Nat) (t : τ) (locks : List Text) (hcopy : project.workspaceStrategy = .copy)
    (p : RelPath) :
    (createTask env git project taskId title taskRoot now t locks).workspaceTree.tree.file? p =
      if p = shellConfigPath then
        ((generatedConfig env project taskRoot now t).map Content.text).or
          (if ignored p then none else (Root.walk t).file? p)
      else if ignored p then none else (Root.walk t).file? p := by
  have hprep : prepareWorkspace git project taskId taskRoot t =
      { workspaceRoot := taskRoot ++ ["copy"], workspace := .ofTree (copyProject (Root.walk t)), strategy := .copy
        branchName := none, baseRevision := if project.gitRoot.isSome then git.headRevision else none } := by
    simp [prepareWorkspace, hcopy]
  have hcopied : (copyProject (Root.walk t)).file? p = if ignored p then none else (Root.walk t).file? p :=
    copyProject_file? (Root.walk t) p
  simp only [createTask, newTask, hprep, DiskOf.workspaceTree, getD_some, generatedConfig]
  rcases detectEnvironmentBinding env t project (taskRoot ++ ["copy"]) now with _ | binding
  · simpa [Workspace.ofTree] using hcopied
  · have htree := materializeSharedPaths_tree project.rootPath t binding.sharedPaths (.ofTree (copyProject (Root.walk t)))
    simp only [configureIsolatedWorkspaceEnvironment, bind_some]
    rcases hm : materializeSharedPaths project.rootPath t (.ofTree (copyProject (Root.walk t))) binding.sharedPaths with
      ⟨ws, e | _⟩
    · rw [hm] at htree
      change ws.tree = copyProject (Root.walk t) at htree
      simpa [htree] using hcopied
    · rw [hm] at htree
      change ws.tree = copyProject (Root.walk t) at htree
      simp only
      split
      · rw [writeShellEnvironmentConfig_file?, htree, hcopied]
        by_cases hp : p = shellConfigPath
        · cases hacc : acceptsConfig (copyProject (Root.walk t)) <;> simp [hp, shellConfigBody, shellConfigVars]
        · simp [hp]
      · simpa [htree] using hcopied

end

variable {σ : Setting} {d d' : Disk} {p : RelPath}

section

variable {τ : Type} [Root τ]

/-- The operations and the edits that do not change the file at `p` in either root. -/
def Spares (p : RelPath) (d : DiskOf τ) : ActionOn τ → Prop
  | .editOriginal root => (Root.walk root).file? p = (Root.walk d.original).file? p
  | .editWorkspace ws => ws.tree.file? p = d.workspaceTree.tree.file? p
  | .refresh _ _ | .merge _ _ _ | .rollback _ _ _ => True
  | _ => False

/-- After every run of a task in which nobody edits `p` and only plain paths are merged and rolled back, a refresh does
not list `p` and a merge of all changes keeps it. -/
def LeftAlone [LawfulRoot τ] (σ : Setting) (p : RelPath) (created : DiskOf τ) : Prop :=
  ∀ as d, Run (Guarded (fun d a => Spares p d a ∧ ChoosesPlain σ.host d a) (TaskStep σ)) created as d →
    (∀ io now m d', refreshChanges σ.host io now d = (.ok m, d') → p ∉ m.changedFiles.map path) ∧
      ∀ io now, ChoosesPlain σ.host d (.merge io now .all) →
        (Root.walk (merge σ.host io now .all d).2.original).file? p = (Root.walk d.original).file? p

/-- What a refresh sees at `p` in a copied workspace: nothing in `.git`, the generated shell configuration, nothing in
an ignored directory, and the file of the project elsewhere. -/
def seenInCopy (env : HostEnv) (project : ProjectRecord) (taskRoot : AbsPath) (now : Nat) (t : τ) (p : RelPath) :
    Option Content :=
  let copied := if ignored p then none else (Root.walk t).file? p
  if inGit (taskRoot ++ ["copy"]) p then none
  else if p = shellConfigPath then ((generatedConfig env project taskRoot now t).map Content.text).or copied
  else copied

def seenInProject (project : ProjectRecord) (t : τ) (p : RelPath) : Option Content :=
  if inGit project.rootPath p then none else (Root.walk t).file? p

end

/-! ## While the two walks agree -/

structure Unlisted (σ : Setting) (wsRoot : AbsPath) (p : RelPath) (c w : Option Content) (d : Disk) : Prop where
  manifest : ∀ m, d.manifest = some m → m.originalRoot = σ.project.rootPath ∧ m.workspaceRoot = wsRoot ∧
    p ∉ m.changedFiles.map path
  original : d.original.file? p = c
  workspace : d.workspaceTree.tree.file? p = w

section

variable {wsRoot : AbsPath} {c w : Option Content}

theorem Unlisted.refreshed (h : Unlisted σ wsRoot p c w d)
    (hseen : hashText σ.host.sha256 (if inGit σ.project.rootPath p then none else c) =
      hashText σ.host.sha256 (if inGit wsRoot p then none else w))
    {m : TaskManifest} (hm : d.manifest = some m) (now : Nat) :
    p ∉ (refreshedManifest σ.host now d.original d.workspaceTree m).changedFiles.map path := by
  obtain ⟨hroot, hws, hnew⟩ := h.manifest m hm
  rw [List.mem_map]
  rintro ⟨e, he, rfl⟩
  obtain ⟨hne, hb, ha, -⟩ := refreshed_entry he
  rcases recordedHash_cases σ.host d.original m e.path with ⟨e₀, he₀, hpath, -⟩ | ⟨-, hrec⟩
  · exact hnew (List.mem_map.mpr ⟨e₀, he₀, hpath⟩)
  · rw [hb, ha, hrec, workspaceHash, indexed, indexed, hroot, hws, h.original, h.workspace] at hne
    exact hne hseen

theorem Unlisted.of_manifest (h : Unlisted σ wsRoot p c w d) (ho : d'.original.file? p = d.original.file? p)
    (hw : d'.workspace = d.workspace)
    (hm : ∀ m', d'.manifest = some m' → m'.originalRoot = σ.project.rootPath ∧ m'.workspaceRoot = wsRoot ∧
      p ∉ m'.changedFiles.map path) : Unlisted σ wsRoot p c w d' where
  manifest := hm
  original := ho.trans h.original
  workspace := by rw [DiskOf.workspaceTree, hw]; exact h.workspace

theorem Unlisted.step {a : Action} (h : Unlisted σ wsRoot p c w d)
    (hseen : hashText σ.host.sha256 (if inGit σ.project.rootPath p then none else c) =
      hashText σ.host.sha256 (if inGit wsRoot p then none else w))
    (hgd : Spares p d a) (hstep : TaskStep σ d a d') : Unlisted σ wsRoot p c w d' := by
  -- A manifest of the paths that were listed or are listed by a refresh does not list `p`.
  have hsame : ∀ m m', d.manifest = some m →
      SamePaths m m' ∨ (∃ now, SamePaths (refreshedManifest σ.host now d.original d.workspaceTree m) m') →
      m'.originalRoot = σ.project.rootPath ∧ m'.workspaceRoot = wsRoot ∧
        p ∉ m'.changedFiles.map path := by
    rintro m m' hm (hp | ⟨now, hp⟩)
    · obtain ⟨hroot, hws, hnew⟩ := h.manifest m hm
      exact ⟨hp.originalRoot.trans hroot, hp.workspaceRoot.trans hws, by rw [hp.paths]; exact hnew⟩
    · obtain ⟨hroot, hws, -⟩ := h.manifest m hm
      exact ⟨hp.originalRoot.trans hroot, hp.workspaceRoot.trans hws, by rw [hp.paths]; exact h.refreshed hseen hm now⟩
  subst hstep
  cases a with
  | editOriginal tree => exact ⟨h.manifest, hgd.trans h.original, h.workspace⟩
  | editWorkspace ws => exact ⟨h.manifest, h.original, hgd.trans h.workspace⟩
  | refresh io now =>
      obtain ⟨hfs, hman, -, -⟩ :=
        Eff.post_iff.mp (refreshChanges_spec σ.host io now d) _ (refreshChanges σ.host io now d).2 rfl
      refine h.of_manifest (congrArg (file? · p) hfs.original) hfs.workspace fun m' hm' => ?_
      change (refreshChanges σ.host io now d).2.manifest = some m' at hm'
      rcases hman with heq | heq | ⟨m, hm, -, heq⟩
      · exact h.manifest m' (heq ▸ hm')
      · rw [heq] at hm'; cases hm'
      · cases heq.symm.trans hm'
        exact hsame m _ hm (.inr ⟨now, rfl, rfl, rfl⟩)
  | merge io now selection =>
      obtain ⟨hws, hcases⟩ :=
        Eff.post_iff.mp (merge_spec σ.host io now selection d) _ (merge σ.host io now selection d).2 rfl
      refine h.of_manifest ?_ hws fun m' hm' => ?_
      · rcases hcases with ⟨hkept, -⟩ | ⟨m, hm, -, hframe⟩
        · exact congrArg (file? · p) hkept
        · refine hframe p fun e he hep => h.refreshed hseen hm now ?_
          exact mem_map.mpr ⟨e, mem_of_mem_filter he, hep⟩
      · obtain ⟨m, hm, hp | hp⟩ := merge_manifest hm'
        · exact hsame m m' hm (.inl hp)
        · exact hsame m m' hm (.inr ⟨now, hp⟩)
  | rollback io now selection =>
      obtain ⟨hws, hcases⟩ :=
        Eff.post_iff.mp (rollback_spec σ.host io now selection d) _ (rollback σ.host io now selection d).2 rfl
      rcases hcases with ⟨hkept, hman⟩ | ⟨m, hm, hlists, hframe⟩
      · exact h.of_manifest (congrArg (file? · p) hkept) hws fun m' hm' =>
          h.manifest m' (hman ▸ hm')
      · refine h.of_manifest (hframe p fun e he hep => ?_) hws fun m' hm' => ?_
        · exact (h.manifest m hm).2.2 (mem_map.mpr ⟨e, he, hep⟩)
        · exact hsame m m' hm (.inl (hlists m' hm'))
  | runTest io now command | review io now | summarize io now | resume io now | archive io now taskId =>
      exact hgd.elim

theorem Unlisted.run {τ : Type} [Root τ] [LawfulRoot τ] {d d' : DiskOf τ} {as : List (ActionOn τ)}
    (h : Unlisted σ wsRoot p c w d.walked)
    (hseen : hashText σ.host.sha256 (if inGit σ.project.rootPath p then none else c) =
      hashText σ.host.sha256 (if inGit wsRoot p then none else w))
    (hrun : Run (Guarded (fun d a => Spares p d a ∧ ChoosesPlain σ.host d a) (TaskStep σ)) d as d') :
    Unlisted σ wsRoot p c w d'.walked := by
  refine hrun.invariant (I := fun d => Unlisted σ wsRoot p c w d.walked) h fun d a d' hs ⟨⟨hgd, hplain⟩, hstep⟩ => ?_
  subst hstep
  cases a with
  | editOriginal root => exact hs.step (a := .editOriginal (Root.walk root)) hseen hgd rfl
  | editWorkspace ws => exact hs.step (a := .editWorkspace ws) hseen hgd rfl
  | refresh io now =>
      exact hs.step (a := .refresh io now) hseen trivial (congrArg Prod.snd (walked_refreshChanges ..).symm)
  | merge io now selection =>
      exact hs.step (a := .merge io now selection) hseen trivial (congrArg Prod.snd (walked_merge hplain).symm)
  | rollback io now selection =>
      exact hs.step (a := .rollback io now selection) hseen trivial (congrArg Prod.snd (walked_rollback hplain).symm)
  | runTest io now command | review io now | summarize io now | resume io now | archive io now taskId =>
      exact hgd.elim

theorem Unlisted.leftAlone {τ : Type} [Root τ] [LawfulRoot τ] {d : DiskOf τ} (h : Unlisted σ wsRoot p c w d.walked)
    (hseen : hashText σ.host.sha256 (if inGit σ.project.rootPath p then none else c) =
      hashText σ.host.sha256 (if inGit wsRoot p then none else w)) : LeftAlone σ p d := by
  intro as d₁ hrun
  have h₁ : Unlisted σ wsRoot p c w d₁.walked := h.run hseen hrun
  constructor
  · intro io now m' d' hrfr
    have hwalked := walked_refreshChanges σ.host io now d₁
    rw [hrfr] at hwalked
    obtain ⟨-, -, m, hm, rfl⟩ :=
      (Eff.post_iff.mp (refreshChanges_spec σ.host io now d₁.walked) _ _ hwalked).returns m' rfl
    exact h₁.refreshed hseen hm now
  · intro io now hplain
    have h₂ := h₁.step (a := .merge io now .all) hseen trivial (congrArg Prod.snd (walked_merge hplain).symm)
    exact h₂.original.trans h₁.original.symm

end

/-! ## Where the two walks differ -/

theorem refreshed_lists_seen {τ : Type} [Root τ] {d : DiskOf τ} {m : TaskManifest} (hm : d.manifest = some m)
    (hws : d.workspace.isSome = true) (hemp : m.changedFiles = [])
    (hne : hashText σ.host.sha256 (indexed m.originalRoot (Root.walk d.original) p) ≠
      hashText σ.host.sha256 (indexed m.workspaceRoot d.workspaceTree.tree p)) :
    ∃ m' d', refreshChanges σ.host .healthy 0 d = (.ok m', d') ∧ p ∈ m'.changedFiles.map path := by
  have hwalked := walked_refreshChanges σ.host .healthy 0 d
  have hok := refreshChanges_ok (d := d.walked) σ.host 0 (fun pt _ => show IoPlan.healthy pt = none from rfl) hm hws
  rw [hok] at hwalked
  refine ⟨_, _, Prod.ext (congrArg Prod.fst hwalked).symm rfl, ?_⟩
  have hrec : recordedHash σ.host (Root.walk d.original) m p =
      hashText σ.host.sha256 (indexed m.originalRoot (Root.walk d.original) p) := by
    rcases recordedHash_cases σ.host (Root.walk d.original) m p with ⟨e, he, -⟩ | ⟨-, hrec⟩
    · rw [hemp] at he; cases he
    · exact hrec
  refine (refreshed_lists ?_).mpr (by rw [show d.walked.original = Root.walk d.original from rfl, hrec]; exact hne)
  by_contra hno
  simp only [not_or, not_isSome_iff_eq_none] at hno
  rw [show indexed m.originalRoot (Root.walk d.original) p = none from hno.1,
    show indexed m.workspaceRoot d.workspaceTree.tree p = none from hno.2] at hne
  exact hne rfl

/-- A path is left alone by every run of a task that spares it exactly when the walk of a refresh sees in the
copied workspace what it sees in the project. -/
theorem leftAlone_iff_seen_alike {τ : Type} [Root τ] [LawfulRoot τ] (σ : Setting) (taskId title : String)
    (taskRoot : AbsPath) (now : Nat) (t : τ) (locks : List Text) (p : RelPath)
    (hcopy : σ.project.workspaceStrategy = .copy)
    (hsha : Set.InjOn σ.host.sha256 {x | seenInProject σ.project t p = some x ∨
      seenInCopy σ.env σ.project taskRoot now t p = some x}) :
    LeftAlone σ p (createTask σ.env σ.git σ.project taskId title taskRoot now t locks) ↔
      seenInProject σ.project t p = seenInCopy σ.env σ.project taskRoot now t p := by
  have hfile := createTask_file? σ.env σ.git σ.project taskId title taskRoot now t locks hcopy p
  generalize hd : createTask σ.env σ.git σ.project taskId title taskRoot now t locks = d at hfile ⊢
  have hm : ∃ m, d.manifest = some m ∧ m.originalRoot = σ.project.rootPath ∧
      m.workspaceRoot = taskRoot ++ ["copy"] ∧ m.changedFiles = [] := by
    rw [← hd]; exact ⟨_, rfl, rfl, by simp [newTask, prepareWorkspace, hcopy], rfl⟩
  have ho : (Root.walk d.original).file? p = (Root.walk t).file? p := by rw [← hd]; rfl
  have hws : d.workspace.isSome = true := by rw [← hd]; rfl
  obtain ⟨m, hm, hroot, hwsRoot, hemp⟩ := hm
  have hseenW : (if inGit (taskRoot ++ ["copy"]) p then none else d.workspaceTree.tree.file? p) =
      seenInCopy σ.env σ.project taskRoot now t p := by
    rw [hfile]; rfl
  constructor
  · intro hleft
    by_contra hne
    have hlist := refreshed_lists_seen (σ := σ) (p := p) hm hws hemp (by
      rw [hroot, hwsRoot, indexed, indexed, ho, hseenW]
      exact fun heq => hne (hashText_inj hsha (fun x hx => .inl hx) (fun x hx => .inr hx) heq))
    obtain ⟨m', d', hrfr, hp⟩ := hlist
    exact (hleft [] d (.nil d)).1 .healthy 0 m' d' hrfr hp
  · intro hseen
    have h : Unlisted σ (taskRoot ++ ["copy"]) p ((Root.walk t).file? p) (d.workspaceTree.tree.file? p) d.walked := by
      refine ⟨fun m' hm' => ?_, ho, rfl⟩
      cases hm.symm.trans hm'
      exact ⟨hroot, hwsRoot, by rw [hemp]; simp⟩
    refine h.leftAlone ?_
    rw [hseenW, ← hseen]
    rfl

/-! ## A source file and a file in an ignored directory -/

def sampleBuilt : Tree := sampleTree [(["a.txt"], "base"), (["build", "b.txt"], "mine")]

theorem leftAlone_sample_source :
    sampleSetting.project.workspaceStrategy = .copy ∧ LeftAlone sampleSetting ["a.txt"] (sampleTask sampleBuilt) := by
  refine ⟨rfl, ?_⟩
  refine (leftAlone_iff_seen_alike sampleSetting sampleTaskId "task" ["state", "workspaces", "p", "1"] 0 sampleBuilt []
    ["a.txt"]
    rfl ?_).mpr (by decide +kernel)
  have hp : seenInProject sampleSetting.project sampleBuilt ["a.txt"] = some (.text "base") := by
    decide +kernel
  have hc : seenInCopy sampleEnv sampleSetting.project ["state", "workspaces", "p", "1"] 0 sampleBuilt ["a.txt"] =
      some (.text "base") := by decide +kernel
  rintro x (hx | hx) y (hy | hy) - <;> simp_all [sampleSetting]

/-- The first refresh of an untouched task lists an ignored file as deleted, and a merge of all changes removes it. -/
theorem merge_removes_ignored_file : ¬ LeftAlone sampleSetting ["build", "b.txt"] (sampleTask sampleBuilt) ∧
      sampleBuilt.file? ["build", "b.txt"] = some (.text "mine") ∧
      (merge sampleHost .healthy 0 .all (sampleTask sampleBuilt)).2.original.file? ["build", "b.txt"] = none := by
  refine ⟨fun hleft => ?_, by decide +kernel, by decide +kernel⟩
  have h := (hleft [] _ (.nil _)).2 .healthy 0 fun m _ c _ => ⟨trivial, fun _ _ => trivial⟩
  revert h
  decide +kernel

end CodexStudy.NewCore
