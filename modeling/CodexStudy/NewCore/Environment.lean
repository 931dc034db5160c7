import CodexStudy.NewCore.Models

/-!
# The environment of a workspace and its creation (`environment.rs`, `workspace.rs`)

The tools of a project are looked up in its root; the workspace gets links to the directories that hold
them and a `.codex/config.toml` for the shell.
-/

namespace CodexStudy.NewCore

open CodexStudy.Lib Function Root

/-! ## Files of the two roots and their snapshots (`fsx.rs`) -/

def DEFAULT_IGNORES : List String :=
  [".git", ".venv", "venv", "node_modules", "target", "dist", "build", ".next", ".turbo", ".cache"]

def hashText (sha256 : Content → Text) (c : Option Content) : Option Text :=
  c.map fun c => "sha256:" ++ sha256 c

section

variable {τ : Type} [Root τ]

def fileHash (sha256 : Content → Text) (pt : IoPoint) (t : τ) (path : RelPath) : Except CodexNewError (Option Text) :=
  match lstat? t path with
  | some c => .ok (hashText sha256 c)
  | none => .error (.io pt)

end

def ignored (p : RelPath) : Bool := p.any fun name => DEFAULT_IGNORES.contains name

theorem ignored_append_singleton (p : RelPath) (n : String) (h : (!ignored (p ++ [n])) = true) :
    (!ignored p) = true := by
  simp only [ignored, List.any_append, Bool.not_or, Bool.and_eq_true] at h ⊢
  exact h.1

/-- `copy_project` into an empty directory: the directories and regular files whose path is not ignored. -/
def copyProject (source : Tree) : Tree := source.restrict (fun p => !ignored p) ignored_append_singleton

def copyProjectOver (source destination : Tree) : Option Tree := (copyProject source).overlay destination

def checkedJoin (path : RelPath) : Except CodexNewError RelPath :=
  if path.contains ".." then .error (.pathOutsideProject path) else .ok path

def encodePath (path : RelPath) : Text :=
  path.render.flatMap fun c => if c = '\\' ∨ c = '/' then ['_', '_'] else [c]

/-! ## Looking into the workspace -/

namespace Workspace

/-- Where a path of the workspace leads: into its own tree, or through a link into the original root. -/
def resolve (ws : Workspace) (p : RelPath) : RelPath ⊕ RelPath :=
  match p with
  | [] => .inl []
  | name :: rest =>
    match ws.links.lookup name with
    | some target => .inr (target ++ rest)
    | none => .inl p

def read {τ : Type} [Root τ] (ws : Workspace) (original : τ) (p : RelPath) : Option Content :=
  match ws.resolve p with
  | .inl q => ws.tree.file? q
  | .inr q => file? original q

/-- Something stands at the path, links followed. -/
def present {τ : Type} [Root τ] (ws : Workspace) (original : τ) (p : RelPath) : Bool :=
  match ws.resolve p with
  | .inl q => ws.tree.present q
  | .inr q => Root.present original q

end Workspace

/-! ## Writing to the original root -/

section

variable {τ : Type} [Root τ]

def orIo (pt : IoPoint) : Option τ → Except CodexNewError τ
  | some t => .ok t
  | none => .error (.io pt)

def removeIfPresent (pt : IoPoint) (t : τ) (path : RelPath) : Except CodexNewError τ :=
  if present t path then orIo pt (removeFile t path) else .ok t

/-- `fs::copy` of a workspace file to the same path of the original root. A file that is copied onto
itself through a link is truncated before it is read. -/
def copiedContent (ws : Workspace) (path : RelPath) (c : Content) : Content :=
  if ws.resolve path = .inr path then Content.empty else c

def copyFileOrRemove (pt : IoPoint) (ws : Workspace) (original : τ) (path : RelPath) : Except CodexNewError τ := do
  let path ← checkedJoin path
  match ws.read original path with
  | some c => orIo pt (writeAll original path (copiedContent ws path c))
  | none => removeIfPresent pt original path

/-! ## Snapshots -/

namespace SnapshotDir

def snapshotFile (d : SnapshotDir) (path : RelPath) (source : Option Content) : SnapshotDir where
  blob := update d.blob (encodePath path) source
  missing := update d.missing (encodePath path) source.isNone

/-- `restore_snapshot`: put the saved content back, or remove what stands where there was no file. -/
def restoreSnapshot (d : SnapshotDir) (pt : IoPoint) (destination : τ) (path : RelPath) :
    Except CodexNewError τ := do
  let path ← checkedJoin path
  if d.missing (encodePath path) then removeIfPresent pt destination path
  else
    match d.blob (encodePath path) with
    | some c => orIo pt (writeAll destination path c)
    | none => removeIfPresent pt destination path

end SnapshotDir

end

/-! ## Paths as they are written -/

def pathNames (path : Text) : RelPath :=
  ((path.splitOn '/').filter fun name => name ≠ [] ∧ name ≠ ['.']).map String.ofList

def checkedJoinText (path : Text) : Except CodexNewError RelPath :=
  if path.head? = some '/' then .error (.pathOutsideProject (pathNames path)) else checkedJoin (pathNames path)

def encodePathText (path : Text) : Text := path.flatMap fun c => if c = '\\' ∨ c = '/' then ['_', '_'] else [c]

namespace SnapshotDir

def snapshotFileText (d : SnapshotDir) (source : Tree) (path : Text) : Except CodexNewError SnapshotDir := do
  let names ← checkedJoinText path
  return { blob := update d.blob (encodePathText path) (source.file? names)
           missing := update d.missing (encodePathText path) (source.file? names).isNone }

def restoreSnapshotText (d : SnapshotDir) (pt : IoPoint) (destination : Tree) (path : Text) :
    Except CodexNewError Tree := do
  let names ← checkedJoinText path
  if d.missing (encodePathText path) then removeIfPresent pt destination names
  else
    match d.blob (encodePathText path) with
    | some c => orIo pt (destination.writeAll names c)
    | none => removeIfPresent pt destination names

end SnapshotDir

/-- What is read from outside: the variables of the process, the files outside the project, and `toml::to_string` of the
policy that inherits `core` and sets the given variables. -/
structure HostEnv where
  pathEntries : Option (List AbsPath)
  pathText : Text
  cargoHome : Option Text
  rustupHome : Option Text
  fileExists : AbsPath → Bool
  tomlToString : EnvVars → Option Text

structure EnvironmentCandidate where
  environmentRoot : AbsPath
  envVars : EnvVars
  pathEntries : List AbsPath
  sharedPaths : List SharedPathMount
  detectedTools : List DetectedTool
  score : Nat
  notes : List Text

section

variable {τ : Type} [Root τ] (env : HostEnv) (root : AbsPath) (original : τ)

/-- Something stands at an absolute path, in the project or outside of it. -/
def pathExists (p : AbsPath) : Bool :=
  if root <+: p then present original (p.drop root.length) else env.fileExists p

def pathIsDir (p : AbsPath) : Bool := root <+: p && isDir original (p.drop root.length)

def findOnPath (tool : String) : Option AbsPath :=
  ((env.pathEntries.getD []).map fun entry => entry ++ [tool]).find? (pathExists env root original)

def findTools (ecosystem : String) (tools : List String) : List DetectedTool :=
  tools.filterMap fun tool => (findOnPath env root original tool).map fun executable =>
    { ecosystem, name := tool, executable }

/-! ## Detection -/

def detectPython : Option EnvironmentCandidate := do
  let name ← [".venv", "venv"].find? fun name => present original [name]
  let venv := root ++ [name]
  let binDir := venv ++ ["bin"]
  return {
    environmentRoot := root
    envVars := (∅ : EnvVars).insert "VIRTUAL_ENV" venv.render
    pathEntries := [binDir]
    sharedPaths := [{ kind := .virtualEnv, source := venv, targetHint := some binDir, readOnly := true }]
    detectedTools := [{ ecosystem := "python", name := "python", executable := binDir ++ ["python"] }]
    score := 100
    notes := ["Detected project virtual environment."] }

def detectNode : Option EnvironmentCandidate :=
  if present original ["package.json"] then
    let binDir := root ++ ["node_modules", ".bin"]
    let local? := present original ["node_modules", ".bin"]
    some {
      environmentRoot := root
      envVars := ∅
      pathEntries := if local? then [binDir] else []
      sharedPaths := if local? then
          [{ kind := .nodeModules, source := root ++ ["node_modules"], targetHint := some binDir, readOnly := true }]
        else []
      detectedTools := findTools env root original "node" ["node", "npm", "pnpm", "yarn", "bun"]
      score := if local? then 100 else 20
      notes := "Detected Node project metadata." ::
        if local? then ["Detected project-local node_modules/.bin."] else [] }
  else none

def detectRust : Option EnvironmentCandidate :=
  if present original ["Cargo.toml"] then
    let withHome (name : String) (home : Option Text) (vars : EnvVars) : EnvVars :=
      match home with
      | some value => vars.insert name.toList value
      | none => vars
    some {
      environmentRoot := root
      envVars := withHome "RUSTUP_HOME" env.rustupHome (withHome "CARGO_HOME" env.cargoHome ∅)
      pathEntries := []
      sharedPaths := []
      detectedTools := findTools env root original "rust" ["cargo", "rustc", "rustup"]
      score := 60
      notes := ["Detected Rust project metadata."] }
  else none

def detectJava : Option EnvironmentCandidate :=
  if present original ["gradlew"] || present original ["mvnw"] || present original ["pom.xml"] then
    some {
      environmentRoot := root
      envVars := ∅
      pathEntries := []
      sharedPaths := (["gradlew", "mvnw"].filter fun name => present original [name]).map fun name =>
        { kind := .wrapper, source := root ++ [name], targetHint := none, readOnly := true }
      detectedTools := findTools env root original "java" ["java", "javac"]
      score := 40
      notes := ["Detected Java wrapper or build metadata."] }
  else none

def discoverEnvironmentCandidates : List EnvironmentCandidate :=
  (detectPython root original).toList ++ (detectNode env root original).toList ++
    (detectRust env root original).toList ++ (detectJava env root original).toList ++
    [{ environmentRoot := root
       envVars := ∅
       pathEntries := env.pathEntries.getD []
       sharedPaths := []
       detectedTools := []
       score := 1
       notes := ["Using inherited shell environment."] }]

def bestCandidate : List EnvironmentCandidate → Option EnvironmentCandidate
  | [] => none
  | c :: cs => some (cs.foldl (fun best c => if best.score ≤ c.score then c else best) c)

def detectEnvironmentBinding (project : ProjectRecord) (workspaceRoot : AbsPath) (now : Nat) :
    Option EnvironmentBinding :=
  (bestCandidate (discoverEnvironmentCandidates env project.rootPath original)).map fun candidate =>
    { projectId := project.id
      workspaceRoot
      environmentRoot := candidate.environmentRoot
      detectedAt := now
      envVars := candidate.envVars
      pathEntries := candidate.pathEntries
      sharedPaths := candidate.sharedPaths
      detectedTools := candidate.detectedTools
      validation := { isValid := true, checkedAt := now, notes := candidate.notes } }

def validateEnvironmentBinding (binding : EnvironmentBinding) (now : Nat) : EnvironmentValidation :=
  let missingPaths := binding.sharedPaths.filter fun mount => !pathExists env root original mount.source
  let missingTools := binding.detectedTools.filter fun tool => !pathExists env root original tool.executable
  { isValid := missingPaths.isEmpty && missingTools.isEmpty
    checkedAt := now
    notes := (missingPaths.map fun mount => "Missing shared path: ".toList ++ mount.source.render) ++
      (missingTools.map fun tool =>
        "Missing tool ".toList ++ tool.name.toList ++ ": ".toList ++ tool.executable.render) ++
      (if binding.detectedTools = [] then
        ["No project-local venv/node tools detected; shell uses .codex/config.toml plus system PATH.".toList]
       else []) }

/-! ## Configuring a workspace -/

def linkName : SharedPathKind → Option String
  | .virtualEnv => some ".venv"
  | .nodeModules => some "node_modules"
  | .toolchain | .cache | .wrapper | .other => none

omit env in
theorem linkName_mem {kind : SharedPathKind} {name : String} (h : linkName kind = some name) : name ∈ linkNames := by
  cases kind <;> simp_all [linkName, linkNames]

def Workspace.addLink (ws : Workspace) (name : String) (target : RelPath) (hname : name ∈ linkNames)
    (hfree : ws.tree.node? [name] = none) : Workspace where
  tree := ws.tree
  links := (name, target) :: ws.links
  linked := by
    intro n hn
    rw [List.lookup_cons] at hn
    split at hn
    · rename_i heq; rw [beq_iff_eq] at heq; rw [heq]; exact hname
    · exact ws.linked n hn
  disjoint := by
    intro n hn
    rw [List.lookup_cons] at hn
    split at hn
    · rename_i heq; rw [beq_iff_eq] at heq; rw [heq]; exact hfree
    · exact ws.disjoint n hn

def materializeSharedPath (ws : Workspace) (mount : SharedPathMount) : Except CodexNewError Workspace :=
  match hk : linkName mount.kind with
  | none => .ok ws
  | some name =>
    if ws.present original [name] then .ok ws
    else if pathIsDir root original mount.source then
      if (ws.links.lookup name).isSome then .error (.other "File exists")
      else if hfree : ws.tree.node? [name] = none then
        .ok (ws.addLink name (mount.source.drop root.length) (linkName_mem hk) hfree)
      else .ok ws
    else .ok ws

def materializeSharedPaths (ws : Workspace) : List SharedPathMount → Workspace × Except CodexNewError Unit
  | [] => (ws, .ok ())
  | mount :: mounts =>
    match materializeSharedPath root original ws mount with
    | .ok ws => materializeSharedPaths ws mounts
    | .error e => (ws, .error e)

end

def shellConfigPath : RelPath := [".codex", "config.toml"]

def shellConfigVars (env : HostEnv) (binding : EnvironmentBinding) : EnvVars :=
  if binding.pathEntries = [] then binding.envVars
  else
    let pathPrefix := Text.join [':'] (binding.pathEntries.map AbsPath.render)
    let fullPath :=
      if env.pathText = [] then pathPrefix
      else if pathPrefix = [] then env.pathText
      else pathPrefix ++ ':' :: env.pathText
    binding.envVars.insert "PATH" fullPath

def shellConfigBody (env : HostEnv) (binding : EnvironmentBinding) : Option Text :=
  (env.tomlToString (shellConfigVars env binding)).map fun body =>
    "# Generated by CodexStudy security mode.\n" ++
      "# Shell commands in this isolated workspace inherit the linked project environment.\n" ++ body

def Workspace.withTree (ws : Workspace) (tree : Tree)
    (h : ∀ name ∈ linkNames, tree.node? [name] = ws.tree.node? [name]) : Workspace where
  tree
  links := ws.links
  linked := ws.linked
  disjoint name hn := (h name (ws.linked name hn)).trans (ws.disjoint name hn)

theorem node?_linkName_of_createDirAll {t t' : Tree} (h : t.createDirAll [".codex"] = some t') :
    ∀ name ∈ linkNames, t'.node? [name] = t.node? [name] := by
  intro name hname
  rw [FileTree.createDirAll_node? h, if_neg]
  rintro ⟨rest, hrest⟩
  simp only [List.cons_append, List.cons.injEq] at hrest
  simp [linkNames, hrest.1] at hname

theorem node?_linkName_of_write {t t' : Tree} {c : Content} (h : t.write shellConfigPath c = some t') :
    ∀ name ∈ linkNames, t'.node? [name] = t.node? [name] := by
  intro name _
  rw [FileTree.write_node? h, if_neg (by simp [shellConfigPath])]

/-- `write_shell_environment_config`: the caller ignores its failure, so what was done until then remains. -/
def writeShellEnvironmentConfig (env : HostEnv) (ws : Workspace) (binding : EnvironmentBinding) : Workspace :=
  match hd : ws.tree.createDirAll [".codex"] with
  | none => ws
  | some tree =>
    let ws₁ := ws.withTree tree (node?_linkName_of_createDirAll hd)
    match shellConfigBody env binding with
    | none => ws₁
    | some body =>
      match hw : tree.write shellConfigPath (.text body) with
      | some tree' => ws₁.withTree tree' (node?_linkName_of_write hw)
      | none => ws₁

section

variable {τ : Type} [Root τ]

variable (env : HostEnv) (git : GitHost) (project : ProjectRecord)

def configureIsolatedWorkspaceEnvironment (root : AbsPath) (original : τ) (now : Nat)
    (ws : Workspace) (binding : EnvironmentBinding) : Workspace × EnvironmentBinding :=
  match materializeSharedPaths root original ws binding.sharedPaths with
  | (ws, .error _) => (ws, binding)
  | (ws, .ok ()) =>
    let binding := { binding with validation := validateEnvironmentBinding env root original binding now }
    if binding.validation.isValid || !binding.detectedTools.isEmpty then
      (writeShellEnvironmentConfig env ws binding, binding)
    else (ws, binding)

/-! ## Preparing a workspace and creating a task -/

/-- What `git` answers: whether there are uncommitted changes, the head revision, the worktree for a branch, whether
worktrees are pruned, and the worktree it creates then. -/
structure GitHost where
  hasChanges : Bool
  headRevision : Option String
  createWorktree : Text → Option Workspace
  pruneWorktrees : Bool
  recreateWorktree : Text → Option Workspace

structure PreparedWorkspace where
  workspaceRoot : AbsPath
  workspace : Workspace
  strategy : WorkspaceStrategy
  branchName : Option Text
  baseRevision : Option String

def prepareWorkspace (taskId : String) (taskRoot : AbsPath)
    (original : τ) : PreparedWorkspace :=
  let useWorktree := match project.workspaceStrategy with
    | .worktree => true
    | .copy => false
    | .auto => project.gitRoot.isSome && !git.hasChanges
  let shortTaskId := taskId.toList.take 8
  let branch := "codex-new/task/" ++ shortTaskId
  let copied : PreparedWorkspace :=
    { workspaceRoot := taskRoot ++ ["copy"]
      workspace := .ofTree (copyProject (walk original))
      strategy := .copy
      branchName := none
      baseRevision := if project.gitRoot.isSome then git.headRevision else none }
  let worktree (branch : Text) (ws : Workspace) : PreparedWorkspace :=
    { workspaceRoot := taskRoot ++ ["worktree"], workspace := ws, strategy := .worktree,
      branchName := some branch, baseRevision := git.headRevision }
  if useWorktree && project.gitRoot.isSome then
    match git.createWorktree branch with
    | some ws => worktree branch ws
    | none =>
      let uniqueBranch := branch ++ '-' :: shortTaskId
      match git.recreateWorktree uniqueBranch with
      | some ws => worktree uniqueBranch ws
      | none => copied
  else copied

structure NewTask where
  workspace : Workspace
  manifest : TaskManifest
  record : TaskRecord

def newTask (taskId title : String)
    (taskRoot : AbsPath) (now : Nat) (original : τ) : NewTask :=
  let prepared := prepareWorkspace git project taskId taskRoot original
  let configured := match detectEnvironmentBinding env original project prepared.workspaceRoot now with
    | some binding =>
        let c := configureIsolatedWorkspaceEnvironment env project.rootPath original now prepared.workspace binding
        (c.1, some c.2)
    | none => (prepared.workspace, none)
  { workspace := configured.1
    manifest :=
      { taskId, projectId := project.id, originalRoot := project.rootPath
        workspaceRoot := prepared.workspaceRoot, createdAt := now, updatedAt := now
        status := .workspaceReady, baseRevision := prepared.baseRevision
        environmentBinding := configured.2, changedFiles := [] }
    record :=
      { id := taskId, projectId := project.id, title, status := .workspaceReady
        originalRoot := project.rootPath, workspaceRoot := prepared.workspaceRoot
        createdAt := now, updatedAt := now, completedAt := none } }

def createTask (taskId title : String)
    (taskRoot : AbsPath) (now : Nat) (original : τ) (locks : List Text) : DiskOf τ :=
  let task := newTask env git project taskId title taskRoot now original
  { original
    workspace := some task.workspace
    manifest := some task.manifest
    record := some task.record
    before := .empty
    afterMerge := .empty
    locks }

end

end CodexStudy.NewCore
