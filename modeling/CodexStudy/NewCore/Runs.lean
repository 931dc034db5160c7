import CodexStudy.NewCore.Engine
import CodexStudy.Lib.Transition

/-!
# Runs of a task

A task lives on while the user edits the project, the agent edits the workspace, and the operations of
`CodexNewCore` are called in any order, each of them with the failures that the operating system has in
store for it.
-/

namespace CodexStudy.NewCore

open CodexStudy.Lib Eff

/-!
## The other operations on a task (`engine.rs`, `recovery.rs`, `review.rs`)

Each of them writes the status of the task; the artefacts they write besides (logs, reports, summaries) are not read
by any other operation and are left out.
-/

/-! ## Testing -/

structure TestCommand where
  run : Workspace → Workspace
  succeeds : Bool

section

variable {τ : Type}

def runTestCommandRequest (io : IoPlan) (now : Nat) (command : TestCommand) : OpOn τ TaskStatus := do
  let _ ← readManifest
  io.attempt .testDir
  io.attempt .testStarted
  writeTaskStatus io .testRunning now .testingRunning
  io.attempt .command
  modify fun d => { d with workspace := d.workspace.map command.run }
  io.attempt .testOutcome
  let status : TaskStatus := if command.succeeds then .testingPassed else .testingFailed
  writeTaskStatus io .testStatus now status
  io.attempt .testCompleted
  return status

/-! ## Reviewing -/

inductive ReviewDisposition where
  | informational | needsUserApproval | blocked

structure MergePolicy where
  requireTestPass : Bool
  sensitiveFilePatterns : List Text
  maxAutoMergeFiles : Nat
  allowLockfileMergeWithoutReason : Bool

def MergePolicy.default : MergePolicy where
  requireTestPass := false
  sensitiveFilePatterns := [".env", ".env.local", ".env.production"]
  maxAutoMergeFiles := 25
  allowLockfileMergeWithoutReason := false

def mergePolicyForProject (project : ProjectRecord) : MergePolicy :=
  { MergePolicy.default with requireTestPass := project.requireTests }

def maxDisposition : ReviewDisposition → ReviewDisposition → ReviewDisposition
  | .blocked, _ | _, .blocked => .blocked
  | .needsUserApproval, _ | _, .needsUserApproval => .needsUserApproval
  | .informational, .informational => .informational

def reviewFile (policy : MergePolicy) (disposition : ReviewDisposition) (path : RelPath) : ReviewDisposition :=
  let disposition :=
    if policy.sensitiveFilePatterns.any fun pattern => pattern <:+: path.render then .blocked else disposition
  if isLockfile path && !policy.allowLockfileMergeWithoutReason then
    maxDisposition disposition .needsUserApproval
  else disposition

def reviewManifest (policy : MergePolicy) (manifest : TaskManifest) : ReviewDisposition :=
  let disposition := (manifest.changedFiles.map ChangedFile.path).foldl (reviewFile policy) .informational
  if manifest.changedFiles.length % 2 ^ 32 > policy.maxAutoMergeFiles then
    maxDisposition disposition .needsUserApproval
  else disposition

def reviewTask (io : IoPlan) (now : Nat) (project : ProjectRecord) : OpOn τ ReviewDisposition := do
  let manifest ← readManifest
  io.attempt .reviewDiff
  let disposition := reviewManifest (mergePolicyForProject project) manifest
  io.attempt .reviewReport
  writeTaskStatus io .reviewStatus now
    (match disposition with
      | .blocked => .reviewBlocked
      | _ => .reviewPassed)
  io.attempt .reviewCompleted
  return disposition

/-! ## Summarising -/

def writeTaskSummary (io : IoPlan) (now : Nat) : OpOn τ Unit := do
  let _ ← readManifest
  io.attempt .summary
  io.attempt .summaryTimeline
  writeTaskStatus io .summaryStatus now .summaryReady

/-! ## Archiving -/

def archiveTask (io : IoPlan) (now : Nat) (taskId : String) : OpOn τ TaskRecord := do
  match (← read).record with
  | none => fail (.other ("missing task record for " ++ taskId.toList))
  | some record =>
      let record := { record with
        status := .archived, updatedAt := now, completedAt := record.completedAt <|> some now }
      io.attempt .archiveRecord
      modify fun d => { d with record := some record }
      match (← read).manifest with
      | none => io.attempt .archiveManifest
      | some manifest => writeManifest io .archiveManifest { manifest with status := .archived, updatedAt := now }
      return record

/-! ## Resuming -/

def TaskStatus.recoverable : TaskStatus → Bool
  | .agentInterrupted | .agentFailed | .testingFailed | .workspaceConflict | .environmentBroken
  | .mergeConflict | .rollbackFailed => true
  | _ => false

def recoverManifest (workspaceExists : Bool) (manifest : TaskManifest) : TaskManifest :=
  if !workspaceExists then { manifest with status := .workspaceConflict }
  else if manifest.environmentBinding.any fun binding => !binding.validation.isValid then
    { manifest with status := .environmentBroken }
  else if manifest.status.recoverable then
    { manifest with
      status := if manifest.changedFiles = [] then .workspaceReady else .changesDetected }
  else manifest

def siblingRoot (workspaceRoot : AbsPath) (name : String) : AbsPath :=
  if workspaceRoot.getLast? = some name then workspaceRoot else workspaceRoot.dropLast ++ [name]

variable [Root τ]

def recoveredWorkspace (git : GitHost) (project : ProjectRecord) (manifest : TaskManifest) (original : τ) :
    Except CodexNewError (AbsPath × Workspace) :=
  let branch := "codex-new/task/" ++ manifest.taskId.toList.take 8
  let copied := (siblingRoot manifest.workspaceRoot "copy", Workspace.ofTree (copyProject (Root.walk original)))
  if project.gitRoot.isSome then
    match git.createWorktree branch with
    | some ws => .ok (siblingRoot manifest.workspaceRoot "worktree", ws)
    | none =>
      if git.pruneWorktrees then
        match git.recreateWorktree branch with
        | some ws => .ok (siblingRoot manifest.workspaceRoot "worktree", ws)
        | none => .ok copied
      else .error (.git "worktree prune failed")
  else .ok copied

def recoverTaskWorkspace (io : IoPlan) (git : GitHost) (project : ProjectRecord) (manifest : TaskManifest) :
    OpOn τ TaskManifest := do
  let d ← read
  if d.workspace.isSome then pure manifest
  else do
    io.attempt .resumeWorkspace
    let (workspaceRoot, ws) ← lift (recoveredWorkspace git project manifest d.original)
    modify fun d => { d with workspace := some ws }
    return { manifest with workspaceRoot, status := .workspaceReady }

def revalidated (env : HostEnv) (now : Nat) (original : τ) (manifest : TaskManifest) : TaskManifest :=
  { manifest with
    environmentBinding := manifest.environmentBinding.map fun binding =>
      { binding with
        validation := validateEnvironmentBinding env manifest.originalRoot original binding now } }

def resumeTask (env : HostEnv) (git : GitHost) (io : IoPlan) (now : Nat) (project : ProjectRecord) :
    OpOn τ TaskManifest := do
  let manifest ← readManifest
  let manifest ← recoverTaskWorkspace io git project manifest
  let d ← read
  let manifest := recoverManifest d.workspace.isSome (revalidated env now d.original manifest)
  writeManifest io .resumeManifest manifest
  writeTaskStatus io .resumeStatus now manifest.status
  io.attempt .overview
  check d.record.isSome (.other ("missing task record for " ++ manifest.taskId.toList))
  return manifest

/-- What the operations are called with: the host, its environment and its `git`, and the record of the
project. -/
structure Setting where
  host : Host
  env : HostEnv
  git : GitHost
  project : ProjectRecord

inductive ActionOn (τ : Type) where
  | editOriginal (root : τ)
  | editWorkspace (ws : Workspace)
  | refresh (io : IoPlan) (now : Nat)
  | merge (io : IoPlan) (now : Nat) (selection : MergeSelection)
  | rollback (io : IoPlan) (now : Nat) (selection : RollbackSelection)
  | runTest (io : IoPlan) (now : Nat) (command : TestCommand)
  | review (io : IoPlan) (now : Nat)
  | summarize (io : IoPlan) (now : Nat)
  | resume (io : IoPlan) (now : Nat)
  | archive (io : IoPlan) (now : Nat) (taskId : String)

abbrev Action := ActionOn Tree

def ActionOn.perform (σ : Setting) (d : DiskOf τ) : ActionOn τ → DiskOf τ
  | .editOriginal root => { d with original := root }
  | .editWorkspace ws => { d with workspace := some ws }
  | .refresh io now => (refreshChanges σ.host io now d).2
  | .merge io now selection => (NewCore.merge σ.host io now selection d).2
  | .rollback io now selection => (NewCore.rollback σ.host io now selection d).2
  | .runTest io now command => (runTestCommandRequest io now command d).2
  | .review io now => (reviewTask io now σ.project d).2
  | .summarize io now => (writeTaskSummary io now d).2
  | .resume io now => (resumeTask σ.env σ.git io now σ.project d).2
  | .archive io now taskId => (archiveTask io now taskId d).2

/-- One step in the life of a task. -/
def TaskStep (σ : Setting) (d : DiskOf τ) (a : ActionOn τ) (d' : DiskOf τ) : Prop := d' = a.perform σ d

end

/-! ## A small project -/

def sampleToml : Text := "[shell_environment_policy]\ninherit = \"core\"\n\n[shell_environment_policy.set]\n"

def sampleConfig : Text :=
  "# Generated by CodexStudy security mode.\n" ++
    "# Shell commands in this isolated workspace inherit the linked project environment.\n" ++ sampleToml

def sampleDigests : List (Text × String) :=
  [("", "e3b0c44298fc1c149afbf4c8996fb92427ae41e4649b934ca495991b7852b855"),
   ("base", "cae662172fd450bb0cd710a769079c05bfc5d8e35efa6576edc7d0377afdd4a2"),
   ("mine", "3fd30542fe3f61b14bd4a4b2dc0b6fb30fa6f63ebce52dd1778aaa8c4dc02cff"),
   ("agent", "d4f0bc5a29de06b510f9aa428f1eedba926012b591fef7a518e776a7c9bd1824"),
   (sampleConfig, "0ad38391e97e94e93787bb1c3035914b42968aabce7fcb3090e8a8be0b3aef22")]

def sampleHost : Host where
  sha256
    | .text s => ((sampleDigests.lookup s).getD "").toList
    | .binary _ => []
  workspaceDiff _ := .ok []

def sampleEnv : HostEnv where
  pathEntries := none
  pathText := []
  cargoHome := none
  rustupHome := none
  fileExists _ := false
  tomlToString vars := if vars.keys = ∅ then some sampleToml else none

def sampleSetting : Setting where
  host := sampleHost
  env := sampleEnv
  git := ⟨false, none, fun _ => none, false, fun _ => none⟩
  project :=
    { id := "proj_1", name := "p", rootPath := ["home", "p"], gitRoot := none, workspaceStrategy := .copy
      requireTests := false }

def sampleTaskId : String := "00000000-0000-4000-8000-000000000001"

def sampleTree (files : List (RelPath × String)) : Tree :=
  (FileTree.ofFiles (files.map fun f => (f.1, .text f.2.toList))).getD .empty

def sampleTask {τ : Type} [Root τ] (t : τ) : DiskOf τ :=
  createTask sampleEnv sampleSetting.git sampleSetting.project sampleTaskId "task"
    ["state", "workspaces", "p", "1"] 0 t []

end CodexStudy.NewCore
