import CodexStudy.Lib.Effect
import CodexStudy.Lib.FileTree
import CodexStudy.Lib.Text
import Mathlib.Data.Prod.Lex
import Mathlib.Data.String.Basic
import Mathlib.Data.Char

/-!
# Records of the task workflow

The records of `codex-new-core/src/models.rs`, `manifest.rs` and `error.rs`, and the disk as the operations on one
task see it.
-/

namespace CodexStudy.NewCore

open CodexStudy.Lib

/-! ## Paths and contents -/

abbrev RelPath := List String

abbrev AbsPath := List String

/-- The bytes of a file: those that decode as UTF-8 are kept as their text. -/
inductive Content where
  | text (s : Text)
  | binary (bytes : List UInt8)
  deriving DecidableEq, Repr

def Content.empty : Content := .text []

abbrev Tree := FileTree String Content

def RelPath.render (p : RelPath) : Text := Text.join ['/'] (p.map String.toList)

def AbsPath.render (p : AbsPath) : Text := '/' :: RelPath.render p

def pathLe (p q : RelPath) : Prop := toLex (p.render, p) ≤ toLex (q.render, q)

instance : DecidableRel pathLe := fun _ _ => inferInstanceAs (Decidable (toLex _ ≤ toLex _))

instance : IsTrans RelPath pathLe := ⟨fun _ _ _ h₁ h₂ => le_trans (α := Text ×ₗ RelPath) h₁ h₂⟩

instance : Std.Total pathLe := ⟨fun p q => le_total (α := Text ×ₗ RelPath) (toLex (p.render, p)) (toLex (q.render, q))⟩

instance : Std.Antisymm pathLe := ⟨fun _ _ h₁ h₂ => congrArg Prod.snd (le_antisymm (α := Text ×ₗ RelPath) h₁ h₂)⟩

/-! ## Task status -/

inductive TaskStatus where
  | created | preparingWorkspace | workspaceReady
  | agentQueued | agentRunning | agentInterrupted | agentFailed
  | changesDetected | summaryReady
  | reviewPending | reviewing | reviewBlocked | reviewPassed | reviewFailed
  | testingPending | testingRunning | testingPassed | testingFailed
  | mergeQueued | mergeReady | merging | merged
  | rollbackAvailable | rollingBack | rollbackFailed
  | workspaceConflict | mergeConflict | environmentBroken
  | superseded | abandoned | archived

def TaskStatus.isTerminal : TaskStatus → Bool
  | .merged | .superseded | .abandoned | .archived => true
  | _ => false

/-! ## Changed files and selections -/

inductive ChangedFileStatus where
  | added | modified | deleted
  deriving DecidableEq, Repr

structure ChangedFile where
  path : RelPath
  status : ChangedFileStatus
  beforeHash : Option Text
  afterAiHash : Option Text
  afterMergeHash : Option Text
  /-- When set, only these diff hunk indices were merged into the project file. -/
  mergedHunks : Option (List Nat)
  accepted : Bool
  mergeStatus : String

structure HunkSelection where
  path : RelPath
  hunkIndex : Nat

structure LineSelection where
  path : RelPath
  line : Nat

inductive MergeSelection where
  | all
  | files (paths : List RelPath)
  | hunks (hunks : List HunkSelection)
  | lines (lines : List LineSelection)

inductive RollbackSelection where
  | all
  | files (paths : List RelPath)
  | hunks (hunks : List HunkSelection)

/-! ## The environment a task inherits from its project -/

/-- A `BTreeMap<String, String>` of environment variables. -/
abbrev EnvVars := Finmap fun _ : Text => Text

inductive SharedPathKind where
  | virtualEnv | nodeModules | toolchain | cache | wrapper | other

structure SharedPathMount where
  kind : SharedPathKind
  source : AbsPath
  targetHint : Option AbsPath
  readOnly : Bool

structure DetectedTool where
  ecosystem : String
  name : String
  executable : AbsPath

structure EnvironmentValidation where
  isValid : Bool
  checkedAt : Nat
  notes : List Text

structure EnvironmentBinding where
  projectId : String
  workspaceRoot : AbsPath
  environmentRoot : AbsPath
  detectedAt : Nat
  envVars : EnvVars
  pathEntries : List AbsPath
  sharedPaths : List SharedPathMount
  detectedTools : List DetectedTool
  validation : EnvironmentValidation

/-! ## Projects, tasks and conversations -/

inductive WorkspaceStrategy where
  | auto | worktree | copy

structure ProjectRecord where
  id : String
  name : String
  rootPath : AbsPath
  gitRoot : Option AbsPath
  workspaceStrategy : WorkspaceStrategy
  requireTests : Bool

structure TaskRecord where
  id : String
  projectId : String
  title : String
  status : TaskStatus
  originalRoot : AbsPath
  workspaceRoot : AbsPath
  createdAt : Nat
  updatedAt : Nat
  completedAt : Option Nat

structure TaskManifest where
  taskId : String
  projectId : String
  originalRoot : AbsPath
  workspaceRoot : AbsPath
  createdAt : Nat
  updatedAt : Nat
  status : TaskStatus
  baseRevision : Option String
  environmentBinding : Option EnvironmentBinding
  changedFiles : List ChangedFile

structure ConversationBinding where
  projectId : String
  conversationId : String
  activeTaskId : Option String
  createdAt : Nat
  updatedAt : Nat

structure MergeOutcome where
  taskId : String
  acceptedPaths : List RelPath
  skippedPaths : List RelPath
  changedFiles : List ChangedFile

structure RollbackOutcome where
  taskId : String
  restoredPaths : List RelPath
  skippedPaths : List RelPath

/-! ## Failures -/

/-- The calls of the operating system in the task operations that can fail. -/
inductive IoPoint where
  | indexOriginal | indexWorkspace | fullDiff | refreshManifest | refreshStatus
  | traceback (path : RelPath) | refreshTimeline
  | mergeLock | mergeStarted | conflictHash (path : RelPath) | conflictManifest | conflictStatus
  | pathLock (path : RelPath) | snapshotBefore (path : RelPath) | apply (path : RelPath)
  | snapshotAfter (path : RelPath) | afterHash (path : RelPath)
  | acceptedDiff | mergeManifest | mergeStatus | mergeCompleted
  | rollbackHash (path : RelPath) | restore (path : RelPath) | reapply (path : RelPath)
  | restoreHash (path : RelPath)
  | rollbackManifest | rollbackStatus | rollbackCompleted
  | testDir | testStarted | testRunning | command | testOutcome | testStatus | testCompleted
  | reviewDiff | reviewReport | reviewStatus | reviewCompleted
  | summary | summaryTimeline | summaryStatus
  | resumeWorkspace | resumeManifest | resumeStatus | overview
  | archiveRecord | archiveManifest
  | prepareWorkspace | createManifest | createRecord | createTimeline | forkCopy
  | readBinding | readTask | listTasks | writeBinding
  deriving DecidableEq, Repr

/-- How a call fails: without an effect, or after it has left `left` in the file it was writing. -/
inductive IoFault where
  | clean
  | torn (left : Content)

abbrev IoPlan := IoPoint → Option IoFault

/-- No call of the operating system fails. -/
def IoPlan.healthy : IoPlan := fun _ => none

inductive CodexNewError where
  | pathOutsideProject (path : RelPath)
  | mergeConflict (path : RelPath) (expected found : Option Text)
  | rollbackConflict (path : RelPath) (expected found : Option Text)
  | git (message : Text)
  | io (point : IoPoint)
  | missingFile
  | other (message : Text)
  deriving DecidableEq, Repr

/-! ## The root of a project -/

/-- The calls of the operating system on the root of a project. Links are followed where nothing else is said. -/
class Root (τ : Type) where
  /-- The directories and the regular files that a walk finds that follows no link. -/
  walk : τ → Tree
  file? : τ → RelPath → Option Content
  present : τ → RelPath → Bool
  isDir : τ → RelPath → Bool
  /-- The regular file that stands at the path itself, if the directory above it can be reached. -/
  lstat? : τ → RelPath → Option (Option Content)
  /-- A file is written, and the directories above it are created. -/
  writeAll : τ → RelPath → Content → Option τ
  removeFile : τ → RelPath → Option τ

instance : Root Tree where
  walk t := t
  file? := FileTree.file?
  present := FileTree.present
  isDir t p := t.node? p = some .dir
  lstat? t p := if t.passable p.dropLast then some (t.file? p) else none
  writeAll := FileTree.writeAll
  removeFile := FileTree.removeFile

section

variable (t : Tree)

@[simp] theorem walk_tree : Root.walk t = t := rfl

@[simp] theorem file?_tree : Root.file? t = t.file? := rfl

@[simp] theorem present_tree : Root.present t = t.present := rfl

@[simp] theorem writeAll_tree : Root.writeAll t = t.writeAll := rfl

@[simp] theorem removeFile_tree : Root.removeFile t = t.removeFile := rfl

end

/-! ## The disk as the operations on one task see it -/

def linkNames : List String := [".venv", "node_modules"]

/-- The files of a workspace, and its top-level names that are links to a directory of the original root. -/
structure Workspace where
  tree : Tree
  links : List (String × RelPath)
  linked : ∀ name, (links.lookup name).isSome → name ∈ linkNames
  disjoint : ∀ name, (links.lookup name).isSome → tree.node? [name] = none

def Workspace.ofTree (tree : Tree) : Workspace where
  tree
  links := []
  linked := by simp
  disjoint := by simp

structure SnapshotDir where
  blob : Text → Option Content
  missing : Text → Bool

def SnapshotDir.empty : SnapshotDir := ⟨fun _ => none, fun _ => false⟩

/-- The project root, the files of one task, and the lock files. A file is `none` when it does not exist. -/
structure DiskOf (τ : Type) where
  original : τ
  workspace : Option Workspace
  manifest : Option TaskManifest
  record : Option TaskRecord
  before : SnapshotDir
  afterMerge : SnapshotDir
  locks : List Text

/-- The disk of a project without links. -/
abbrev Disk := DiskOf Tree

abbrev OpOn (τ : Type) := Eff CodexNewError (DiskOf τ)

abbrev Op := OpOn Tree

def IoPlan.attempt {τ : Type} (io : IoPlan) (pt : IoPoint) : OpOn τ Unit := Eff.check (io pt).isNone (.io pt)

end CodexStudy.NewCore
