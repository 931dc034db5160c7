import CodexStudy.NewCore.Environment
import CodexStudy.NewCore.Diff

/-!
# Refreshing, merging and rolling back (`engine.rs`)

The operations of `CodexNewCore` that compare the two roots, write the changes of a workspace to the original root and
undo them. Each operation is given the calls of the operating system that fail during it and the time.
-/

namespace CodexStudy.NewCore

open CodexStudy.Lib Eff ChangedFile Text

/-! ## Merging selected hunks (`diff.rs`) -/

/-- The digest of the hash, and what `git diff --binary HEAD` prints in a workspace or its error. -/
structure Host where
  sha256 : Content → Text
  workspaceDiff : Workspace → Except Text Text

structure ParsedHunk where
  oldStart : Nat
  oldLines : Nat
  additions : List Text
  deriving DecidableEq, Repr

/-- What is used of a hunk. -/
def Diff.ParsedHunk.forget (hunk : Diff.ParsedHunk) : NewCore.ParsedHunk :=
  { oldStart := hunk.oldStart, oldLines := hunk.oldLines, additions := hunk.additions }

/-! ## Splicing -/

def spliceHunk (lines : List Text) (hunk : ParsedHunk) : Except CodexNewError (List Text) :=
  let startIdx := hunk.oldStart - 1
  let endIdx := min (startIdx + hunk.oldLines) lines.length
  if startIdx ≤ endIdx then .ok (lines.take startIdx ++ hunk.additions ++ lines.drop endIdx)
  else .error (.other "range start index out of range")

def applyParsedHunks (original : List Text) (hunks : List ParsedHunk) (selected : List Nat) :
    Except CodexNewError (List Text) :=
  let selectedHunks := (hunks.zipIdx.filter fun h => selected.contains h.2).map Prod.fst
  (selectedHunks.insertionSort fun a b => a.oldStart ≤ b.oldStart).foldlM spliceHunk original

section

variable {τ : Type} [Root τ]

def readFileLines (pt : IoPoint) (original : τ) (path : RelPath) : Except CodexNewError (List Text) :=
  if Root.present original path then
    match Root.file? original path with
    | some (.text s) => .ok s.lines
    | _ => .error (.io pt)
  else .ok []

def fileLinesContent (lines : List Text) : Content :=
  let content := join ['\n'] lines
  .text (if content = [] then [] else content ++ ['\n'])

def unifiedDiff (host : Host) (ws : Workspace) (original : τ) : Except CodexNewError Text :=
  if ws.present original [".git"] then (host.workspaceDiff ws).mapError CodexNewError.git else .ok []

def applySelectedHunks (host : Host) (pt : IoPoint) (ws : Workspace) (original : τ) (path : RelPath)
    (selections : List HunkSelection) : Except CodexNewError τ := do
  let selectedIndices := (selections.filter fun s => s.path = path).map HunkSelection.hunkIndex
  if selectedIndices = [] then return original
  let path ← checkedJoin path
  if ws.present original path then
    let unified ← unifiedDiff host ws original
    match (Diff.parseUnifiedDiff unified).lookup path.render with
    | some ⟨_, hunk :: hunks⟩ => do
        let lines ← readFileLines pt original path
        let merged ← applyParsedHunks lines ((hunk :: hunks).map Diff.ParsedHunk.forget) selectedIndices
        orIo pt (Root.writeAll original path (fileLinesContent merged))
    | _ => copyFileOrRemove pt ws original path
  else removeIfPresent pt original path

end

/-! ## The diff of a task for its review -/

def isLockfile (path : RelPath) : Bool :=
  ["package-lock.json", "pnpm-lock.yaml", "yarn.lock", "bun.lockb", "Cargo.lock", "poetry.lock",
    "uv.lock", "Pipfile.lock"].any fun name => path = [name]

/-! ## Comparing the two roots -/

structure HashIndex where
  keys : Finset RelPath
  get : RelPath → Option (Option Text)

def inGit (root : AbsPath) (p : RelPath) : Bool := (root ++ p).contains ".git"

def hashIndex (sha256 : Content → Text) (root : AbsPath) (t : Tree) : HashIndex where
  keys := t.filePaths.filter fun p => !inGit root p
  get p := if inGit root p then none else (t.file? p).map fun c => hashText sha256 (some c)

def compareEntry (beforeHash afterAiHash : Option Text) (path : RelPath) : Option ChangedFile :=
  if beforeHash = afterAiHash then none
  else
    let entry (status : ChangedFileStatus) : ChangedFile :=
      { path, status, beforeHash, afterAiHash, afterMergeHash := none, mergedHunks := none
        accepted := false, mergeStatus := "pending" }
    match beforeHash, afterAiHash with
    | none, some _ => some (entry .added)
    | some _, none => some (entry .deleted)
    | some _, some _ => some (entry .modified)
    | none, none => none

def previousChange (previous : List ChangedFile) (path : RelPath) : Option ChangedFile :=
  previous.reverse.find? fun change => change.path = path

def beforeHashOf (original : HashIndex) (previous : List ChangedFile) (path : RelPath) : Option Text :=
  match previousChange previous path with
  | some change => change.beforeHash
  | none => (original.get path).join

def compareRoots (original workspace : HashIndex) (previous : List ChangedFile) : List ChangedFile :=
  (sorted pathLe (original.keys ∪ workspace.keys)).filterMap fun path =>
    compareEntry (beforeHashOf original previous path) (workspace.get path).join path

def detectChangedFileEvents (previous current : List ChangedFile) : List ChangedFile :=
  current.filter fun c =>
    match previousChange previous c.path with
    | some p => p.afterAiHash ≠ c.afterAiHash || p.status ≠ c.status
    | none => true

/-! ## Reading and writing the records of the task -/

section

variable {τ : Type}

def readManifest : OpOn τ TaskManifest := do
  match (← read).manifest with
  | some manifest => pure manifest
  | none => fail .missingFile

/-- `TaskManifest::write_to_path`; a torn write leaves a manifest that cannot be read. -/
def writeManifest (io : IoPlan) (pt : IoPoint) (manifest : TaskManifest) : OpOn τ Unit :=
  match io pt with
  | none => modify fun d => { d with manifest := some manifest }
  | some .clean => fail (.io pt)
  | some (.torn _) => do
      modify fun d => { d with manifest := none }
      fail (.io pt)

def TaskRecord.withStatus (record : TaskRecord) (now : Nat) (status : TaskStatus) : TaskRecord :=
  { record with
    status
    updatedAt := now
    completedAt := if status.isTerminal then some now else record.completedAt }

def writeTaskStatus (io : IoPlan) (pt : IoPoint) (now : Nat) (status : TaskStatus) : OpOn τ Unit := do
  io.attempt pt
  modify fun d => { d with record := d.record.map fun record => record.withStatus now status }

def DiskOf.workspaceTree (d : DiskOf τ) : Workspace := d.workspace.getD (.ofTree .empty)

/-! ## Refreshing -/

variable [Root τ] (host : Host) (io : IoPlan) (now : Nat)

def refreshedManifest (original : Tree) (ws : Workspace) (manifest : TaskManifest) :
    TaskManifest :=
  let changedFiles := compareRoots (hashIndex host.sha256 manifest.originalRoot original)
    (hashIndex host.sha256 manifest.workspaceRoot ws.tree) manifest.changedFiles
  { manifest with
    status := if changedFiles = [] then .workspaceReady else .changesDetected
    updatedAt := now
    changedFiles }

def refreshChanges : OpOn τ TaskManifest := do
  let previous ← readManifest
  io.attempt .indexOriginal
  io.attempt .indexWorkspace
  let d ← read
  check d.workspace.isSome (.io .indexWorkspace)
  let manifest := refreshedManifest host now (Root.walk d.original) d.workspaceTree previous
  io.attempt .fullDiff
  writeManifest io .refreshManifest manifest
  writeTaskStatus io .refreshStatus now manifest.status
  let _ ← each (fun changed => io.attempt (.traceback changed.path))
    (detectChangedFileEvents previous.changedFiles manifest.changedFiles)
  io.attempt .refreshTimeline
  return manifest

/-! ## Merging -/

def selectedPaths (changes : List ChangedFile) : MergeSelection → List RelPath
  | .all => changes.map path
  | .files paths => paths
  | .hunks hunks => hunks.map HunkSelection.path
  | .lines lines => lines.map LineSelection.path

def hunkSelections : MergeSelection → List HunkSelection
  | .hunks hunks => hunks
  | _ => []

def mergeLockName (taskId : String) : Text := "merge-" ++ taskId.toList ++ ".lock"

def pathLockName (path : RelPath) : Text := "path-" ++ encodePath path ++ ".lock"

def DiskOf.locked (d : DiskOf τ) (name : Text) : DiskOf τ := { d with locks := name :: d.locks }

def DiskOf.released (d : DiskOf τ) (name : Text) : DiskOf τ := { d with locks := d.locks.filter (· ≠ name) }

/-- Run `body` while the lock file `name` stands. A lock file that was created but not written stays. -/
def withLock {α : Type} (io : IoPlan) (pt : IoPoint) (name held : Text) (body : OpOn τ α) : OpOn τ α := do
  check (!(← read).locks.contains name) (.other held)
  match io pt with
  | none => do
      modify fun d => d.locked name
      body.ensuring fun d => d.released name
  | some .clean => fail (.io pt)
  | some (.torn _) => do
      modify fun d => d.locked name
      fail (.io pt)

def checkConflict (manifest : TaskManifest) (changed : ChangedFile) :
    OpOn τ Unit := do
  let path ← lift (checkedJoin changed.path)
  io.attempt (.conflictHash changed.path)
  let d ← read
  let currentHash ← lift (fileHash host.sha256 (.conflictHash changed.path) d.original path)
  if currentHash = changed.beforeHash then pure ()
  else do
    writeManifest io .conflictManifest { manifest with status := .mergeConflict }
    writeTaskStatus io .conflictStatus now .mergeConflict
    fail (.mergeConflict changed.path changed.beforeHash currentHash)

def writeOriginal (pt : IoPoint) (path : RelPath) (t : τ) : OpOn τ Unit :=
  match io pt, Root.file? t path with
  | none, _ => modify fun d => { d with original := t }
  | some (.torn left), some _ => do
      modify fun d => { d with original := (Root.writeAll d.original path left).getD d.original }
      fail (.io pt)
  | some _, _ => fail (.io pt)

variable (hunks : List HunkSelection) (changed : ChangedFile)

def mergedTree (ws : Workspace) (original : τ) (path : RelPath) :
    Except CodexNewError τ :=
  if hunks.any fun s => s.path = path then applySelectedHunks host (.apply path) ws original path hunks
  else copyFileOrRemove (.apply path) ws original path

def pathHunks (path : RelPath) : List Nat :=
  sorted (· ≤ ·) (((hunks.filter fun s => s.path = path).map HunkSelection.hunkIndex).toFinset)

def ChangedFile.merged (hunks : List HunkSelection) (afterMergeHash : Option Text) :
    ChangedFile :=
  { changed with
    afterMergeHash
    mergedHunks := if pathHunks hunks changed.path = [] then none else some (pathHunks hunks changed.path)
    accepted := true
    mergeStatus := "applied" }

def applyChanged :
    OpOn τ ChangedFile := do
  io.attempt (.snapshotBefore changed.path)
  modify fun d => { d with before := d.before.snapshotFile changed.path (Root.file? d.original changed.path) }
  let d ← read
  let tree ← lift (mergedTree host hunks d.workspaceTree d.original changed.path)
  writeOriginal io (.apply changed.path) changed.path tree
  io.attempt (.snapshotAfter changed.path)
  modify fun d =>
    { d with afterMerge := d.afterMerge.snapshotFile changed.path (Root.file? d.original changed.path) }
  io.attempt (.afterHash changed.path)
  let d ← read
  let afterMergeHash ← lift (fileHash host.sha256 (.afterHash changed.path) d.original changed.path)
  return changed.merged hunks afterMergeHash

/-- One round of the apply loop. -/
def mergeChanged (accepted : List RelPath) (hunks : List HunkSelection)
    (changed : ChangedFile) : OpOn τ ChangedFile :=
  if accepted.contains changed.path then
    withLock io (.pathLock changed.path) (pathLockName changed.path)
      ("path lock already held for " ++ changed.path.render)
      (applyChanged host io hunks changed)
  else pure changed

def mergeLocked (selection : MergeSelection) (manifest : TaskManifest) :
    OpOn τ MergeOutcome := do
  let accepted := selectedPaths manifest.changedFiles selection
  io.attempt .mergeStarted
  let _ ← each (checkConflict host io now manifest)
    (manifest.changedFiles.filter fun changed => accepted.contains changed.path)
  let changedFiles ← each (mergeChanged host io accepted (hunkSelections selection)) manifest.changedFiles
  io.attempt .acceptedDiff
  writeManifest io .mergeManifest
    { manifest with status := .rollbackAvailable, updatedAt := now, changedFiles }
  writeTaskStatus io .mergeStatus now .rollbackAvailable
  io.attempt .mergeCompleted
  let paths := manifest.changedFiles.map path
  return {
    taskId := manifest.taskId
    acceptedPaths := paths.filter fun path => accepted.contains path
    skippedPaths := paths.filter fun path => !accepted.contains path
    changedFiles }

def merge (selection : MergeSelection) : OpOn τ MergeOutcome := do
  let manifest ← refreshChanges host io now
  withLock io .mergeLock (mergeLockName manifest.taskId)
    ("merge lock already held for task " ++ manifest.taskId.toList)
    (mergeLocked host io now selection manifest)

/-! ## Rolling back -/

def selectedRollbackPaths (changes : List ChangedFile) (selection : RollbackSelection) : List RelPath :=
  let requested := match selection with
    | .all => (changes.filter accepted).map path
    | .files paths => paths
    | .hunks hunks => hunks.map HunkSelection.path
  (changes.filter fun change => change.accepted && requested.contains change.path).map path

def rollbackHunkSelections : RollbackSelection → List HunkSelection
  | .hunks hunks => hunks
  | _ => []

/-- The conflict check of one file: its content must still be the one that the merge left. -/
def checkRollback (manifest : TaskManifest) (changed : ChangedFile) :
    OpOn τ Unit := do
  let path ← lift (checkedJoin changed.path)
  io.attempt (.rollbackHash changed.path)
  let d ← read
  let currentHash ← lift (fileHash host.sha256 (.rollbackHash changed.path) d.original path)
  if currentHash = changed.afterMergeHash then pure ()
  else do
    writeManifest io .rollbackManifest { manifest with status := .rollbackFailed }
    writeTaskStatus io .rollbackStatus now .rollbackFailed
    fail (.rollbackConflict changed.path changed.afterMergeHash currentHash)

def remainingHunks (rolledBack : List Nat) : List Nat :=
  if rolledBack = [] then []
  else (changed.mergedHunks.getD []).filter fun index => !rolledBack.contains index

/-- One round of the restore loop. The hunks that remain merged are merged again over the snapshot. -/
def rollbackChanged (paths : List RelPath) (hunks : List HunkSelection)
    (changed : ChangedFile) : OpOn τ ChangedFile :=
  if changed.accepted && paths.contains changed.path then do
    let rolledBack := pathHunks hunks changed.path
    let remaining := remainingHunks changed rolledBack
    let d ← read
    let tree ← lift (d.before.restoreSnapshot (.restore changed.path) d.original changed.path)
    writeOriginal io (.restore changed.path) changed.path tree
    if remaining = [] then
      return { changed with
        accepted := false, afterMergeHash := none, mergedHunks := none, mergeStatus := "pending" }
    else do
      let d ← read
      let selections := remaining.map fun hunkIndex => { path := changed.path, hunkIndex }
      let tree ← lift
        (applySelectedHunks host (.reapply changed.path) d.workspaceTree d.original changed.path selections)
      writeOriginal io (.reapply changed.path) changed.path tree
      io.attempt (.restoreHash changed.path)
      let d ← read
      let afterMergeHash ← lift (fileHash host.sha256 (.restoreHash changed.path) d.original changed.path)
      return { changed with
        afterMergeHash
        mergedHunks := some ((changed.mergedHunks.getD []).filter fun index => !rolledBack.contains index)
        mergeStatus := "applied" }
  else pure changed

def rollback (selection : RollbackSelection) : OpOn τ RollbackOutcome := do
  let manifest ← readManifest
  let paths := selectedRollbackPaths manifest.changedFiles selection
  check (!paths.isEmpty) (.other "No merged files selected for rollback.")
  let chosen (changed : ChangedFile) : Bool := changed.accepted && paths.contains changed.path
  let _ ← each (checkRollback host io now manifest) (manifest.changedFiles.filter chosen)
  let changedFiles ← each (rollbackChanged host io paths (rollbackHunkSelections selection))
    manifest.changedFiles
  let status : TaskStatus :=
    if changedFiles.any accepted then .rollbackAvailable else .mergeReady
  writeManifest io .rollbackManifest { manifest with status, updatedAt := now, changedFiles }
  writeTaskStatus io .rollbackStatus now status
  io.attempt .rollbackCompleted
  return {
    taskId := manifest.taskId
    restoredPaths := (manifest.changedFiles.filter chosen).map path
    skippedPaths := [] }

end

end CodexStudy.NewCore
