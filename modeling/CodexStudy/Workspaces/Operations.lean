import CodexStudy.Lib.Ascii
import CodexStudy.Lib.HashMap
import CodexStudy.Lib.Transition

/-!
# Operations on workspaces (`workspaces_core/crud_persistence.rs`, `workspaces_core/worktree.rs`)

The workspaces are in a map behind a lock and in the storage file.
-/

namespace CodexStudy.Workspaces

open CodexStudy.Lib

/-! ## Workspace entries (`types.rs`, `storage.rs`, `utils.rs`) -/

inductive WorkspaceKind where
  | main
  | worktree
  deriving DecidableEq

structure WorktreeInfo where
  branch : Text
  deriving DecidableEq

structure LaunchScriptEntry where
  id : Text
  script : Text
  icon : Text
  label : Option Text := none
  deriving DecidableEq

structure WorkspaceSettings where
  sidebarCollapsed : Bool := false
  sortOrder : Option Nat := none
  groupId : Option Text := none
  cloneSourceWorkspaceId : Option Text := none
  gitRoot : Option Text := none
  launchScript : Option Text := none
  launchScripts : Option (List LaunchScriptEntry) := none
  worktreeSetupScript : Option Text := none
  worktreesFolder : Option Text := none
  deriving DecidableEq

structure WorkspaceEntry where
  id : Text
  name : Text
  path : Text
  kind : WorkspaceKind := .main
  parentId : Option Text := none
  worktree : Option WorktreeInfo := none
  settings : WorkspaceSettings := {}
  deriving DecidableEq

def WorkspaceEntry.isWorktree (entry : WorkspaceEntry) : Bool := entry.kind == .worktree

/-! ## Paths -/

def stripPrefixAsciiCase (value : Text) (start : String) : Option Text :=
  if Text.toAsciiLowercase (value.take start.length) = Text.toAsciiLowercase start.toList then
    some (value.drop start.length)
  else none

def startsWithDrivePath : Text → Bool
  | letter :: ':' :: separator :: _ => letter.isAlpha && (separator == '\\' || separator == '/')
  | _ => false

def normalizeWindowsNamespacePath (path : Text) : Text :=
  if path = [] then []
  else
    let drivePath := fun start => (stripPrefixAsciiCase path start).filter startsWithDrivePath
    let stripped :=
      ((stripPrefixAsciiCase path "\\\\?\\UNC\\").map fun rest => "\\\\".toList ++ rest) <|>
        ((stripPrefixAsciiCase path "//?/UNC/").map fun rest => "//".toList ++ rest) <|>
        drivePath "\\\\?\\" <|> drivePath "//?/" <|> drivePath "\\\\.\\" <|> drivePath "//./"
    stripped.getD path

def normalizeWorkspaceSettings (settings : WorkspaceSettings) : WorkspaceSettings :=
  { settings with worktreesFolder := settings.worktreesFolder.map normalizeWindowsNamespacePath }

def normalizeWorkspaceEntry (entry : WorkspaceEntry) : WorkspaceEntry :=
  { entry with
    path := normalizeWindowsNamespacePath entry.path
    settings := normalizeWorkspaceSettings entry.settings }

def normalizeSetupScript (script : Option Text) : Option Text := script.filter fun value => !value.trim.isEmpty

structure WorkspaceStore where
  workspaces : HashMap Text WorkspaceEntry
  stored : List WorkspaceEntry

namespace WorkspaceStore

variable (store : WorkspaceStore)

def values : List WorkspaceEntry := store.workspaces.entries.map Sigma.snd

def writeWorkspaces (list : List WorkspaceEntry) : WorkspaceStore :=
  { store with stored := list.map normalizeWorkspaceEntry }

def insert (entry : WorkspaceEntry) : WorkspaceStore :=
  { store with workspaces := store.workspaces.insert entry.id entry }

def remove (ids : List Text) : WorkspaceStore :=
  { store with workspaces := ids.foldl (fun workspaces id => workspaces.erase id) store.workspaces }

def modify (id : Text) (f : WorkspaceEntry → WorkspaceEntry) : WorkspaceStore :=
  match store.workspaces.lookup id with
  | some entry => { store with workspaces := store.workspaces.replace id (f entry) }
  | none => store

def writeLocked : WorkspaceStore := store.writeWorkspaces store.values

def children (id : Text) : List WorkspaceEntry := store.values.filter fun entry => entry.parentId == some id

end WorkspaceStore

/-! ## Calls -/

inductive WorkspaceCall where
  | addWorkspace (id name path : Text)
  | addClone (sourceId id copyName path : Text)
  | addWorktree (parentId branch : Text) (name : Option Text) (id path : Text)
  | removeWorktree (id : Text)
  | removeWorkspace (id : Text) (requireAllChildren : Bool) (failures : List Text)
  | renameWorktree (id branch finalBranch path : Text)
  | updateSettings (id : Text) (settings : WorkspaceSettings)

/-- Where an operation stands: what it does when it has the lock next, or what it writes without it. -/
inductive WorkspacePhase where
  | idle
  | inserts (entry : WorkspaceEntry)
  | cloneReads (sourceId id copyName path : Text)
  | worktreeReads (parentId branch : Text) (name : Option Text) (id path : Text)
  | removeWorktreeReads (id : Text)
  | removeWorkspaceReads (id : Text) (requireAllChildren : Bool) (failures : List Text)
  | removes (ids : List Text)
  | renameReads (id branch finalBranch path : Text)
  | renames (id oldBranch finalBranch path : Text)
  | settingsApplies (id : Text) (settings : WorkspaceSettings)
  | settingsUpdatesChildren (ids : List Text) (script : Option Text)
  | settingsLists
  | writes (list : List WorkspaceEntry)
  deriving DecidableEq

def WorkspaceCall.phase : WorkspaceCall → WorkspacePhase
  | addWorkspace id name path => .inserts { id, name, path := normalizeWindowsNamespacePath path }
  | addClone sourceId id copyName path => .cloneReads sourceId id copyName.trim (normalizeWindowsNamespacePath path)
  | addWorktree parentId branch name id path =>
      .worktreeReads parentId branch.trim ((name.map Text.trim).filter fun value => !value.isEmpty) id
        (normalizeWindowsNamespacePath path)
  | removeWorktree id => .removeWorktreeReads id
  | removeWorkspace id requireAllChildren failures => .removeWorkspaceReads id requireAllChildren failures
  | renameWorktree id branch finalBranch path =>
      .renameReads id branch.trim finalBranch (normalizeWindowsNamespacePath path)
  | updateSettings id settings => .settingsApplies id { settings with
      worktreeSetupScript := normalizeSetupScript settings.worktreeSetupScript
      worktreesFolder := settings.worktreesFolder.map normalizeWindowsNamespacePath }

/-! ## What an operation does when it has the lock -/

namespace WorkspaceStore

variable (store : WorkspaceStore)

def cloneEntry (source : WorkspaceEntry) (id copyName path : Text) : WorkspaceEntry :=
  let groupId :=
    if source.isWorktree then
      (source.parentId.bind store.workspaces.lookup).bind fun parent => parent.settings.groupId
    else source.settings.groupId
  let cloneSourceWorkspaceId := source.settings.cloneSourceWorkspaceId <|>
    (if source.isWorktree then source.parentId else some source.id)
  { id, name := copyName, path, settings := { groupId, cloneSourceWorkspaceId } }

def worktreeEntry (parent : WorkspaceEntry) (branch : Text) (name : Option Text) (id path : Text) : WorkspaceEntry :=
  { id, name := name.getD branch, path, kind := .worktree, parentId := some parent.id
    worktree := some { branch }
    settings := { worktreeSetupScript := normalizeSetupScript parent.settings.worktreeSetupScript } }

def worktreeAndParent (id : Text) : Option (WorkspaceEntry × WorkspaceEntry) := do
  let entry ← store.workspaces.lookup id
  if entry.isWorktree then
    let parentId ← entry.parentId
    let parent ← store.workspaces.lookup parentId
    return (entry, parent)
  else none

def renamed (oldBranch finalBranch path : Text) (entry : WorkspaceEntry) : WorkspaceEntry :=
  { entry with
    name := if entry.name.trim = oldBranch then finalBranch else entry.name
    path
    worktree := some { branch := finalBranch } }

def withSetupScript (script : Option Text) (entry : WorkspaceEntry) : WorkspaceEntry :=
  { entry with settings := { entry.settings with worktreeSetupScript := script } }

def idsToRemove (id : Text) (requireAllChildren : Bool) (failures : List Text) : List Text :=
  let childIds := (store.children id).map WorkspaceEntry.id
  childIds.filter (fun childId => !failures.contains childId) ++
    if !childIds.any failures.contains || !requireAllChildren then [id] else []

/-- The next step of an operation. -/
def go : WorkspacePhase → Option (WorkspaceStore × WorkspacePhase)
  | .idle => none
  | .inserts entry => some ((store.insert entry).writeLocked, .idle)
  | .cloneReads sourceId id copyName path =>
      match store.workspaces.lookup sourceId with
      | none => some (store, .idle)
      | some source => some (store, .inserts (store.cloneEntry source id copyName path))
  | .worktreeReads parentId branch name id path =>
      match store.workspaces.lookup parentId with
      | none => some (store, .idle)
      | some parent =>
          if parent.isWorktree then some (store, .idle)
          else some (store, .inserts (worktreeEntry parent branch name id path))
  | .removeWorktreeReads id =>
      match store.worktreeAndParent id with
      | none => some (store, .idle)
      | some (entry, _) => some (store, .removes [entry.id])
  | .removeWorkspaceReads id requireAllChildren failures =>
      match store.workspaces.lookup id with
      | none => some (store, .idle)
      | some entry =>
          if entry.isWorktree then some (store, .idle)
          else some (store, .removes (store.idsToRemove id requireAllChildren failures))
  | .removes ids => some ((store.remove ids).writeLocked, .idle)
  | .renameReads id branch finalBranch path =>
      match store.worktreeAndParent id with
      | none => some (store, .idle)
      | some (entry, _) =>
          match entry.worktree with
          | none => some (store, .idle)
          | some worktree =>
              if worktree.branch = branch ∨ finalBranch = worktree.branch then some (store, .idle)
              else some (store, .renames id worktree.branch finalBranch path)
  | .renames id oldBranch finalBranch path =>
      match store.workspaces.lookup id with
      | none => some (store, .idle)
      | some _ =>
          let store := store.modify id (renamed oldBranch finalBranch path)
          some (store, .writes store.values)
  | .settingsApplies id settings =>
      match store.workspaces.lookup id with
      | none => some (store, .idle)
      | some previous =>
          let store := store.modify id fun entry => { entry with settings }
          let childIds := (store.children id).map WorkspaceEntry.id
          if previous.settings.worktreeSetupScript ≠ settings.worktreeSetupScript ∧ previous.isWorktree = false ∧
              childIds ≠ [] then
            some (store, .settingsUpdatesChildren childIds settings.worktreeSetupScript)
          else some (store, .settingsLists)
  | .settingsUpdatesChildren ids script =>
      some (ids.foldl (fun store id => store.modify id (withSetupScript script)) store, .settingsLists)
  | .settingsLists => some (store, .writes store.values)
  | .writes list => some (store.writeWorkspaces list, .idle)

/-- An operation that has changed nothing fails. -/
def fail : WorkspacePhase → Option (WorkspaceStore × WorkspacePhase)
  | .inserts _ | .cloneReads .. | .worktreeReads .. | .removeWorktreeReads _ | .removeWorkspaceReads .. | .removes _
  | .renameReads .. | .renames .. | .settingsApplies .. => some (store, .idle)
  | .idle | .settingsUpdatesChildren .. | .settingsLists | .writes _ => none

end WorkspaceStore

inductive WorkspaceStep where
  | call (call : WorkspaceCall)
  | go
  | fail

def WorkspaceStore.step (store : WorkspaceStore) (phase : WorkspacePhase) :
    WorkspaceStep → Option (WorkspaceStore × WorkspacePhase)
  | .call call => if phase = .idle then some (store, call.phase) else none
  | .go => store.go phase
  | .fail => store.fail phase

abbrev WorkspaceSystem := Tasks WorkspaceStore WorkspacePhase

/-- No operation is running, and the workspaces are stored. -/
def WorkspaceSystem.start (workspaces : HashMap Text WorkspaceEntry) : WorkspaceSystem :=
  ⟨⟨workspaces, workspaces.entries.map Sigma.snd⟩, fun _ => .idle⟩

def WorkspaceMove : WorkspaceSystem → Nat × WorkspaceStep → WorkspaceSystem → Prop :=
  Tasks.Move fun _ store phase step => store.step phase step

end CodexStudy.Workspaces
