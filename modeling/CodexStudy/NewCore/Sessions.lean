import CodexStudy.NewCore.Runs

/-!
# Tasks and conversations of a project (`engine.rs`, `sessions.rs`)

A request of a conversation is answered with the task that the conversation is bound to, with a new one or
with a fork of another one.
-/

namespace CodexStudy.NewCore

open CodexStudy.Lib Eff

inductive TaskReusePolicy where
  | reuseActive
  | forceNew
  | forkFromTask (taskId : String)
  deriving DecidableEq, Repr

structure ResolveTaskRequest where
  title : String
  conversationId : Option String
  reusePolicy : TaskReusePolicy

structure ResolveTaskResponse where
  task : TaskRecord
  manifest : TaskManifest
  reusedExisting : Bool
  conversationBinding : Option ConversationBinding

/-! ## The state of a project -/

structure TaskFiles where
  workspace : Option Workspace
  manifest : Option TaskManifest
  record : Option TaskRecord
  before : SnapshotDir
  afterMerge : SnapshotDir

/-- The project root, the lock files, the tasks by their ids and the bindings by their conversations. -/
structure Session where
  original : Tree
  locks : List Text
  tasks : Finmap fun _ : String => TaskFiles
  conversations : String → Option ConversationBinding

abbrev SessionOp := Eff CodexNewError Session

namespace Session

variable (s : Session) (taskId : String)

def put (files : TaskFiles) : Session :=
  { s with tasks := s.tasks.insert taskId files }

def disk (files : TaskFiles) : Disk :=
  { original := s.original, workspace := files.workspace, manifest := files.manifest, record := files.record
    before := files.before, afterMerge := files.afterMerge, locks := s.locks }

def putDisk (d : Disk) : Session :=
  { s with
    original := d.original
    locks := d.locks
    tasks := s.tasks.insert taskId ⟨d.workspace, d.manifest, d.record, d.before, d.afterMerge⟩ }

def record : Option TaskRecord := (s.tasks.lookup taskId).bind TaskFiles.record

def manifest (project : ProjectRecord) (task : TaskRecord) : Option TaskManifest :=
  if task.projectId = project.id then (s.tasks.lookup task.id).bind TaskFiles.manifest else none

end Session

variable (σ : Setting) (io : IoPlan) (fresh : Fresh)

def attemptSession (pt : IoPoint) : SessionOp Unit := check (io pt).isNone (.io pt)

/-- An operation on the disk of a task, run in the project. -/
def onTask {α : Type} (taskId : String) (op : Op α) : SessionOp α := fun s =>
  match s.tasks.lookup taskId with
  | none => (.error .missingFile, s)
  | some files => ((op (s.disk files)).1, s.putDisk taskId (op (s.disk files)).2)

/-! ## Creating and forking -/

/-- The id that `Uuid::new_v4` returns for a new task, the directory for its workspace, and the time. -/
structure Fresh where
  uuid : String
  taskRoot : AbsPath
  now : Nat

def createTaskIn (title : String) :
    SessionOp (TaskRecord × TaskManifest) := do
  let s ← read
  let task := newTask σ.env σ.git σ.project fresh.uuid title fresh.taskRoot fresh.now s.original
  attemptSession io .prepareWorkspace
  modify fun s => s.put fresh.uuid ⟨some task.workspace, none, none, .empty, .empty⟩
  attemptSession io .createManifest
  modify fun s => s.put fresh.uuid ⟨some task.workspace, some task.manifest, none, .empty, .empty⟩
  attemptSession io .createRecord
  modify fun s => s.put fresh.uuid ⟨some task.workspace, some task.manifest, some task.record, .empty, .empty⟩
  attemptSession io .createTimeline
  return (task.record, task.manifest)

def writeConversationBinding (now : Nat) (conversationId : String)
    (activeTaskId : Option String) : SessionOp ConversationBinding := do
  let s ← read
  attemptSession io .writeBinding
  let createdAt := ((s.conversations conversationId).map ConversationBinding.createdAt).getD now
  let binding := { projectId := σ.project.id, conversationId, activeTaskId, createdAt, updatedAt := now }
  modify fun s => { s with conversations := Function.update s.conversations conversationId (some binding) }
  return binding

def bindConversation (now : Nat) (conversationId : Option String) (taskId : String) :
    SessionOp (Option ConversationBinding) :=
  match conversationId with
  | some c => do
      let binding ← writeConversationBinding σ io now c (some taskId)
      return some binding
  | none => pure none

theorem copyProject_node?_linkName (t : Tree) : ∀ name ∈ linkNames, (copyProject t).node? [name] = none := by
  intro name hname
  rw [copyProject, FileTree.restrict_node? _ _ _ (by simp), if_neg]
  simp only [linkNames, List.mem_cons, List.not_mem_nil, or_false] at hname
  rcases hname with rfl | rfl <;> decide

def forkCopy (source ws : Workspace) : Option Workspace :=
  match h : copyProjectOver source.tree ws.tree with
  | none => none
  | some tree => some (ws.withTree tree fun name hname => by
      rw [FileTree.overlay_node? h, if_pos (copyProject_node?_linkName source.tree name hname)])

def fillFork (now : Nat) (source : Workspace) : Op TaskManifest := do
  let d ← read
  match forkCopy source d.workspaceTree with
  | none => fail (.io .forkCopy)
  | some ws => do
      io.attempt .forkCopy
      modify fun d => { d with workspace := some ws }
      refreshChanges σ.host io now

def forkTask (source : Option TaskRecord) (title : String)
    (conversationId : Option String) : SessionOp ResolveTaskResponse := do
  match source with
  | none => fail (.other "fork source task was not found")
  | some source =>
      match (← read).tasks.lookup source.id with
      | some { manifest := some _, workspace := sourceWorkspace, .. } =>
          let (task, manifest) ← createTaskIn σ io fresh title
          let manifest ← match sourceWorkspace with
            | none => pure manifest
            | some sourceWorkspace => onTask task.id (fillFork σ io fresh.now sourceWorkspace)
          let conversationBinding ← bindConversation σ io fresh.now conversationId task.id
          return { task, manifest, reusedExisting := false, conversationBinding }
      | _ => fail .missingFile

/-! ## Resolving -/

def boundTask (request : ResolveTaskRequest) : SessionOp (Option TaskRecord) :=
  match request.conversationId, request.reusePolicy with
  | some c, .reuseActive => do
      let s ← read
      attemptSession io .readBinding
      match (s.conversations c).bind ConversationBinding.activeTaskId with
      | none => pure none
      | some taskId => do
          attemptSession io .readTask
          return s.record taskId
  | _, _ => pure none

variable (listing : List String) (s : Session)

def findLatestUnfinishedTask : Option TaskRecord :=
  let tasks := (listing.filterMap s.record).filter fun task => !task.status.isTerminal
  tasks.foldl (fun best task =>
    match best with
    | none => some task
    | some b => if b.updatedAt ≤ task.updatedAt then some task else some b) none

/-- The task that a request without a fork gets, and whether it existed before. -/
def chooseTask (request : ResolveTaskRequest) :
    SessionOp (TaskRecord × Bool) := do
  let bound ← boundTask io request
  match bound.filter fun task => !task.status.isTerminal with
  | some task => pure (task, true)
  | none =>
      if request.conversationId.isSome || request.reusePolicy ≠ .reuseActive then do
        let (task, _) ← createTaskIn σ io fresh request.title
        return (task, false)
      else do
        attemptSession io .listTasks
        match findLatestUnfinishedTask listing (← read) with
        | some task => pure (task, true)
        | none => do
            let (task, _) ← createTaskIn σ io fresh request.title
            return (task, false)

def resolveOrCreateTask (request : ResolveTaskRequest) : SessionOp ResolveTaskResponse :=
  match request.reusePolicy with
  | .forkFromTask taskId => do
      let s ← read
      forkTask σ io fresh (s.record taskId) request.title request.conversationId
  | _ => do
      let (task, reusedExisting) ← chooseTask σ io fresh listing request
      match (← read).manifest σ.project task with
      | none => fail .missingFile
      | some manifest => do
          let conversationBinding ← bindConversation σ io fresh.now request.conversationId task.id
          return { task, manifest, reusedExisting, conversationBinding }

def archiveTaskIn (now : Nat) (taskId : String) : SessionOp TaskRecord := do
  match (← read).tasks.lookup taskId with
  | none => fail (.other ("missing task record for " ++ taskId.toList))
  | some _ => onTask taskId (archiveTask io now taskId)

/-! ## Runs of a project -/

/-- A project without tasks. -/
def Session.registered (original : Tree) (locks : List Text) : Session := ⟨original, locks, ∅, fun _ => none⟩

inductive SessionAction where
  | resolve (io : IoPlan) (fresh : Fresh) (listing : List String) (request : ResolveTaskRequest)
  | archive (io : IoPlan) (now : Nat) (taskId : String)

def SessionAction.perform : SessionAction → Session
  | .resolve io fresh listing request => (resolveOrCreateTask σ io fresh listing request s).2
  | .archive io now taskId => (archiveTaskIn io now taskId s).2

def SessionStep (a : SessionAction) (s' : Session) : Prop := s' = a.perform σ s

inductive ProjectAction where
  | session (a : SessionAction)
  | task (taskId : String) (a : Action)

def ProjectAction.perform : ProjectAction → Session
  | .session a => a.perform σ s
  | .task taskId a =>
      match s.tasks.lookup taskId with
      | none => s
      | some files => s.putDisk taskId (a.perform σ (s.disk files))

def ProjectStep (a : ProjectAction) (s' : Session) : Prop := s' = a.perform σ s

/-- The id of a new task is not the id of a task. -/
def FreshIds : SessionAction → Prop
  | .resolve _ fresh _ _ => fresh.uuid ∉ s.tasks
  | .archive _ _ _ => True

def FreshTaskIds : ProjectAction → Prop
  | .session a => FreshIds s a
  | .task _ _ => True

end CodexStudy.NewCore
