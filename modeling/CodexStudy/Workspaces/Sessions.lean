import CodexStudy.Lib.HashMap
import CodexStudy.Lib.Text
import CodexStudy.Lib.Transition

/-!
# Sessions of workspaces (`workspaces_core/connect.rs`, `workspaces_core/runtime_codex_args.rs`)

Each workspace that is connected has a session with an app-server process, and workspaces share sessions.
-/

namespace CodexStudy.Workspaces

open CodexStudy.Lib

/-! ## Sessions -/

structure WorkspaceSession where
  ptr : Nat
  codexHome : Option Text
  codexArgs : Option Text
  ownerWorkspaceId : Text
  deriving DecidableEq

def WorkspaceSession.matchesCodexHome (session : WorkspaceSession) (expected : Option Text) : Bool :=
  match session.codexHome, expected with
  | none, none => true
  | some left, some right => left == right
  | _, _ => false

inductive ProcessState where
  | alive
  | exited
  | killed
  deriving DecidableEq

structure SessionStore where
  sessions : HashMap Text WorkspaceSession
  processes : List ProcessState

structure SpawnRequest where
  id : Text
  codexHome : Option Text
  codexArgs : Option Text
  deriving DecidableEq

namespace SessionStore

variable (store : SessionStore)

def sessionProcessIsAlive (session : WorkspaceSession) : Bool := store.processes[session.ptr]? == some .alive

def removeSessionReferences (session : WorkspaceSession) : SessionStore :=
  { store with sessions := store.sessions.retainValues fun candidate => candidate.ptr != session.ptr }

def killChildProcessTree (session : WorkspaceSession) : SessionStore :=
  { store with processes := store.processes.set session.ptr .killed }

def killSessionById (id : Text) : SessionStore :=
  match store.sessions.lookup id with
  | none => store
  | some session =>
      let removed := { store with sessions := store.sessions.erase id }
      let stillReferenced := removed.sessions.entries.any fun candidate => candidate.2.ptr == session.ptr
      if stillReferenced then removed else removed.killChildProcessTree session

def spawnSession (request : SpawnRequest) : SessionStore × WorkspaceSession :=
  ({ store with processes := store.processes ++ [.alive] },
    ⟨store.processes.length, request.codexHome, request.codexArgs, request.id⟩)

def insertSession (id : Text) (session : WorkspaceSession) : SessionStore :=
  { store with sessions := store.sessions.insert id session }

end SessionStore

/-! ## Calls -/

inductive SessionCall where
  | connectWorkspace (request : SpawnRequest)
  /-- The id is new. -/
  | addWorkspace (request : SpawnRequest)
  /-- The arguments of the request are those that are resolved for the workspace. -/
  | setWorkspaceRuntimeCodexArgs (codexArgsOverride : Option Text) (request : SpawnRequest)
  | killSessionById (id : Text)

/-- Where the call that is running stands. -/
inductive SessionPhase where
  | idle
  | connects (request : SpawnRequest)
  | connectTakesShared (request : SpawnRequest)
  | connectSpawns (request : SpawnRequest)
  | addTakesShared (request : SpawnRequest)
  | addSpawns (request : SpawnRequest)
  | addWrites (id : Text) (session : WorkspaceSession) (spawnedNewSession : Bool)
  | setsArgs (request : SpawnRequest)
  | setsSpawns (request : SpawnRequest) (currentSession : WorkspaceSession)
  | kills (id : Text)
  deriving DecidableEq

/-- The arguments that a session is to have: the override, unless it is blank. -/
def targetArgs (codexArgsOverride resolvedArgs : Option Text) : Option Text :=
  (codexArgsOverride.map Text.trim).filter (fun value => !value.isEmpty) <|> resolvedArgs

def SessionCall.phase : SessionCall → SessionPhase
  | connectWorkspace request => .connects request
  | addWorkspace request => .addTakesShared request
  | setWorkspaceRuntimeCodexArgs codexArgsOverride request =>
      .setsArgs { request with codexArgs := targetArgs codexArgsOverride request.codexArgs }
  | killSessionById id => .kills id

def SessionCall.idIsFresh (store : SessionStore) : SessionCall → Bool
  | addWorkspace request => (store.sessions.lookup request.id).isNone
  | _ => true

inductive SessionStep where
  | call (call : SessionCall)
  /-- What the call waits for succeeds. -/
  | go
  /-- The first of the sessions is the one under the key. -/
  | first (key : Text)
  /-- There is no session. -/
  | noSession
  /-- What the call waits for fails. -/
  | fail
  | exits (ptr : Nat)

namespace SessionStore

variable (store : SessionStore)

def goFirst (session : WorkspaceSession) : SessionPhase → Option (SessionStore × SessionPhase)
  | .connectTakesShared request =>
      if store.sessionProcessIsAlive session then
        if session.matchesCodexHome request.codexHome then some (store.insertSession request.id session, .idle)
        else some (store.killSessionById session.ownerWorkspaceId, .connectSpawns request)
      else some (store.removeSessionReferences session, .connectTakesShared request)
  | .addTakesShared request =>
      if store.sessionProcessIsAlive session then some (store, .addWrites request.id session false)
      else some (store.removeSessionReferences session, .addTakesShared request)
  | .setsArgs request =>
      if (store.sessions.lookup request.id).isNone then some (store, .idle)
      else if session.codexArgs = request.codexArgs then some (store, .idle)
      else some (store, .setsSpawns request session)
  | _ => none

def goNoSession : SessionPhase → Option (SessionStore × SessionPhase)
  | .connectTakesShared request => some (store, .connectSpawns request)
  | .addTakesShared request => some (store, .addSpawns request)
  | .setsArgs _ => some (store, .idle)
  | _ => none

def go : SessionPhase → Option (SessionStore × SessionPhase)
  | .connects request =>
      match store.sessions.lookup request.id with
      | none => some (store, .connectTakesShared request)
      | some existing =>
          if store.sessionProcessIsAlive existing && existing.matchesCodexHome request.codexHome then
            some (store, .idle)
          else some (store.removeSessionReferences existing, .connectTakesShared request)
  | .connectSpawns request =>
      let (store, session) := store.spawnSession request
      some (store.insertSession request.id session, .idle)
  | .addSpawns request =>
      let (store, session) := store.spawnSession request
      some (store, .addWrites request.id session true)
  | .addWrites id session _ => some (store.insertSession id session, .idle)
  | .setsSpawns request currentSession =>
      let (store, session) := store.spawnSession request
      let store := { store with sessions := store.sessions.setAll session }
      some (store.killChildProcessTree currentSession, .idle)
  | .kills id => some (store.killSessionById id, .idle)
  | _ => none

def fail : SessionPhase → Option (SessionStore × SessionPhase)
  | .connects _ | .connectSpawns _ | .addSpawns _ | .setsArgs _ | .setsSpawns .. => some (store, .idle)
  | .addWrites _ session spawnedNewSession =>
      some (if spawnedNewSession then store.killChildProcessTree session else store, .idle)
  | _ => none

def exits (ptr : Nat) : SessionStore :=
  if store.processes[ptr]? = some .alive then { store with processes := store.processes.set ptr .exited } else store

end SessionStore

structure SessionSystem where
  store : SessionStore
  phase : SessionPhase

namespace SessionSystem

def new : SessionSystem := ⟨⟨∅, []⟩, .idle⟩

def step (s : SessionSystem) : SessionStep → Option (SessionStore × SessionPhase)
  | .call call => if s.phase = .idle ∧ call.idIsFresh s.store then some (s.store, call.phase) else none
  | .go => s.store.go s.phase
  | .first key => (s.store.sessions.lookup key).bind fun session => s.store.goFirst session s.phase
  | .noSession => if s.store.sessions.entries = [] then s.store.goNoSession s.phase else none
  | .fail => s.store.fail s.phase
  | .exits ptr => some (s.store.exits ptr, s.phase)

def advance (s : SessionSystem) (a : SessionStep) : Option SessionSystem :=
  (s.step a).map fun next => ⟨next.1, next.2⟩

def Move (s : SessionSystem) (a : SessionStep) (s' : SessionSystem) : Prop := s.advance a = some s'

end SessionSystem

end CodexStudy.Workspaces
