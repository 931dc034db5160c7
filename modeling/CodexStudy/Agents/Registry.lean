import CodexStudy.Agents.Mailbox
import CodexStudy.Lib.HashMap
import Mathlib.Data.Finset.Option

/-!
# The registry of agents (`agent/registry.rs`)

The count of agents is an atomic number beside the tree, which is behind a lock.
-/

namespace CodexStudy.Agents

open CodexStudy.Lib

abbrev ThreadId := Text

/-! ## State -/

structure AgentMetadata where
  agentId : Option ThreadId := none
  agentPath : Option AgentPath := none
  agentNickname : Option Text := none
  agentRole : Option Text := none
  lastTaskMessage : Option Text := none

structure ActiveAgents where
  agentTree : HashMap Text AgentMetadata := ∅
  usedAgentNicknames : Finset Text := ∅
  nicknameResetCount : Nat := 0

structure AgentRegistry where
  activeAgents : ActiveAgents := {}
  totalCount : UInt64 := 0

structure SpawnReservation where
  reservedAgentNickname : Option Text := none
  reservedAgentPath : Option AgentPath := none

inductive CodexErr where
  | agentLimitReached (maxThreads : UInt64)
  | unsupportedOperation (message : Text)

/-! ## Nicknames -/

def ordinalSuffix (value : Nat) : Text :=
  if 11 ≤ value % 100 ∧ value % 100 ≤ 13 then ['t', 'h']
  else
    match value % 10 with
    | 1 => ['s', 't']
    | 2 => ['n', 'd']
    | 3 => ['r', 'd']
    | _ => ['t', 'h']

def formatAgentNickname (name : Text) : (nicknameResetCount : Nat) → Text
  | 0 => name
  | resetCount + 1 =>
      let value := resetCount + 1 + 1
      name ++ " the " ++ (Nat.toDigits 10 value ++ ordinalSuffix value)

def PlainNames (names : List Text) : Prop := ∀ name ∈ names, ¬ " the " <:+: name

instance (names : List Text) : Decidable (PlainNames names) := by
  unfold PlainNames
  infer_instance

def choose {α : Type} (random : Nat) (xs : List α) : Option α := xs[random % xs.length]?

/-! ## Critical sections -/

namespace AgentMetadata

def isRoot (metadata : AgentMetadata) : Bool := metadata.agentPath.any (·.isRoot)

def key (metadata : AgentMetadata) (threadId : ThreadId) : Text :=
  match metadata.agentPath with
  | some agentPath => agentPath.text
  | none => "thread:" ++ threadId

end AgentMetadata

namespace ActiveAgents

variable (agents : ActiveAgents)

def removeThread (key : Text) : ActiveAgents := { agents with agentTree := agents.agentTree.erase key }

def registerRootThread (threadId : ThreadId) : ActiveAgents :=
  match agents.agentTree.lookup ROOT with
  | some _ => agents
  | none =>
      { agents with
        agentTree := agents.agentTree.insert ROOT { agentId := some threadId, agentPath := some .root } }

def registerSpawnedThread (metadata : AgentMetadata) : ActiveAgents :=
  match metadata.agentId with
  | none => agents
  | some threadId =>
      { agents with
        usedAgentNicknames := agents.usedAgentNicknames ∪ metadata.agentNickname.toFinset
        agentTree := agents.agentTree.insert (metadata.key threadId) metadata }

def useNickname (nickname : Text) : ActiveAgents :=
  { agents with usedAgentNicknames := insert nickname agents.usedAgentNicknames }

def availableNames (names : List Text) : List Text :=
  (names.map fun name => formatAgentNickname name agents.nicknameResetCount).filter
    fun name => name ∉ agents.usedAgentNicknames

def resetNicknames : ActiveAgents :=
  { agents with usedAgentNicknames := ∅, nicknameResetCount := agents.nicknameResetCount + 1 }

def reserveAgentNickname (names : List Text) (preferred : Option Text) (random : Nat) : Option (Text × ActiveAgents) :=
  match preferred with
  | some nickname => some (nickname, agents.useNickname nickname)
  | none =>
      match choose random (agents.availableNames names) with
      | some nickname => some (nickname, agents.useNickname nickname)
      | none =>
          (choose random names).map fun name =>
            let agents := agents.resetNicknames
            let nickname := formatAgentNickname name agents.nicknameResetCount
            (nickname, agents.useNickname nickname)

def reserveAgentPath (agentPath : AgentPath) : Except CodexErr ActiveAgents :=
  match agents.agentTree.lookup agentPath.text with
  | some _ =>
      .error (.unsupportedOperation ("agent path `" ++ agentPath.text ++ "` already exists"))
  | none =>
      .ok { agents with
            agentTree := agents.agentTree.insert agentPath.text { agentPath := some agentPath } }

def releaseReservedAgentPath (agentPath : AgentPath) : ActiveAgents :=
  if (agents.agentTree.lookup agentPath.text).any (·.agentId.isNone) then
    { agents with agentTree := agents.agentTree.erase agentPath.text }
  else agents

end ActiveAgents

/-! ## Tasks -/

/-- Where a task stands: a reservation it holds, or the atomic step that comes next. -/
inductive AgentPhase where
  | idle
  | loads
  | exchanges (current : UInt64)
  | holds (reservation : SpawnReservation)
  | dropsSlot
  | releasesSlot

structure AgentsShared where
  registry : AgentRegistry := {}
  threadIds : Finset ThreadId := ∅

inductive RegistryStep where
  | reserveSpawnSlot
  | go
  | failsWeakly
  | reserveAgentNickname (names : List Text) (random : Nat)
  | reserveAgentPath (agentPath : AgentPath)
  | commit (metadata : AgentMetadata)
  | drop
  | releaseSpawnedThread (threadId : ThreadId) (key : Option Text)
  | registerRootThread (threadId : ThreadId)

namespace AgentsShared

variable (shared : AgentsShared)

def withAgents (agents : ActiveAgents) : AgentsShared := { shared with registry.activeAgents := agents }

def agents : ActiveAgents := shared.registry.activeAgents

/-- The two atomic steps of `try_increment_spawned`, and the last one of a drop and of a release. -/
def go (maxThreads : UInt64) : AgentPhase → Option (AgentsShared × AgentPhase)
  | .loads => some (shared, .exchanges shared.registry.totalCount)
  | .exchanges current =>
      if current ≥ maxThreads then some (shared, .idle)
      else if shared.registry.totalCount = current then
        some ({ shared with registry.totalCount := current + 1 }, .holds {})
      else some (shared, .exchanges shared.registry.totalCount)
  | .dropsSlot | .releasesSlot =>
      some ({ shared with registry.totalCount := shared.registry.totalCount - 1 }, .idle)
  | .idle | .holds _ => none

def MayCommit (reservation : SpawnReservation) (metadata : AgentMetadata) (threadId : ThreadId) : Prop :=
  metadata.agentId = some threadId ∧ threadId ∉ shared.threadIds ∧
    (metadata.agentPath = none ∨ metadata.agentPath = reservation.reservedAgentPath ∧ metadata.isRoot = false) ∧
    (metadata.agentNickname = none ∨ metadata.agentNickname = reservation.reservedAgentNickname)

instance (reservation : SpawnReservation) (metadata : AgentMetadata) (threadId : ThreadId) :
    Decidable (shared.MayCommit reservation metadata threadId) := by
  unfold MayCommit
  infer_instance

def commit (metadata : AgentMetadata) (threadId : ThreadId) : AgentsShared :=
  { shared with
    registry.activeAgents := shared.agents.registerSpawnedThread metadata
    threadIds := insert threadId shared.threadIds }

def drop (reservation : SpawnReservation) : AgentsShared :=
  match reservation.reservedAgentPath with
  | some agentPath => shared.withAgents (shared.agents.releaseReservedAgentPath agentPath)
  | none => shared

/-- The first step of a release. Only an agent that is not the root one is counted. -/
def release (threadId : ThreadId) : Option Text → Option (AgentsShared × AgentPhase)
  | none =>
      if ∀ entry ∈ shared.agents.agentTree.entries, entry.2.agentId ≠ some threadId then some (shared, .idle) else none
  | some key =>
      match shared.agents.agentTree.lookup key with
      | some metadata =>
          if metadata.agentId = some threadId then
            some (shared.withAgents (shared.agents.removeThread key),
              if metadata.isRoot then .idle else .releasesSlot)
          else none
      | none => none

def use (reservation : SpawnReservation) : RegistryStep → Option (AgentsShared × AgentPhase)
  | .reserveAgentNickname names random =>
      if PlainNames names then
        match shared.agents.reserveAgentNickname names none random with
        | some (nickname, agents) =>
            some (shared.withAgents agents, .holds { reservation with reservedAgentNickname := some nickname })
        | none => some (shared, .holds reservation)
      else none
  | .reserveAgentPath agentPath =>
      match shared.agents.reserveAgentPath agentPath with
      | .ok agents => some (shared.withAgents agents, .holds { reservation with reservedAgentPath := some agentPath })
      | .error _ => some (shared, .holds reservation)
  | .commit metadata =>
      match metadata.agentId with
      | some threadId =>
          if shared.MayCommit reservation metadata threadId then some (shared.commit metadata threadId, .idle) else none
      | none => none
  | .drop => some (shared.drop reservation, .dropsSlot)
  | _ => none

end AgentsShared

/-- A step of the task `t`. A weak exchange may fail although nothing has changed. -/
def AgentsShared.step (maxThreads : UInt64) (_ : Nat) (shared : AgentsShared) (phase : AgentPhase)
    (step : RegistryStep) : Option (AgentsShared × AgentPhase) :=
  match phase, step with
  | .idle, .reserveSpawnSlot => some (shared, .loads)
  | .idle, .releaseSpawnedThread threadId key => shared.release threadId key
  | .idle, .registerRootThread threadId =>
      some ({ shared.withAgents (shared.agents.registerRootThread threadId) with
              threadIds := insert threadId shared.threadIds }, .idle)
  | .exchanges current, .failsWeakly =>
      if current < maxThreads then some (shared, .exchanges shared.registry.totalCount) else none
  | .holds reservation, step => shared.use reservation step
  | phase, .go => shared.go maxThreads phase
  | _, _ => none

abbrev AgentSystem := Tasks AgentsShared AgentPhase

def AgentSystem.new : AgentSystem := ⟨{}, fun _ => .idle⟩

abbrev AgentMove (maxThreads : UInt64) (s : AgentSystem) (a : Nat × RegistryStep) (s' : AgentSystem) : Prop :=
  Tasks.Move (AgentsShared.step maxThreads) s a s'

end CodexStudy.Agents
