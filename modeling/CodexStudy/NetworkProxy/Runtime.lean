import CodexStudy.Lib.Transition
import CodexStudy.NetworkProxy.State

/-!
# The state of the proxy (`runtime.rs`)

The state stands behind a lock.
-/

namespace CodexStudy.NetworkProxy

open CodexStudy.Lib
open CodexStudy.Lib.Text (trim)

def MAX_BLOCKED_EVENTS : Nat := 200

/-! ## Deciding about a host -/

inductive HostBlockReason where
  | denied
  | notAllowed
  | notAllowedLocal
  deriving DecidableEq

def HostBlockReason.asStr : HostBlockReason → Text
  | denied => "denied"
  | notAllowed => "not_allowed"
  | notAllowedLocal => "not_allowed_local"

inductive HostBlockDecision where
  | allowed
  | blocked (reason : HostBlockReason)
  deriving DecidableEq

abbrev Lookup := Text → Nat → Option (List IpAddr)

def hostResolvesToNonPublicIp (lookup : Lookup) (host : Text) (port : Nat) : Bool :=
  match IpAddr.parse host with
  | some ip => isNonPublicIp ip
  | none =>
      match lookup host port with
      | some addrs => addrs.any isNonPublicIp
      | none => true

def isExplicitLocalAllowlisted (allowedDomains : List Text) (host : Text) : Bool :=
  allowedDomains.any fun pattern =>
    let pattern := trim pattern
    if '*' ∈ pattern ∨ '?' ∈ pattern then false
    else
      normalizeHost pattern == host || (unscopedIpLiteral host).any (normalizeHost pattern == ·)

def isLocalLiteral (host : Text) : Bool :=
  isLoopbackHost host || (IpAddr.parse ((unscopedIpLiteral host).getD host)).any isNonPublicIp

/-- An explicit denial comes first, then local networking, then the allowlist. -/
def hostBlocked (lookup : Lookup) (state : ConfigState) (host : Text) (port : Nat) : HostBlockDecision :=
  match Host.parse host with
  | none => .blocked .notAllowed
  | some host =>
      let allowedDomains := state.config.network.allowedDomains
      let isLocal :=
        !state.config.network.allowLocalBinding &&
          if isLocalLiteral host then !isExplicitLocalAllowlisted (allowedDomains.getD []) host
          else hostResolvesToNonPublicIp lookup host port
      if globsetMatchesHostOrUnscoped state.denySet host then .blocked .denied
      else if isLocal then .blocked .notAllowedLocal
      else if allowedDomains.isNone || !globsetMatchesHostOrUnscoped state.allowSet host then .blocked .notAllowed
      else .allowed

inductive NetworkProtocol where
  | http
  | httpsConnect
  | socks5Tcp
  | socks5Udp

structure NetworkPolicyRequest where
  protocol : NetworkProtocol
  host : Text
  port : Nat
  clientAddr : Option Text := none
  method : Option Text := none
  command : Option Text := none
  execPolicyHint : Option Text := none

inductive NetworkPolicyDecision where
  | deny
  | ask

inductive NetworkDecisionSource where
  | baselinePolicy
  | modeGuard
  | proxyState
  | decider

inductive NetworkDecision where
  | allow
  | deny (reason : Text) (source : NetworkDecisionSource) (decision : NetworkPolicyDecision)

def NetworkDecision.denyWithSource (reason : Text) (source : NetworkDecisionSource) : NetworkDecision :=
  .deny (if reason = [] then "policy_denied" else reason) source .deny

abbrev NetworkPolicyDecider := NetworkPolicyRequest → NetworkDecision

def mapDeciderDecision : NetworkDecision → NetworkDecision
  | .allow => .allow
  | .deny reason _ decision => .deny reason .decider decision

def evaluateHostPolicy (lookup : Lookup) (decider : Option NetworkPolicyDecider) (state : ConfigState)
    (request : NetworkPolicyRequest) : NetworkDecision :=
  match hostBlocked lookup state request.host request.port with
  | .allowed => .allow
  | .blocked .notAllowed =>
      match decider with
      | some decide => mapDeciderDecision (decide request)
      | none => .denyWithSource HostBlockReason.notAllowed.asStr .baselinePolicy
  | .blocked reason => .denyWithSource reason.asStr .baselinePolicy

/-! ## Changing the state -/

def ConfigState.keepingRecord (newState record : ConfigState) : ConfigState :=
  { newState with blocked := record.blocked, blockedTotal := record.blockedTotal }

def NetworkProxyConfig.withMode (config : NetworkProxyConfig) (mode : NetworkMode) : NetworkProxyConfig :=
  { config with network := { config.network with mode } }

variable (tools : ProxyTools) (outside : Outside) (state : ConfigState)

def ConfigState.withMode (mode : NetworkMode) : ConfigState :=
  { state with config := state.config.withMode mode }

inductive DomainListKind where
  | allow
  | deny
  deriving DecidableEq

namespace DomainListKind

def listName : DomainListKind → Text
  | allow => "allowlist"
  | deny => "denylist"

def constraintField : DomainListKind → Text
  | allow => "network.allowed_domains"
  | deny => "network.denied_domains"

def permission : DomainListKind → NetworkDomainPermission
  | allow => .allow
  | deny => .deny

def entries : DomainListKind → NetworkProxySettings → List Text
  | allow, network => network.allowedDomains.getD []
  | deny, network => network.deniedDomains.getD []

def oppositeEntries : DomainListKind → NetworkProxySettings → List Text
  | allow, network => network.deniedDomains.getD []
  | deny, network => network.allowedDomains.getD []

end DomainListKind

def containsHost (entries : List Text) (normalizedHost : Text) : Bool :=
  entries.any fun entry => normalizeHost entry == normalizedHost

def updatedState (normalizedHost : Text) (target : DomainListKind) :
    Except ProxyError (Option ConfigState) :=
  let network := state.config.network
  if containsHost (target.entries network) normalizedHost &&
      !containsHost (target.oppositeEntries network) normalizedHost then .ok none
  else do
    let candidate : NetworkProxyConfig :=
      ⟨network.upsertDomainPermission normalizedHost target.permission normalizeHost⟩
    (validatePolicyAgainstConstraints tools.urlHost candidate state.constraints).mapError fun error =>
      .context (target.constraintField ++ " constrained by managed config") (.constraint error)
    let newState ← (buildConfigState tools candidate state.constraints).mapError
      (.context ("failed to compile updated network " ++ target.listName))
    .ok (some newState)

def evictOldest : List BlockedRequest → List (BlockedRequest × List BlockedRequest) × List BlockedRequest
  | [] => ([], [])
  | entry :: later =>
      if MAX_BLOCKED_EVENTS < (entry :: later).length then
        ((entry, later) :: (evictOldest later).1, (evictOldest later).2)
      else ([], entry :: later)

def saturatingSucc (n : Nat) : Nat := min (n + 1) (2 ^ 64 - 1)

/-! ## Operations in steps -/

inductive ReloadAnswer where
  | unchanged
  | fresh (newState : ConfigState)
  | failed (error : ProxyError)

structure Outside where
  reload : ReloadAnswer := .unchanged
  lookup : Lookup := fun _ _ => none
  decider : Option NetworkPolicyDecider := none

inductive Operation where
  | reloadIfNeeded
  | forceReload
  | replaceConfigState (newState : ConfigState)
  | recordBlocked (entry : BlockedRequest)
  | drainBlocked
  | updateDomainList (host : Text) (target : DomainListKind)
  | setNetworkMode (mode : NetworkMode)
  | evaluateHostPolicy (request : NetworkPolicyRequest)

inductive Outcome where
  | ok
  | drained (entries : List BlockedRequest)
  | decided (decision : NetworkDecision)
  | failed (error : ProxyError)

/-- How far an operation has come. A state in a phase is about to be written. -/
inductive Phase where
  | called
  | checkReload
  | readRecord (newState : ConfigState)
  | writeReload (newState : ConfigState)
  | act
  | writeForced (newState : ConfigState)
  | writeUpdate (newState : ConfigState) (previousCfg : NetworkProxyConfig) (constraints : NetworkProxyConstraints)
  | writeMode (mode : NetworkMode) (constraints : NetworkProxyConstraints)
  | returned (outcome : Outcome)

inductive Event where
  | recorded (entry : BlockedRequest)
  | evicted (entry : BlockedRequest) (later : List BlockedRequest)
  | drained (entries : List BlockedRequest)

def goTo (phase : Phase) : ConfigState × Phase × List Event := (state, phase, [])

/-- The first step with the lock, after the reload. -/
def act :
    Operation → ConfigState × Phase × List Event
  | .reloadIfNeeded | .forceReload => goTo state (.returned .ok)
  | .replaceConfigState newState => goTo (newState.keepingRecord state) (.returned .ok)
  | .recordBlocked entry =>
      let (evicted, kept) := evictOldest (state.blocked ++ [entry])
      ({ state with blocked := kept, blockedTotal := saturatingSucc state.blockedTotal }, .returned .ok,
        .recorded entry :: evicted.map fun (entry, later) => .evicted entry later)
  | .drainBlocked =>
      ({ state with blocked := [] }, .returned (.drained state.blocked), [.drained state.blocked])
  | .updateDomainList host target =>
      match updatedState tools state (normalizeHost host) target with
      | .error error => goTo state (.returned (.failed error))
      | .ok none => goTo state (.returned .ok)
      | .ok (some newState) => goTo state (.writeUpdate (newState.keepingRecord state) state.config state.constraints)
  | .setNetworkMode mode =>
      match validatePolicyAgainstConstraints tools.urlHost (state.config.withMode mode) state.constraints with
      | .error error =>
          goTo state (.returned (.failed (.context "network.mode constrained by managed config"
            (.constraint error))))
      | .ok _ => goTo state (.writeMode mode state.constraints)
  | .evaluateHostPolicy request =>
      goTo state (.returned (.decided (evaluateHostPolicy outside.lookup outside.decider state request)))

/-- The first step: a host for a list must be valid, and a forced reload does not ask whether one is
needed. -/
def call : Operation → ConfigState × Phase × List Event
  | .forceReload =>
      match outside.reload with
      | .fresh newState => goTo state (.writeForced newState)
      | .failed error => goTo state (.returned (.failed error))
      | .unchanged => goTo state .called
  | .updateDomainList host _ =>
      match Host.parse host with
      | some _ => goTo state .checkReload
      | none => goTo state (.returned (.failed (.context "invalid network host" (.message "host is empty"))))
  | _ => goTo state .checkReload

/-- One step of an operation. Where the state has changed since it was read, an update starts again. -/
def advance (operation : Operation) (state : ConfigState) :
    Phase → ConfigState × Phase × List Event
  | .called => call outside state operation
  | .checkReload =>
      match outside.reload with
      | .unchanged => goTo state .act
      | .fresh newState => goTo state (.readRecord newState)
      | .failed error => goTo state (.returned (.failed error))
  | .readRecord newState => goTo state (.writeReload (newState.keepingRecord state))
  | .writeReload newState => goTo newState .act
  | .act => act tools outside state operation
  | .writeForced newState => goTo { newState with blocked := state.blocked } (.returned .ok)
  | .writeUpdate newState previousCfg constraints =>
      if state.constraints ≠ constraints ∨ state.config ≠ previousCfg then goTo state .checkReload
      else goTo newState (.returned .ok)
  | .writeMode mode constraints =>
      if state.constraints ≠ constraints then goTo state .checkReload
      else goTo (state.withMode mode) (.returned .ok)
  | .returned outcome => goTo state (.returned outcome)

/-! ## Tasks -/

structure ProxySystem (Task : Type) where
  state : ConfigState
  phases : Task → Phase
  events : List (Task × Event)

structure Move (Task : Type) where
  task : Task
  outside : Outside := {}

section

variable {Task : Type} [DecidableEq Task]

def ProxySystem.start (state : ConfigState) : ProxySystem Task := ⟨state, fun _ => .called, []⟩

def ProxySystem.move (tools : ProxyTools) (operations : Task → Operation) (s : ProxySystem Task) (m : Move Task) :
    ProxySystem Task :=
  let (state, phase, events) := advance tools m.outside (operations m.task) s.state (s.phases m.task)
  ⟨state, Function.update s.phases m.task phase, s.events ++ events.map fun event => (m.task, event)⟩

/-- One step of one task. -/
def ProxyStep (tools : ProxyTools) (operations : Task → Operation) (s : ProxySystem Task) (m : Move Task)
    (s' : ProxySystem Task) : Prop := s' = s.move tools operations m

end

end CodexStudy.NetworkProxy
