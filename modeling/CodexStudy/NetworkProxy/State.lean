import CodexStudy.NetworkProxy.Policy
import CodexStudy.Lib.Effect

/-!
# Managed constraints

A managed configuration constrains the configuration of the user.
-/

namespace CodexStudy.NetworkProxy

open CodexStudy.Lib
open CodexStudy.Lib.Text (trim toAsciiLowercase)

/-! ## Configuration of the proxy -/

inductive NetworkDomainPermission where
  | none
  | allow
  | deny
  deriving DecidableEq

def NetworkDomainPermission.rank : NetworkDomainPermission → Nat
  | none => 0
  | allow => 1
  | deny => 2

def NetworkDomainPermission.stronger (p q : NetworkDomainPermission) : NetworkDomainPermission :=
  if p.rank < q.rank then q else p

structure NetworkDomainPermissionEntry where
  pattern : Text
  permission : NetworkDomainPermission
  deriving DecidableEq

structure NetworkDomainPermissions where
  entries : List NetworkDomainPermissionEntry
  deriving DecidableEq

namespace NetworkDomainPermissions

def effectivePermission (domains : NetworkDomainPermissions) (pattern : Text) : NetworkDomainPermission :=
  ((domains.entries.filter fun entry => entry.pattern == pattern).map
    NetworkDomainPermissionEntry.permission).foldl NetworkDomainPermission.stronger .none

def effectiveEntries (domains : NetworkDomainPermissions) : List NetworkDomainPermissionEntry :=
  (domains.entries.map NetworkDomainPermissionEntry.pattern).eraseDups.map fun pattern =>
    ⟨pattern, domains.effectivePermission pattern⟩

end NetworkDomainPermissions

inductive NetworkUnixSocketPermission where
  | allow
  | none
  deriving DecidableEq

inductive NetworkMode where
  | limited
  | full
  deriving DecidableEq

/-- The socket paths stand in the order of the map that they come from. -/
structure NetworkProxySettings where
  enabled : Bool := false
  proxyUrl : Text := "http://127.0.0.1:3128"
  enableSocks5 : Bool := true
  socksUrl : Text := "http://127.0.0.1:8081"
  enableSocks5Udp : Bool := true
  allowUpstreamProxy : Bool := true
  dangerouslyAllowNonLoopbackProxy : Bool := false
  dangerouslyAllowAllUnixSockets : Bool := false
  mode : NetworkMode := .full
  domains : Option NetworkDomainPermissions := none
  unixSockets : Option (List (Text × NetworkUnixSocketPermission)) := none
  allowLocalBinding : Bool := false
  mitm : Bool := false
  deriving DecidableEq

namespace NetworkProxySettings

variable (settings : NetworkProxySettings)

def domainEntries (permission : NetworkDomainPermission) : Option (List Text) :=
  (settings.domains.map fun domains =>
    (domains.effectiveEntries.filter fun entry => entry.permission == permission).map
      NetworkDomainPermissionEntry.pattern).filter fun entries => !entries.isEmpty

def allowedDomains : Option (List Text) := settings.domainEntries .allow

def deniedDomains : Option (List Text) := settings.domainEntries .deny

def allowUnixSockets : List Text :=
  ((settings.unixSockets.getD []).filter fun entry => entry.2 == .allow).map Prod.fst

def upsertDomainPermission (host : Text) (permission : NetworkDomainPermission)
    (normalize : Text → Text) : NetworkProxySettings :=
  let entries := (settings.domains.map NetworkDomainPermissions.entries).getD []
  { settings with
    domains := some ⟨(entries.filter fun entry => normalize entry.pattern != normalize host) ++ [⟨host, permission⟩]⟩ }

end NetworkProxySettings

structure NetworkProxyConfig where
  network : NetworkProxySettings := {}
  deriving DecidableEq

structure NetworkProxyConstraints where
  enabled : Option Bool := none
  mode : Option NetworkMode := none
  allowUpstreamProxy : Option Bool := none
  dangerouslyAllowNonLoopbackProxy : Option Bool := none
  dangerouslyAllowAllUnixSockets : Option Bool := none
  allowedDomains : Option (List Text) := none
  allowlistExpansionEnabled : Option Bool := none
  deniedDomains : Option (List Text) := none
  denylistExpansionEnabled : Option Bool := none
  allowUnixSockets : Option (List Text) := none
  allowLocalBinding : Option Bool := none
  deriving DecidableEq

inductive ShownValue where
  | text (text : Text)
  | entries (entries : List Text)
  deriving DecidableEq

/-- `InvalidValue`. -/
structure NetworkProxyConstraintError where
  fieldName : Text
  candidate : ShownValue
  allowed : ShownValue
  deriving DecidableEq

def invalidValue (fieldName : String) (candidate : ShownValue) (allowed : String) : NetworkProxyConstraintError :=
  ⟨fieldName.toList, candidate, .text allowed.toList⟩

def networkModeRank : NetworkMode → Nat
  | .limited => 0
  | .full => 1

def NetworkMode.debug : NetworkMode → Text
  | .limited => "Limited"
  | .full => "Full"

/-! ## The checks -/

def validateNonGlobalWildcardDomainPatterns (fieldName : String) (patterns : List Text) :
    Except NetworkProxyConstraintError Unit :=
  match patterns.find? isGlobalWildcardDomainPattern with
  | some pattern =>
      .error (invalidValue fieldName (.text (trim pattern))
        "exact hosts or scoped wildcards like *.example.com or **.example.com")
  | none => .ok ()

def validateFlag (fieldName : String) (candidate allowed : Bool) : Except NetworkProxyConstraintError Unit :=
  if candidate && !allowed then
    .error (invalidValue fieldName (.text "true") "false (disabled by managed config)")
  else .ok ()

def validateMode (candidate : NetworkMode) (maxMode : Option NetworkMode) : Except NetworkProxyConstraintError Unit :=
  match maxMode with
  | some maxMode =>
      if networkModeRank maxMode < networkModeRank candidate then
        .error ⟨"network.mode", .text candidate.debug, .text (maxMode.debug ++ " or more restrictive")⟩
      else .ok ()
  | none => .ok ()

def lowercased (entries : List Text) : List Text := entries.map toAsciiLowercase

def sameEntries (xs ys : List Text) : Bool := xs.all (ys.contains ·) && ys.all (xs.contains ·)

variable (urlHost : Text → Option Text) (config : NetworkProxyConfig) (constraints : NetworkProxyConstraints)

def notAllowed (managed candidates : List Text) : List Text :=
  candidates.filter fun entry => !managed.any fun pattern =>
    (DomainPattern.parseForConstraints urlHost pattern).allows (DomainPattern.parseForConstraints urlHost entry)

def validateAllowedDomains : Except NetworkProxyConstraintError Unit :=
  let candidate := config.network.allowedDomains.getD []
  let deniedDomainOverrides := lowercased (config.network.deniedDomains.getD [])
  match constraints.allowedDomains with
  | none => .ok ()
  | some allowedDomains => do
      validateNonGlobalWildcardDomainPatterns "network.allowed_domains" allowedDomains
      match constraints.allowlistExpansionEnabled with
      | some true =>
          let missing := (lowercased allowedDomains).eraseDups.filter fun entry =>
            !(lowercased candidate).contains entry && !deniedDomainOverrides.contains entry
          if missing = [] then .ok ()
          else
            .error ⟨"network.allowed_domains", .text "missing managed allowed_domains entries",
              .entries missing⟩
      | some false =>
          let expected := (lowercased allowedDomains).filter fun entry => !deniedDomainOverrides.contains entry
          if sameEntries (lowercased candidate) expected then .ok ()
          else .error (invalidValue "network.allowed_domains" (.entries candidate) "must match managed allowed_domains")
      | none =>
          let invalid := notAllowed urlHost allowedDomains candidate
          if invalid = [] then .ok ()
          else .error (invalidValue "network.allowed_domains" (.entries invalid) "subset of managed allowed_domains")

def missingDenied (deniedDomains : List Text) : List Text :=
  (lowercased deniedDomains).eraseDups.filter fun entry =>
    !(lowercased (config.network.deniedDomains.getD [])).contains entry

def validateDeniedDomains :
    Except NetworkProxyConstraintError Unit :=
  let candidate := config.network.deniedDomains.getD []
  match constraints.deniedDomains with
  | none => .ok ()
  | some deniedDomains => do
      validateNonGlobalWildcardDomainPatterns "network.denied_domains" deniedDomains
      match constraints.denylistExpansionEnabled with
      | some false =>
          if sameEntries (lowercased candidate) (lowercased deniedDomains) then .ok ()
          else .error (invalidValue "network.denied_domains" (.entries candidate) "must match managed denied_domains")
      | some true | none =>
          if missingDenied config deniedDomains = [] then .ok ()
          else
            .error ⟨"network.denied_domains", .text "missing managed denied_domains entries",
              .entries (missingDenied config deniedDomains)⟩

def validateUnixSockets :
    Except NetworkProxyConstraintError Unit :=
  match constraints.allowUnixSockets with
  | none => .ok ()
  | some allowUnixSockets =>
      let invalid := config.network.allowUnixSockets.filter fun entry =>
        !(lowercased allowUnixSockets).contains (toAsciiLowercase entry)
      if invalid = [] then .ok ()
      else
        .error (invalidValue "network.allow_unix_sockets" (.entries invalid) "subset of managed allow_unix_sockets")

def validatePolicyAgainstConstraints : Except NetworkProxyConstraintError Unit := do
  validateNonGlobalWildcardDomainPatterns "network.denied_domains" (config.network.deniedDomains.getD [])
  validateFlag "network.enabled" config.network.enabled (constraints.enabled.getD true)
  validateMode config.network.mode constraints.mode
  validateFlag "network.allow_upstream_proxy" config.network.allowUpstreamProxy
    (constraints.allowUpstreamProxy.getD true)
  validateFlag "network.dangerously_allow_non_loopback_proxy" config.network.dangerouslyAllowNonLoopbackProxy
    (constraints.dangerouslyAllowNonLoopbackProxy.getD true)
  validateFlag "network.dangerously_allow_all_unix_sockets" config.network.dangerouslyAllowAllUnixSockets
    (constraints.dangerouslyAllowAllUnixSockets.getD constraints.allowUnixSockets.isNone)
  validateFlag "network.allow_local_binding" config.network.allowLocalBinding
    (constraints.allowLocalBinding.getD true)
  validateAllowedDomains urlHost config constraints
  validateDeniedDomains config constraints
  validateUnixSockets config constraints

/-! ## States -/

structure BlockedRequest where
  host : Text
  reason : Text
  client : Option Text
  method : Option Text
  mode : Option NetworkMode
  protocol : Text
  decision : Option Text
  source : Option Text
  port : Option Nat
  timestamp : Int

structure MitmUpstreamConfig where
  allowUpstreamProxy : Bool
  allowLocalBinding : Bool

structure ConfigState where
  config : NetworkProxyConfig
  allowSet : GlobSet
  denySet : GlobSet
  mitm : Option MitmUpstreamConfig
  constraints : NetworkProxyConstraints
  blocked : List BlockedRequest
  blockedTotal : Nat

structure ProxyTools where
  globBuilder : GlobBuilder
  urlHost : Text → Option Text
  mitmNew : MitmUpstreamConfig → Except Text Unit

inductive ProxyError where
  | message (text : Text)
  | constraint (error : NetworkProxyConstraintError)
  | context (text : Text) (error : ProxyError)

def validateUnixSocketAllowlistPaths : Except Text Unit :=
  match config.network.allowUnixSockets.findIdx? fun path => path.head? != some '/' with
  | some index => .error ("invalid network.allow_unix_sockets[" ++ (toString index).toList ++ "]")
  | none => .ok ()

def buildMitm (tools : ProxyTools) (config : NetworkProxyConfig) : Except Text (Option MitmUpstreamConfig) :=
  if config.network.mitm then
    let upstream : MitmUpstreamConfig := ⟨config.network.allowUpstreamProxy, config.network.allowLocalBinding⟩
    (tools.mitmNew upstream).map fun _ => some upstream
  else .ok none

def buildConfigState (tools : ProxyTools) (config : NetworkProxyConfig) (constraints : NetworkProxyConstraints) :
    Except ProxyError ConfigState := do
  (validateUnixSocketAllowlistPaths config).mapError ProxyError.message
  let deniedDomains := config.network.deniedDomains.getD []
  (validateNonGlobalWildcardDomainPatterns "network.denied_domains" deniedDomains).mapError ProxyError.constraint
  let denySet ← (compileDenylistGlobset tools.globBuilder deniedDomains).mapError ProxyError.message
  let allowSet ← (compileAllowlistGlobset tools.globBuilder (config.network.allowedDomains.getD [])).mapError
    ProxyError.message
  let mitm ← (buildMitm tools config).mapError ProxyError.message
  .ok ⟨config, allowSet, denySet, mitm, constraints, [], 0⟩

end CodexStudy.NetworkProxy
