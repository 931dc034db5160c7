import CodexStudy.Lib.HashMap
import CodexStudy.NetworkProxy.Runtime
import Mathlib.Data.Finset.Basic

/-!
# Network approvals (`core/src/tools/network_approval.rs`)

A request for a host that is neither approved nor denied makes an entry for the host and asks for a decision.
-/

namespace CodexStudy.Core.NetworkApproval

open CodexStudy.Lib
open CodexStudy.Lib.Text (toAsciiLowercase)
open CodexStudy.NetworkProxy (NetworkDecision NetworkPolicyRequest NetworkProtocol)

/-! ## Keys and decisions -/

inductive NetworkApprovalProtocol where
  | http
  | https
  | socks5Tcp
  | socks5Udp

def approvalProtocol : NetworkProtocol → NetworkApprovalProtocol
  | .http => .http
  | .httpsConnect => .https
  | .socks5Tcp => .socks5Tcp
  | .socks5Udp => .socks5Udp

def protocolKeyLabel : NetworkApprovalProtocol → Text
  | .http => "http"
  | .https => "https"
  | .socks5Tcp => "socks5-tcp"
  | .socks5Udp => "socks5-udp"

structure HostApprovalKey where
  host : Text
  protocol : Text
  port : Nat
  deriving DecidableEq

def HostApprovalKey.fromRequest (request : NetworkPolicyRequest) (protocol : NetworkApprovalProtocol) :
    HostApprovalKey where
  host := toAsciiLowercase request.host
  protocol := protocolKeyLabel protocol
  port := request.port

inductive PendingApprovalDecision where
  | allowOnce
  | allowForSession
  | deny
  deriving DecidableEq

def REASON_NOT_ALLOWED : Text := "not_allowed"

def notAllowed : NetworkDecision := .denyWithSource REASON_NOT_ALLOWED .decider

def PendingApprovalDecision.toNetworkDecision : PendingApprovalDecision → NetworkDecision
  | allowOnce | allowForSession => .allow
  | deny => notAllowed

inductive NetworkApprovalOutcome where
  | deniedByUser
  | deniedByPolicy (message : Text)
  deriving DecidableEq

structure PendingHostApproval where
  decision : Option PendingApprovalDecision := none
  notified : Nat := 0

def PendingHostApproval.setDecision (approval : PendingHostApproval) (decision : PendingApprovalDecision) :
    PendingHostApproval :=
  ⟨some decision, approval.notified + 1⟩

/-! ## Active calls -/

structure NetworkApprovalCallState where
  activeCalls : List Text := []
  callOutcomes : HashMap Text NetworkApprovalOutcome := ∅
  cancelled : List Text := []

namespace NetworkApprovalCallState

variable (calls : NetworkApprovalCallState) (registrationId : Text)

def registerCall : NetworkApprovalCallState :=
  if registrationId ∈ calls.activeCalls then calls
  else { calls with activeCalls := calls.activeCalls ++ [registrationId] }

def removeCall : NetworkApprovalCallState :=
  { calls with
    activeCalls := calls.activeCalls.erase registrationId
    callOutcomes := calls.callOutcomes.erase registrationId }

def resolveSingleActiveCall : Option Text :=
  match calls.activeCalls with
  | [registrationId] => some registrationId
  | _ => none

def recordCallOutcome (outcome : NetworkApprovalOutcome) : NetworkApprovalCallState :=
  if registrationId ∉ calls.activeCalls then calls
  else if calls.callOutcomes.lookup registrationId = some .deniedByUser then calls
  else
    { calls with
      callOutcomes := calls.callOutcomes.insert registrationId outcome
      cancelled := calls.cancelled ++ [registrationId] }

end NetworkApprovalCallState

/-! ## The service -/

/-- An entry of the map is the number of a pending approval, and `created` is the number of the next one. -/
structure NetworkApprovalService where
  calls : NetworkApprovalCallState := {}
  pendingHostApprovals : HashMap HostApprovalKey Nat := ∅
  sessionApprovedHosts : Finset HostApprovalKey := ∅
  sessionDeniedHosts : Finset HostApprovalKey := ∅
  approvals : Nat → PendingHostApproval := fun _ => {}
  created : Nat := 0

structure TurnContext where
  permissionProfileIsManaged : Bool
  approvalPolicyIsNever : Bool
  routesApprovalToGuardian : Bool

inductive PermissionRequestDecision where
  | allow
  | deny (message : Text)

inductive NetworkPolicyRuleAction where
  | allow
  | deny

inductive ReviewDecision where
  | approved
  | approvedExecpolicyAmendment
  | approvedForSession
  | networkPolicyAmendment (action : NetworkPolicyRuleAction)
  | denied
  | timedOut
  | abort

def GUARDIAN_TIMEOUT_INSTRUCTIONS : Text :=
  ("The automatic permission approval review did not finish before its deadline. " ++
    "Do not assume the action is unsafe based on the timeout alone. " ++
    "You may retry once, or ask the user for guidance or explicit approval.").toList

/-! ## A request, from one `await` to the next -/

/-- The request that has made the entry for the key. -/
structure Owner where
  key : HostApprovalKey
  approval : Nat
  requestHost : Text

def Owner.target (o : Owner) : Text :=
  o.key.protocol ++ "://" ++ o.requestHost ++ ":" ++ Nat.toDigits 10 o.key.port

def Owner.policyDenialMessage (o : Owner) : Text :=
  "Network access to \"" ++ o.target ++ "\" was blocked by policy."

/-- The decision of the owner, whether it is cached as a denial, and what it records when the entry is gone. -/
structure Conclusion where
  decision : PendingApprovalDecision
  cacheSessionDeny : Bool := false
  afterwards : Option NetworkApprovalOutcome := none

inductive Phase where
  | idle
  | checksDenied (request : NetworkPolicyRequest)
  | checksApproved (request : NetworkPolicyRequest)
  | getsPending (request : NetworkPolicyRequest)
  | looks (approval seen : Nat)
  | waits (approval seen : Nat)
  | readsTurn (o : Owner)
  | resolvesCall (o : Owner) (turn : TurnContext)
  | runsHooks (o : Owner) (turn : TurnContext) (call : Option Text)
  | reviews (o : Owner) (turn : TurnContext) (call : Option Text)
  | persists (o : Owner) (call : Option Text) (action : NetworkPolicyRuleAction)
  | informs (o : Owner) (call : Option Text) (action : NetworkPolicyRuleAction)
  | readsRejection (o : Owner) (call : Text)
  | recordsOutcome (o : Owner) (call : Text) (outcome : NetworkApprovalOutcome) (c : Conclusion)
  | forgetsDenied (o : Owner) (c : Conclusion)
  | approves (o : Owner) (c : Conclusion)
  | forgetsApproved (o : Owner) (c : Conclusion)
  | denies (o : Owner) (c : Conclusion)
  | decides (o : Owner) (c : Conclusion)
  | removes (o : Owner) (c : Conclusion)
  | resolvesBlocked (o : Owner) (outcome : NetworkApprovalOutcome)
  | recordsBlocked (o : Owner) (call : Text) (outcome : NetworkApprovalOutcome)
  | finished (decision : NetworkDecision)
  | dropped

namespace Phase

def cached (o : Owner) (c : Conclusion) : Phase := if c.cacheSessionDeny then forgetsApproved o c else decides o c

def concluded (o : Owner) (c : Conclusion) : Phase :=
  if c.decision = .allowForSession then forgetsDenied o c else cached o c

def recording (o : Owner) (call : Option Text) (outcome : NetworkApprovalOutcome) (c : Conclusion) : Phase :=
  match call with
  | some call => recordsOutcome o call outcome c
  | none => concluded o c

/-- The owner gives up before it asks. -/
def blocked (o : Owner) : Phase :=
  decides o { decision := .deny, afterwards := some (.deniedByPolicy o.policyDenialMessage) }

end Phase

def HostApprovalKey.ofRequest (request : NetworkPolicyRequest) : HostApprovalKey :=
  .fromRequest request (approvalProtocol request.protocol)

namespace NetworkApprovalService

variable (service : NetworkApprovalService)

def getOrCreatePendingApproval (request : NetworkPolicyRequest) : NetworkApprovalService × Phase :=
  let key := HostApprovalKey.ofRequest request
  match service.pendingHostApprovals.lookup key with
  | some approval => (service, .looks approval (service.approvals approval).notified)
  | none =>
      ({ service with
        pendingHostApprovals := service.pendingHostApprovals.insert key service.created
        created := service.created + 1 }, .readsTurn ⟨key, service.created, request.host⟩)

def setDecision (approval : Nat) (decision : PendingApprovalDecision) : NetworkApprovalService :=
  { service with
    approvals := Function.update service.approvals approval ((service.approvals approval).setDecision decision) }

def recordCallOutcome (call : Text) (outcome : NetworkApprovalOutcome) : NetworkApprovalService :=
  { service with calls := service.calls.recordCallOutcome call outcome }

/-- What a request does once it gets the lock it waits for. -/
def go : Phase → Option (NetworkApprovalService × Phase)
  | .checksDenied request =>
      some (service,
        if HostApprovalKey.ofRequest request ∈ service.sessionDeniedHosts then .finished notAllowed
        else .checksApproved request)
  | .checksApproved request =>
      some (service,
        if HostApprovalKey.ofRequest request ∈ service.sessionApprovedHosts then .finished .allow
        else .getsPending request)
  | .getsPending request => some (service.getOrCreatePendingApproval request)
  | .looks approval seen =>
      some (service,
        match (service.approvals approval).decision with
        | some decision => .finished decision.toNetworkDecision
        | none => .waits approval seen)
  | .waits approval seen =>
      if (service.approvals approval).notified = seen then none
      else some (service, .looks approval (service.approvals approval).notified)
  | .resolvesCall o turn => some (service, .runsHooks o turn service.calls.resolveSingleActiveCall)
  | .persists o call action => some (service, .informs o call action)
  | .informs o call action =>
      some (service,
        match action with
        | .allow => .concluded o { decision := .allowForSession }
        | .deny => .recording o call .deniedByUser { decision := .deny, cacheSessionDeny := true })
  | .recordsOutcome o call outcome c => some (service.recordCallOutcome call outcome, .concluded o c)
  | .forgetsDenied o c =>
      some ({ service with sessionDeniedHosts := service.sessionDeniedHosts.erase o.key }, .approves o c)
  | .approves o c =>
      some ({ service with sessionApprovedHosts := insert o.key service.sessionApprovedHosts }, .cached o c)
  | .forgetsApproved o c =>
      some ({ service with sessionApprovedHosts := service.sessionApprovedHosts.erase o.key }, .denies o c)
  | .denies o c =>
      some ({ service with sessionDeniedHosts := insert o.key service.sessionDeniedHosts }, .decides o c)
  | .decides o c => some (service.setDecision o.approval c.decision, .removes o c)
  | .removes o c =>
      some ({ service with pendingHostApprovals := service.pendingHostApprovals.erase o.key },
        match c.afterwards with
        | some outcome => .resolvesBlocked o outcome
        | none => .finished c.decision.toNetworkDecision)
  | .resolvesBlocked o outcome =>
      some (service,
        match service.calls.resolveSingleActiveCall with
        | some call => .recordsBlocked o call outcome
        | none => .finished notAllowed)
  | .recordsBlocked _ call outcome => some (service.recordCallOutcome call outcome, .finished notAllowed)
  | _ => none

end NetworkApprovalService

/-- What a request is told by others while it waits. -/
inductive ApprovalAnswer where
  | turn (context : Option TurnContext)
  | hooks (decision : Option PermissionRequestDecision)
  | review (decision : ReviewDecision)
  | rejection (message : Text)

def TurnContext.allowsApproval (turn : TurnContext) : Bool :=
  turn.permissionProfileIsManaged && !turn.approvalPolicyIsNever

def ReviewDecision.next (o : Owner) (turn : TurnContext) (call : Option Text) : ReviewDecision → Phase
  | approved | approvedExecpolicyAmendment => .concluded o { decision := .allowOnce }
  | approvedForSession => .concluded o { decision := .allowForSession }
  | networkPolicyAmendment action => .persists o call action
  | denied | abort =>
      if turn.routesApprovalToGuardian then
        match call with
        | some call => .readsRejection o call
        | none => .concluded o { decision := .deny }
      else .recording o call .deniedByUser { decision := .deny }
  | timedOut => .recording o call (.deniedByPolicy GUARDIAN_TIMEOUT_INSTRUCTIONS) { decision := .deny }

def ApprovalAnswer.next : ApprovalAnswer → Phase → Option Phase
  | .turn context, .readsTurn o =>
      match context with
      | some context => some (if context.allowsApproval then .resolvesCall o context else .blocked o)
      | none => some (.blocked o)
  | .hooks decision, .runsHooks o context call =>
      match decision with
      | some .allow => some (.decides o { decision := .allowOnce })
      | some (.deny message) => some (.recording o call (.deniedByPolicy message) { decision := .deny })
      | none => some (.reviews o context call)
  | .review decision, .reviews o context call => some (decision.next o context call)
  | .rejection message, .readsRejection o call =>
      some (.recordsOutcome o call (.deniedByPolicy message) { decision := .deny })
  | _, _ => none

/-- A request comes, goes on, or is dropped at an `await`. Calls are registered and removed by others. -/
inductive ApprovalStep where
  | request (request : NetworkPolicyRequest)
  | go
  | answer (answer : ApprovalAnswer)
  | drop
  | registerCall (registrationId : Text)
  | removeCall (registrationId : Text)

def Phase.isLive : Phase → Bool
  | .idle | .finished _ | .dropped => false
  | _ => true

def NetworkApprovalService.step (_ : Nat) (service : NetworkApprovalService) (phase : Phase) :
    ApprovalStep → Option (NetworkApprovalService × Phase)
  | .request request =>
      match phase with
      | .idle => some (service, .checksDenied request)
      | _ => none
  | .go => service.go phase
  | .answer answer => (answer.next phase).map fun phase => (service, phase)
  | .drop => if phase.isLive then some (service, .dropped) else none
  | .registerCall registrationId => some ({ service with calls := service.calls.registerCall registrationId }, phase)
  | .removeCall registrationId => some ({ service with calls := service.calls.removeCall registrationId }, phase)

abbrev ApprovalSystem := Tasks NetworkApprovalService Phase

/-- No host is approved, denied or asked for, and no request has come. -/
def ApprovalSystem.new : ApprovalSystem := ⟨{}, fun _ => .idle⟩

abbrev ApprovalMove (s : ApprovalSystem) (a : Nat × ApprovalStep) (s' : ApprovalSystem) : Prop :=
  Tasks.Move NetworkApprovalService.step s a s'

end CodexStudy.Core.NetworkApproval
