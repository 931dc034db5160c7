import CodexStudy.ExecPolicy.Policy
import CodexStudy.Lib.Ascii

/-!
# Network rules (`rule.rs`, `amend.rs`)

A network rule is about one host.
-/

namespace CodexStudy.ExecPolicy

open CodexStudy.Lib
open CodexStudy.Lib.Text (trim toAsciiLowercase trimEndMatches splitOnce?)

def invalidRule {α : Type} (message : String) : Except Text α := .error ("invalid rule: " ++ message.toList)

/-! ## Hosts -/

def isPort (port : Text) : Bool := !port.isEmpty && port.all Char.isDigit

/-- What stands in brackets, or before the port where there is one. -/
def networkRuleHostPiece (raw host : Text) : Except Text Text :=
  match host with
  | '[' :: stripped =>
      match splitOnce? [']'] stripped with
      | none => invalidRule "network_rule host has an invalid bracketed IPv6 literal"
      | some (inside, rest) =>
          let portOk := (Text.stripPrefix? [':'] rest).any isPort
          if rest ≠ [] ∧ portOk = false then
            invalidRule ("network_rule host contains an unsupported suffix: " ++ String.ofList raw)
          else .ok inside
  | host =>
      match if host.count ':' = 1 then splitOnce? [':'] host else none with
      | some (candidate, port) => .ok (if candidate ≠ [] ∧ isPort port = true then candidate else host)
      | none => .ok host

/-- A slash also stands in a scheme. -/
def normalizeNetworkRuleHost (raw : Text) : Except Text Text :=
  let host := trim raw
  if host = [] then invalidRule "network_rule host cannot be empty"
  else if '/' ∈ host ∨ '?' ∈ host ∨ '#' ∈ host then
    invalidRule "network_rule host must be a hostname or IP literal (without scheme or path)"
  else do
    let piece ← networkRuleHostPiece raw host
    let normalized := toAsciiLowercase (trim (trimEndMatches '.' piece))
    if normalized = [] then invalidRule "network_rule host cannot be empty"
    else if '*' ∈ normalized then
      invalidRule "network_rule host must be a specific host; wildcards are not allowed"
    else if normalized.any Text.isWhitespace then invalidRule "network_rule host cannot contain whitespace"
    else .ok normalized

/-! ## Calls in the rules file -/

def NetworkRuleProtocol.parse (raw : Text) : Except Text NetworkRuleProtocol :=
  if raw = "http".toList then .ok .http
  else if raw ∈ ["https".toList, "https_connect".toList, "http-connect".toList] then .ok .https
  else if raw = "socks5_tcp".toList then .ok .socks5Tcp
  else if raw = "socks5_udp".toList then .ok .socks5Udp
  else
    invalidRule ("network_rule protocol must be one of http, https, socks5_tcp, socks5_udp (got " ++
      String.ofList raw ++ ")")

def NetworkRuleProtocol.asPolicyString : NetworkRuleProtocol → Text
  | http => "http"
  | https => "https"
  | socks5Tcp => "socks5_tcp"
  | socks5Udp => "socks5_udp"

def Decision.parse (raw : Text) : Except Text Decision :=
  if raw = "allow" then .ok .allow
  else if raw = "prompt" then .ok .prompt
  else if raw = "forbidden" then .ok .forbidden
  else .error ("invalid decision: " ++ raw)

def parseNetworkRuleDecision (raw : Text) : Except Text Decision :=
  if raw = "deny" then .ok .forbidden else Decision.parse raw

def Decision.asNetworkRuleString : Decision → Text
  | allow => "allow"
  | prompt => "prompt"
  | forbidden => "deny"

def isBlankJustification (justification : Option Text) : Bool := justification.any fun raw => trim raw == []

structure NetworkRuleCall where
  host : Text
  protocol : Text
  decision : Text
  justification : Option Text

def networkRule (call : NetworkRuleCall) : Except Text NetworkRule := do
  let protocol ← NetworkRuleProtocol.parse call.protocol
  let decision ← parseNetworkRuleDecision call.decision
  if isBlankJustification call.justification then invalidRule "justification cannot be empty"
  else
    let host ← normalizeNetworkRuleHost call.host
    .ok ⟨host, protocol, decision, call.justification⟩

def Policy.addNetworkRule (policy : Policy) (host : Text) (protocol : NetworkRuleProtocol) (decision : Decision)
    (justification : Option Text) : Except Text Policy := do
  let host ← normalizeNetworkRuleHost host
  if isBlankJustification justification then invalidRule "justification cannot be empty"
  else .ok { policy with networkRules := policy.networkRules ++ [⟨host, protocol, decision, justification⟩] }

/-! ## Appending -/

def ruleLine (toJson : Text → Text) (call : NetworkRuleCall) : Text :=
  let args := ["host=" ++ toJson call.host, "protocol=" ++ toJson call.protocol,
    "decision=" ++ toJson call.decision] ++
      (call.justification.map fun justification => "justification=" ++ toJson justification).toList
  "network_rule(" ++ Text.join ", " args ++ [')']

def withLine (contents line : Text) : Text :=
  contents ++ (if contents ≠ [] ∧ contents.getLast? ≠ some '\n' then ['\n'] else []) ++ line ++ ['\n']

/-- A line that the file has already is not written again. -/
def appendLockedLine (contents line : Text) : Text :=
  if line ∈ Text.lines contents then contents else withLine contents line

def blockingAppendNetworkRule (toJson : Text → Text) (contents host : Text) (protocol : NetworkRuleProtocol)
    (decision : Decision) (justification : Option Text) : Except Text Text := do
  let host ← (normalizeNetworkRuleHost host).mapError ("invalid network rule: " ++ ·)
  if isBlankJustification justification then
    .error "invalid network rule: justification cannot be empty"
  else
    .ok (appendLockedLine contents
      (ruleLine toJson ⟨host, protocol.asPolicyString, decision.asNetworkRuleString, justification⟩))

structure RulesState where
  contents : Text
  policy : Policy

/-- The rule is added to the policy after it has been written. -/
def appendNetworkRuleAndUpdate (toJson : Text → Text) (s : RulesState) (rule : NetworkRule) :
    RulesState × Except Text Unit :=
  match blockingAppendNetworkRule toJson s.contents rule.host rule.protocol rule.decision rule.justification with
  | .error error => (s, .error error)
  | .ok contents =>
      match s.policy.addNetworkRule rule.host rule.protocol rule.decision rule.justification with
      | .error error => (⟨contents, s.policy⟩, .error error)
      | .ok policy => (⟨contents, policy⟩, .ok ())

def loadNetworkRules (evaluate : Text → Option (List NetworkRuleCall)) (contents : Text) : Option (List NetworkRule) :=
  (evaluate contents).bind fun calls => calls.mapM fun call => (networkRule call).toOption

end CodexStudy.ExecPolicy
