import CodexStudy.NetworkProxy.Runtime
import CodexStudy.NetworkProxy.Theorems.Allowlist

/-!
# Managed denials

Whatever the tasks do, the configuration of the state passes validation against the constraints of the state, and the
deny set is compiled from the configuration.
-/

namespace CodexStudy.NetworkProxy

open CodexStudy.Lib

/-! ## What a step of the proxy keeps -/

section

variable {tools : ProxyTools} {operation : Operation} {P : ConfigState → Prop}
  {U : ConfigState → NetworkProxyConfig → Prop} {M : NetworkMode → NetworkProxyConstraints → Prop}

def Phase.Pending (P : ConfigState → Prop) (U : ConfigState → NetworkProxyConfig → Prop)
    (M : NetworkMode → NetworkProxyConstraints → Prop) : Phase → Prop
  | .readRecord newState | .writeReload newState | .writeForced newState => P newState
  | .writeUpdate newState previousCfg _ => U newState previousCfg
  | .writeMode mode constraints => M mode constraints
  | _ => True

structure Preserves (tools : ProxyTools) (operation : Operation) (P : ConfigState → Prop)
    (U : ConfigState → NetworkProxyConfig → Prop) (M : NetworkMode → NetworkProxyConstraints → Prop) : Prop where
  record : ∀ state blocked blockedTotal, P state →
    P { state with blocked := blocked, blockedTotal := blockedTotal }
  replaced : ∀ newState, operation = .replaceConfigState newState → P newState
  preparesUpdate : ∀ state host target newState, operation = .updateDomainList host target →
    updatedState tools state (normalizeHost host) target = .ok (some newState) →
      U (newState.keepingRecord state) state.config
  writesUpdate : ∀ newState previousCfg, U newState previousCfg → P newState
  preparesMode : ∀ (state : ConfigState) mode,
    validatePolicyAgainstConstraints tools.urlHost (state.config.withMode mode) state.constraints = .ok () →
      M mode state.constraints
  writesMode : ∀ (state : ConfigState) mode, P state → M mode state.constraints → P (state.withMode mode)

theorem Preserves.advance {outside : Outside} {state : ConfigState} {phase : Phase}
    (h : Preserves tools operation P U M) (hstt : P state) (hph : phase.Pending P U M)
    (hreload : ∀ newState, outside.reload = .fresh newState → P newState) :
    P (advance tools outside operation state phase).1 ∧
      (advance tools outside operation state phase).2.1.Pending P U M := by
  cases phase with
  | called =>
      rw [NetworkProxy.advance]
      unfold call
      split
      · split
        · rename_i newState hfr
          exact ⟨hstt, hreload newState hfr⟩
        · exact ⟨hstt, trivial⟩
        · exact ⟨hstt, trivial⟩
      · split
        · exact ⟨hstt, trivial⟩
        · exact ⟨hstt, trivial⟩
      · exact ⟨hstt, trivial⟩
  | checkReload =>
      rw [NetworkProxy.advance]
      split
      · exact ⟨hstt, trivial⟩
      · rename_i newState hfr
        exact ⟨hstt, hreload newState hfr⟩
      · exact ⟨hstt, trivial⟩
  | readRecord newState => exact ⟨hstt, h.record newState state.blocked state.blockedTotal hph⟩
  | writeReload newState => exact ⟨hph, trivial⟩
  | act =>
      rw [NetworkProxy.advance]
      cases operation with
      | reloadIfNeeded => exact ⟨hstt, trivial⟩
      | forceReload => exact ⟨hstt, trivial⟩
      | replaceConfigState newState => exact ⟨h.record newState _ _ (h.replaced newState rfl), trivial⟩
      | recordBlocked entry => exact ⟨h.record state _ _ hstt, trivial⟩
      | drainBlocked => exact ⟨h.record state [] state.blockedTotal hstt, trivial⟩
      | updateDomainList host target =>
          rw [act]
          split
          · exact ⟨hstt, trivial⟩
          · exact ⟨hstt, trivial⟩
          · rename_i newState hnew
            exact ⟨hstt, h.preparesUpdate state host target newState rfl hnew⟩
      | setNetworkMode mode =>
          rw [act]
          split
          · exact ⟨hstt, trivial⟩
          · rename_i hvalid
            exact ⟨hstt, h.preparesMode state mode hvalid⟩
      | evaluateHostPolicy request => exact ⟨hstt, trivial⟩
  | writeForced newState => exact ⟨h.record newState state.blocked newState.blockedTotal hph, trivial⟩
  | writeUpdate newState previousCfg constraints =>
      rw [NetworkProxy.advance]
      split
      · exact ⟨hstt, trivial⟩
      · exact ⟨h.writesUpdate newState previousCfg hph, trivial⟩
  | writeMode mode constraints =>
      rw [NetworkProxy.advance]
      split
      · exact ⟨hstt, trivial⟩
      · rename_i hsame
        have hmode : M mode constraints := hph
        rw [← not_not.mp hsame] at hmode
        exact ⟨h.writesMode state mode hstt hmode, trivial⟩
  | returned outcome => exact ⟨hstt, trivial⟩

theorem Preserves.run {Task : Type} [DecidableEq Task] {operations : Task → Operation}
    {U : Operation → ConfigState → NetworkProxyConfig → Prop} {state : ConfigState} {ms : List (Move Task)}
    {s : ProxySystem Task} (h : ∀ task, Preserves tools (operations task) P (U (operations task)) M) (hstt : P state)
    (hms : ∀ m ∈ ms, ∀ newState, m.outside.reload = .fresh newState → P newState)
    (hrun : Run (ProxyStep tools operations) (.start state) ms s) :
    P s.state ∧ ∀ task, (s.phases task).Pending P (U (operations task)) M := by
  refine hrun.invariant_of_mem (I := fun s => P s.state ∧ ∀ task, (s.phases task).Pending P (U (operations task)) M)
    ⟨hstt, fun _ => trivial⟩ ?_
  rintro s m s' hm ⟨hs, hphases⟩ rfl
  obtain ⟨hs', hph⟩ := (h m.task).advance hs (hphases m.task) (hms m hm)
  refine ⟨hs', fun task => ?_⟩
  change Phase.Pending P _ M (Function.update s.phases m.task _ task)
  by_cases htask : task = m.task
  · subst htask
    rw [Function.update_self]
    exact hph
  · rw [Function.update_of_ne htask]
    exact hphases task

end

/-! ## What a managed denial promises -/

/-- The configuration is valid under the constraints, and the deny set is compiled from it. -/
structure Compliant (tools : ProxyTools) (state : ConfigState) : Prop where
  valid : validatePolicyAgainstConstraints tools.urlHost state.config state.constraints = .ok ()
  denySet : compileDenylistGlobset tools.globBuilder (state.config.network.deniedDomains.getD []) = .ok state.denySet

/-- The state is built from a configuration that passes validation. -/
def Built (tools : ProxyTools) (state : ConfigState) : Prop :=
  ∃ config constraints, validatePolicyAgainstConstraints tools.urlHost config constraints = .ok () ∧
    buildConfigState tools config constraints = .ok state

/-- The reloader returns no other states. -/
def ReloadAnswer.Sound (tools : ProxyTools) : ReloadAnswer → Prop
  | .fresh newState => Built tools newState
  | _ => True

/-- The pattern matches the host, or the address in the host without its scope. -/
def PatternMatchesHostOrUnscoped (builder : GlobBuilder) (pattern host : Text) : Prop :=
  PatternMatches builder pattern host ∨ ∃ ip ∈ unscopedIpLiteral host, PatternMatches builder pattern ip

variable {tools : ProxyTools} {state newState : ConfigState}

/-! ## Compliance -/

theorem Built.compliant (h : Built tools state) : Compliant tools state := by
  obtain ⟨config, constraints, hvalid, hbuild⟩ := h
  obtain ⟨rfl, rfl, hcom, _⟩ := buildConfigState_eq_ok hbuild
  exact ⟨hvalid, hcom.denySet⟩

theorem Compliant.withRecord (h : Compliant tools state) (blocked : List BlockedRequest) (blockedTotal : Nat) :
    Compliant tools { state with blocked := blocked, blockedTotal := blockedTotal } := ⟨h.valid, h.denySet⟩

theorem ValidApartFromMode.withMode {urlHost : Text → Option Text} {config : NetworkProxyConfig}
    {constraints : NetworkProxyConstraints} (h : ValidApartFromMode urlHost config constraints) (mode : NetworkMode) :
    ValidApartFromMode urlHost (config.withMode mode) constraints :=
  ⟨h.denied, h.enabled, h.upstream, h.nonLoopback, h.allSockets, h.localBinding, h.allowedDomains, h.deniedDomains,
    h.sockets⟩

theorem Compliant.withMode (h : Compliant tools state) {mode : NetworkMode}
    (hmode : validateMode mode state.constraints.mode = .ok ()) : Compliant tools (state.withMode mode) :=
  ⟨validate_eq_ok.mpr ⟨hmode, (validate_eq_ok.mp h.valid).2.withMode mode⟩, h.denySet⟩

theorem compliant_updatedState {normalizedHost : Text} {target : DomainListKind}
    (h : updatedState tools state normalizedHost target = .ok (some newState)) : Compliant tools newState := by
  unfold updatedState at h
  dsimp only at h
  split at h
  · cases h
  · obtain ⟨hvalid, h⟩ := except_seq_eq_ok.mp h
    obtain ⟨built, hbuild, h⟩ := except_bind_eq_ok.mp h
    cases h
    exact Built.compliant ⟨_, _, mapError_eq_ok.mp hvalid, mapError_eq_ok.mp hbuild⟩

/-! ## One step -/

theorem preserves_compliant {operation : Operation} (hop : ∀ newState, operation ≠ .replaceConfigState newState) :
    Preserves tools operation (Compliant tools) (fun newState _ => Compliant tools newState)
      (fun mode constraints => validateMode mode constraints.mode = .ok ()) where
  record _ blocked blockedTotal h := h.withRecord blocked blockedTotal
  replaced newState h := absurd h (hop newState)
  preparesUpdate state _ _ _ _ h := (compliant_updatedState h).withRecord state.blocked state.blockedTotal
  writesUpdate _ _ h := h
  preparesMode _ _ h := (validate_eq_ok.mp h).1
  writesMode _ _ h hmode := h.withMode hmode

/-! ## Denied hosts -/

theorem Compliant.denies (h : Compliant tools state) {managed : List Text} {pattern host : Text}
    (hmanaged : state.constraints.deniedDomains = some managed) (hpat : pattern ∈ managed)
    (hmt : PatternMatchesHostOrUnscoped tools.globBuilder pattern host) :
    globsetMatchesHostOrUnscoped state.denySet host = true := by
  obtain ⟨entry, hent, hsame⟩ :=
    exists_denied_entry (validate_eq_ok.mp h.valid).2.deniedDomains hmanaged hpat
  have hset : ∀ host, PatternMatches tools.globBuilder pattern host → state.denySet.isMatch host = true := by
    intro host hmt
    exact (compileGlobset_isMatch h.denySet).mpr ⟨entry, hent, (patternMatches_congr hsame).mpr hmt⟩
  rw [globsetMatchesHostOrUnscoped, Bool.or_eq_true]
  rcases hmt with hmt | ⟨ip, hip, hmt⟩
  · exact Or.inl (hset host hmt)
  · rw [Option.mem_def.mp hip, Option.any_some]
    exact Or.inr (hset ip hmt)

theorem evaluateHostPolicy_of_denied {lookup : Lookup} {decider : Option NetworkPolicyDecider}
    {request : NetworkPolicyRequest} {host : Text} (hhost : Host.parse request.host = some host)
    (hden : globsetMatchesHostOrUnscoped state.denySet host = true) :
    evaluateHostPolicy lookup decider state request = .deny "denied" .baselinePolicy .deny := by
  have hblocked : hostBlocked lookup state request.host request.port = .blocked .denied := by
    unfold hostBlocked
    rw [hhost]
    dsimp only
    rw [if_pos hden]
  unfold NetworkProxy.evaluateHostPolicy
  rw [hblocked]
  rfl

/-! ## Runs -/

section

variable {Task : Type} [DecidableEq Task]

/-- In every run the state is compliant, and a host that a managed pattern denies is denied, whatever allowlist and
decider say. -/
theorem managed_denials_hold (tools : ProxyTools) (operations : Task → Operation)
    (hoperations : ∀ task newState, operations task ≠ .replaceConfigState newState) (state : ConfigState)
    (hstate : Built tools state) (ms : List (Move Task)) (hms : ∀ m ∈ ms, m.outside.reload.Sound tools)
    (s : ProxySystem Task) (hrun : Run (ProxyStep tools operations) (.start state) ms s) : Compliant tools s.state ∧
      ∀ (m : Move Task) (request : NetworkPolicyRequest) (host : Text) (managed : List Text) (pattern : Text),
        operations m.task = .evaluateHostPolicy request → s.phases m.task = .act →
        Host.parse request.host = some host → s.state.constraints.deniedDomains = some managed →
        pattern ∈ managed → PatternMatchesHostOrUnscoped tools.globBuilder pattern host →
          (s.move tools operations m).phases m.task = .returned (.decided (.deny "denied" .baselinePolicy .deny)) := by
  have hcompliant : Compliant tools s.state := by
    refine (Preserves.run (U := fun _ newState _ => Compliant tools newState)
      (fun task => preserves_compliant (hoperations task)) hstate.compliant (fun m hm newState hfr => ?_) hrun).1
    have hsnd := hms m hm
    rw [hfr] at hsnd
    exact Built.compliant hsnd
  refine ⟨hcompliant, ?_⟩
  intro m request host managed pattern hop hph hhost hmanaged hpat hmt
  have hden := hcompliant.denies hmanaged hpat hmt
  unfold ProxySystem.move
  rw [hop, hph, advance, act, evaluateHostPolicy_of_denied hhost hden]
  exact Function.update_self ..

end

/-! ## A request to a denied host -/

def plainTools : ProxyTools := ⟨plainGlobBuilder, asciiUrlHost, fun _ => .ok ()⟩

def evilDenied : NetworkProxyConfig :=
  { network := { domains := some ⟨[⟨"EVIL.com", .deny⟩]⟩ } }

def denyingEvil : NetworkProxyConstraints := { deniedDomains := some ["evil.com"] }

def evilRequest : NetworkPolicyRequest := { protocol := .http, host := "Evil.com.", port := 80 }

def allowAndRequest : Bool → Operation
  | true => .updateDomainList "evil.com" .allow
  | false => .evaluateHostPolicy evilRequest

def allowMoves : List (Move Bool) := [⟨false, {}⟩, ⟨true, {}⟩, ⟨false, {}⟩, ⟨true, {}⟩, ⟨true, {}⟩]

def allowingDecider : Outside := { decider := some fun _ => .allow }

theorem evil_denied : ∃ state s, buildConfigState plainTools evilDenied denyingEvil = .ok state ∧
    Run (ProxyStep plainTools allowAndRequest) (.start state) allowMoves s ∧
    (s.move plainTools allowAndRequest ⟨false, allowingDecider⟩).phases false =
      .returned (.decided (.deny "denied" .baselinePolicy .deny)) := by
  obtain ⟨state, hbuild⟩ := exists_of_isOk (x := buildConfigState plainTools evilDenied denyingEvil)
    (by decide +kernel)
  have hbuilt : Built plainTools state := ⟨evilDenied, denyingEvil, by decide +kernel, hbuild⟩
  have hconstraints : state.constraints = denyingEvil := (buildConfigState_eq_ok hbuild).2.1
  have hrun : ∃ s : ProxySystem Bool, Run (ProxyStep plainTools allowAndRequest) (.start state) allowMoves s ∧
      s.state = (act plainTools {} state (allowAndRequest true)).1 ∧ s.phases false = .act :=
    ⟨_, .cons rfl (.cons rfl (.cons rfl (.cons rfl (.cons rfl (.nil _))))), rfl, rfl⟩
  obtain ⟨s, hrun, hstt, hph⟩ := hrun
  have hunchanged : s.state = state := by
    rw [hstt, allowAndRequest, act]
    split <;> rfl
  refine ⟨state, s, hbuild, hrun, ?_⟩
  refine (managed_denials_hold plainTools allowAndRequest (fun task _ => by cases task <;> rintro ⟨⟩) state hbuilt
    allowMoves (fun m hm => ?_) s hrun).2 ⟨false, allowingDecider⟩ evilRequest "evil.com"
    ["evil.com"] "evil.com" rfl hph (by decide +kernel) ?_ List.mem_cons_self (Or.inl ?_)
  · revert m
    simp [allowMoves, ReloadAnswer.Sound]
  · rw [hunchanged, hconstraints]
    rfl
  · have hpl : PlainGlob "evil.com" := by decide +kernel
    exact ⟨"evil.com", by decide +kernel, _, buildsWildcards_plainGlobBuilder _ hpl, by decide +kernel⟩

end CodexStudy.NetworkProxy
