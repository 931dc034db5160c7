import CodexStudy.ChatAgent.Lemmas.Approvals

/-!
# The guardrails of a run whose pauses are approved

A confirmation begins a new run, and with it new guardrails.
-/

namespace CodexStudy.ChatAgent

open CodexStudy.Lib CodexStudy.Lib.Logged List Nat

variable {W : Type} {env : Env W} {config : GuardrailsConfig} {request : RunRequest} {cancelled : Bool} {w : W}

/-! ## Approvals one after the other -/

theorem approvePauses_add (n m : Nat) (outcome : Outcome W) :
    approvePauses env config request cancelled (n + m) outcome =
      approvePauses env config request cancelled m (approvePauses env config request cancelled n outcome) := by
  induction n generalizing outcome with
  | zero => rw [zero_add, approvePauses]
  | succ n ih =>
      rw [succ_add, approvePauses, approvePauses]
      cases hwaiting : waitingState outcome with
      | none => exact (approvePauses_of_none hwaiting m).symm
      | some state => exact ih _

variable {n m : Nat} {outcome : Outcome W} {s : Sys W} {steps : List StepRecord} {w₁ : W}

theorem approvePauses_ended
    (h : waitingState (approvePauses env config request cancelled n outcome) = none) (hle : n ≤ m) :
    approvePauses env config request cancelled m outcome = approvePauses env config request cancelled n outcome := by
  obtain ⟨k, rfl⟩ := Nat.exists_eq_add_of_le hle
  rw [approvePauses_add, approvePauses_of_none h]

theorem approvePauses_unique (hn : waitingState (approvePauses env config request cancelled n outcome) = none)
    (hm : waitingState (approvePauses env config request cancelled m outcome) = none) :
    approvePauses env config request cancelled n outcome = approvePauses env config request cancelled m outcome := by
  rcases le_total n m with hle | hle
  · exact (approvePauses_ended hn hle).symm
  · exact approvePauses_ended hm hle

/-! ## Nothing is taken out of the log -/

theorem loopInvariant_trivial (env : Env W) (policy : ToolApprovalPolicy) :
    LoopInvariant env policy (fun _ _ => True) fun _ _ _ => True := by
  constructor <;> intros <;> trivial

theorem isPrefix_of_writes {I : List Event → Event → Prop} {s' : Sys W} (h : Writes I s s') : s.log <+: s'.log := by
  obtain ⟨new, hlog, -⟩ := h
  exact ⟨new, hlog.symm⟩

theorem loop_grows (session : SessionContext) (passes : Nat) (ls : LoopState) (s : Sys W) :
    s.log <+: (loop env session cancelled passes ls s).2.log :=
  isPrefix_of_writes (loop_ensures (loopInvariant_trivial env session.toolApprovalPolicy) cancelled passes trivial).1

theorem approvePauses_grows (n : Nat) (outcome : Outcome W) :
    outcome.2.log <+: (approvePauses env config request cancelled n outcome).2.log := by
  induction n generalizing outcome with
  | zero => exact prefix_refl _
  | succ n ih =>
      rw [approvePauses]
      cases waitingState outcome with
      | none => exact prefix_refl _
      | some state =>
          have hconfirm : outcome.2.log <+:
              (ChatAgentRuntime.confirmPendingTool env config request state true cancelled outcome.2).2.log :=
            isPrefix_of_writes (confirmPendingTool_ensures config cancelled
              (loopInvariant_trivial env request.toolApprovalPolicy) true trivial fun _ _ _ _ => trivial).1
          exact hconfirm.trans (ih _)

/-! ## What planner and executor produce is run -/

theorem Produces.length_le (h : Produces env config request w steps w₁) :
    steps.length ≤ config.maxTurns := by
  cases h with
  | start => exact zero_le _
  | step _ _ hck _ _ =>
      have hlt := check_continue_turnCount hck
      rw [recordSteps_turnCount, recordSteps_config] at hlt
      rw [length_append, length_singleton]
      exact hlt

theorem Ready.exists_pass {policy : ToolApprovalPolicy} {passes : Nat} {ls : LoopState}
    (h : Ready env config policy passes ls s) (hle : ls.state.steps.length ≤ config.maxTurns) :
    ∃ p, passes = p + 1 := by
  have hseen := (seenSteps_suffix policy ls.state.steps).length_le
  have hpasses := h.passes
  exact ⟨passes - 1, by omega⟩

theorem check_seenSteps (policy : ToolApprovalPolicy) {action : Action}
    (h : (recordSteps config steps).check action = .continue) :
    (recordSteps config (seenSteps policy steps)).check action = .continue :=
  (recordSteps_below config (seenSteps_suffix policy steps)).check_continue h

def runUnder (env : Env W) (config : GuardrailsConfig) (request : RunRequest) (cancelled : Bool) (w : W)
    (policy : ToolApprovalPolicy) : Outcome W :=
  ChatAgentRuntime.run env config (request.withPolicy policy) cancelled { world := w }

theorem Produces.ready (hc : NotCancelled env cancelled) (policy : ToolApprovalPolicy) (hpol : policy ≠ .readOnly)
    (h : Produces env config request w steps w₁) :
    ∃ k passes ls s, (policy = .auto → k = 0) ∧
      (∀ n, approvePauses env config (request.withPolicy policy) cancelled (k + n)
          (runUnder env config request cancelled w policy) =
        approvePauses env config (request.withPolicy policy) cancelled n
          (loop env (buildSession (request.withPolicy policy)) cancelled (passes + 1) ls s)) ∧
      Ready env config policy (passes + 1) ls s ∧ s.world = w₁ ∧ ls.state.steps = steps := by
  induction h with
  | start =>
      let state : RunState := { runId := request.runId, workspaceId := request.workspaceId, status := .preparing }
      refine ⟨0, config.maxTurns, ⟨state, .new config, []⟩, ⟨w, [.reported state]⟩, fun _ => rfl,
        fun n => by rw [zero_add]; rfl, ⟨rfl, ?_, rfl, ?_, ?_⟩, rfl, rfl⟩
      · cases policy <;> rfl
      · exact lt_of_lt_of_le (lt_succ_self _) (le_add_left _ _)
      · exact ⟨rfl, by simp, by simp [lastReported, Event.state?, state]⟩
  | step hprod hans hck hends hexec ih =>
      obtain ⟨k, passes, ls, s, hauto, hrun, hrdy, rfl, rfl⟩ := ih
      obtain ⟨k', passes', ls', s', hauto', hpass, hrdy', hworld, hsts⟩ := pass_continues hc hpol hrdy hans
        (check_seenSteps policy hck) hends hexec
      have hle := (Produces.step hprod hans hck hends hexec).length_le
      obtain ⟨p, rfl⟩ := hrdy'.exists_pass (by rw [hsts]; exact hle)
      refine ⟨k + k', p, ls', s', fun h => by rw [hauto h, hauto' h], fun n => ?_, hrdy', hworld, hsts⟩
      rw [add_assoc, hrun, add_comm, hpass]

/-! ## The end of the steps -/

def Final (env : Env W) (config : GuardrailsConfig) (request : RunRequest) (steps : List StepRecord) (w₁ : W) : Prop :=
  ∀ turn w₂, answer env request steps w₁ = (.ok turn, w₂) →
    (recordSteps config steps).check turn.action ≠ .continue ∨ endsLoop turn.action = true ∨
      ∃ e w₃, env.execute turn.action w₂ = (.error e, w₃)

theorem exists_final (env : Env W) (config : GuardrailsConfig) (request : RunRequest) (w : W) :
    ∃ steps w₁, Produces env config request w steps w₁ ∧ Final env config request steps w₁ := by
  by_contra hnone
  push Not at hnone
  have hlong : ∀ n, ∃ steps w₁, Produces env config request w steps w₁ ∧ steps.length = n := by
    intro n
    induction n with
    | zero => exact ⟨[], w, .start, rfl⟩
    | succ n ih =>
        obtain ⟨steps, w₁, hprod, hlen⟩ := ih
        have hmore := hnone steps w₁ hprod
        unfold Final at hmore
        push Not at hmore
        obtain ⟨turn, w₂, hans, hck, hends, hexec⟩ := hmore
        rcases hres : env.execute turn.action w₂ with ⟨e | observation, w₃⟩
        · exact absurd hres (hexec e w₃)
        · exact ⟨_, w₃, .step hprod hans hck (by simpa using hends) hres, by simp [hlen]⟩
  obtain ⟨steps, w₁, hprod, hlen⟩ := hlong (config.maxTurns + 1)
  have hle := hprod.length_le
  omega

def lastDecision (env : Env W) (config : GuardrailsConfig) (request : RunRequest) (steps : List StepRecord) (w₁ : W) :
    List GuardrailAction :=
  match (answer env request steps w₁).1 with
  | .ok turn => [(recordSteps config steps).check turn.action]
  | .error _ => []

theorem Final.ends (hc : NotCancelled env cancelled) (policy : ToolApprovalPolicy) (hpol : policy ≠ .readOnly)
    (hprod : Produces env config request w steps w₁)
    (hfinal : Final env config request steps w₁) (hsame : ∀ turn w₂, answer env request steps w₁ = (.ok turn, w₂) →
      (recordSteps config (seenSteps policy steps)).check turn.action = (recordSteps config steps).check turn.action) :
    ∃ k, (policy = .auto → k = 0) ∧
      Tidy (steps.length + 1) (.replicate steps.length .continue ++ lastDecision env config request steps w₁)
        (approvePauses env config (request.withPolicy policy) cancelled k
          (runUnder env config request cancelled w policy)).2.log := by
  obtain ⟨k, passes, ls, s, hauto, hrun, hrdy, rfl, rfl⟩ := hprod.ready hc policy hpol
  have hlast := hrun 0
  rw [add_zero, approvePauses] at hlast
  rcases hans : answer env request ls.state.steps s.world with ⟨e | turn, w₂⟩
  · refine ⟨k, hauto, ?_⟩
    have hlog := (loop_of_error hc hrdy hans).mono (le_succ _)
    rw [hlast, lastDecision, hans, append_nil]
    exact hlog
  · obtain ⟨k', hauto', hlog⟩ := pass_ends hc hpol hrdy hans (by
      rw [hsame turn w₂ hans]
      exact hfinal turn w₂ hans)
    refine ⟨k + k', fun h => by rw [hauto h, hauto' h], ?_⟩
    rw [hrun, lastDecision, hans]
    rw [hsame turn w₂ hans] at hlog
    exact hlog

/-! ## The claim -/

/-- The run with approved pauses is guarded like the one without exactly if the steps since the last edit or command
decide. -/
theorem approved_run_is_guarded_iff (env : Env W) (config : GuardrailsConfig) (request : RunRequest)
    (cancelled : Bool) (w : W) (hc : NotCancelled env cancelled) :
    SameGuarding env config request cancelled w ↔ RecentStepsDecide env config request w := by
  constructor
  · rintro ⟨n, hend, hdecisions, -⟩ steps w₁ turn w₂ hprod hans
    by_cases hfull : (recordSteps config steps).check turn.action = .continue
    · rw [hfull]
      exact check_seenSteps .onRequest hfull
    · -- The run without pauses ends with this decision.
      have hfinal : Final env config request steps w₁ := by
        intro turn' w₂' hans'
        rw [hans] at hans'
        cases hans'
        exact Or.inl hfull
      obtain ⟨k₀, hk₀, hauto⟩ := hfinal.ends hc .auto (by decide) hprod fun _ _ _ => rfl
      rw [hk₀ rfl, lastDecision, hans] at hauto
      have hlist := hdecisions.trans hauto.decisions
      obtain ⟨k, passes, ls, s, -, hrun, hrdy, rfl, rfl⟩ := hprod.ready hc .onRequest (by decide)
      by_cases hstop : (recordSteps config (sinceApproval ls.state.steps)).check turn.action ≠ .continue ∨
          endsLoop turn.action = true ∨ ∃ e w', env.execute turn.action w₂ = (.error e, w')
      · -- So does the run with pauses, with its own decision.
        obtain ⟨k', -, hlog⟩ := pass_ends hc (by decide) hrdy hans hstop
        rw [← hrun] at hlog
        have hequal := approvePauses_unique hend (waitingState_of_tidy hlog)
        rw [approvedRun, hequal] at hlist
        have := append_cancel_left (hlog.decisions.symm.trans hlist)
        exact (cons.inj this).1
      · -- The run with pauses lets the turn pass, so it decides more often.
        push Not at hstop
        obtain ⟨hck, hends, hexec⟩ := hstop
        rcases hres : env.execute turn.action w₂ with ⟨e | observation, w₃⟩
        · exact absurd hres (hexec e w₃)
        · obtain ⟨k', passes', ls', s', -, hpass, hrdy', -, hsts⟩ := pass_continues hc (by decide) hrdy hans
            hck (by simpa using hends) hres
          have hlong : decisions s'.log <+: decisions (approvedRun env config request cancelled w n).2.log := by
            have hequal : approvePauses env config (request.withPolicy .onRequest) cancelled (k + (n + k'))
                (runUnder env config request cancelled w .onRequest) = approvedRun env config request cancelled w n :=
              approvePauses_ended hend (by omega)
            rw [← hequal, hrun, hpass]
            exact ((loop_grows _ passes' ls' s').trans (approvePauses_grows n _)).filterMap _
          rw [hlist, hrdy'.log.decisions, hsts, length_append, length_singleton, replicate_succ',
            prefix_append_right_inj] at hlong
          have := cons_prefix_cons.mp hlong
          exact absurd this.1.symm hfull
  · intro hrecent
    obtain ⟨steps, w₁, hprod, hfinal⟩ := exists_final env config request w
    obtain ⟨k, hk, hauto⟩ := hfinal.ends hc .auto (by decide) hprod fun _ _ _ => rfl
    obtain ⟨n, -, hlog⟩ := hfinal.ends hc .onRequest (by decide) hprod
      fun turn w₂ hans => hrecent steps w₁ turn w₂ hprod hans
    rw [hk rfl] at hauto
    refine ⟨n, waitingState_of_tidy hlog, hlog.decisions.trans hauto.decisions.symm, fun state hmem => ?_⟩
    exact (hlog.steps state hmem).trans (succ_le_succ hprod.length_le)

/-! ## Commands that are approved -/

def insistentScript : List PlannerTurn := .replicate 5 ⟨"Again", .runCommand "make" none none⟩

def smallConfig : GuardrailsConfig := { maxTurns := 3 }

/-- With three turns allowed, five commands are approved and executed. -/
theorem approvals_reset_guardrails :
    ¬ SameGuarding scripted smallConfig (sampleRequest .onRequest) false insistentScript := by
  rintro ⟨n, hend, hdecisions, -⟩
  have hfive : waitingState (approvedRun scripted smallConfig (sampleRequest .onRequest) false insistentScript 5) = none := by
    decide +kernel
  have hequal : approvedRun scripted smallConfig (sampleRequest .onRequest) false insistentScript n =
      approvedRun scripted smallConfig (sampleRequest .onRequest) false insistentScript 5 :=
    approvePauses_unique hend hfive
  rw [hequal] at hdecisions
  revert hdecisions
  decide +kernel

/-- One command and the end of the task are guarded alike, with and without a pause. -/
theorem one_approval_is_guarded : RecentStepsDecide scripted {} (sampleRequest .onRequest) sampleScript ∧
      SameGuarding scripted {} (sampleRequest .onRequest) false sampleScript := by
  have hsame : SameGuarding scripted {} (sampleRequest .onRequest) false sampleScript := by
    have hsts : ∀ state ∈ (approvedRun scripted {} (sampleRequest .onRequest) false sampleScript 1).2.log.filterMap
        Event.state?, state.steps.length ≤ 20 + 1 := by decide +kernel
    refine ⟨1, by decide +kernel, by decide +kernel, fun state hmem => ?_⟩
    exact hsts state (mem_filterMap.mpr ⟨.reported state, hmem, rfl⟩)
  exact ⟨(approved_run_is_guarded_iff scripted {} (sampleRequest .onRequest) false sampleScript nofun).mp hsame, hsame⟩

end CodexStudy.ChatAgent
