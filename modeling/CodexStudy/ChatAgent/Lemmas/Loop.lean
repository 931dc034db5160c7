import CodexStudy.ChatAgent.RunLoop

/-!
# Invariants of the run loop
-/

namespace CodexStudy.ChatAgent

open CodexStudy.Lib CodexStudy.Lib.Logged ChatAgentRuntime

variable {W : Type} {env : Env W} {policy : ToolApprovalPolicy} {I : List Event → Event → Prop}
  {K : List Event → RunState → List ChatMessage → Prop}

structure LoopInvariant (env : Env W) (policy : ToolApprovalPolicy) (I : List Event → Event → Prop)
    (K : List Event → RunState → List ChatMessage → Prop) : Prop where
  grow : ∀ {l l' state history}, l ⊆ l' → K l state history → K l' state history
  update : ∀ {l state history} (state' : RunState), K l state history → state'.steps = state.steps →
    state'.pendingTurn = state.pendingTurn → K l state' history
  commit : ∀ {l state history} (step : StepRecord), K l state history →
    K l (state.pushStep step) (history ++ stepMessages env step)
  reported : ∀ {l state history}, K l state history → I l (.reported state)
  paused : ∀ {l state history} (turn : PlannerTurn) (state' : RunState), K l state history → policy = .onRequest →
    .planned policy turn ∈ l → state'.steps = state.steps →
    state'.pendingTurn = some ⟨turn.thought, turn.action⟩ → I l (.reported state')
  planning : ∀ {l state history}, K l state history → I l (.planning state.steps history)
  planned : ∀ l turn, I l (.planned policy turn)
  decided : ∀ l decision, I l (.decided decision)
  executed : ∀ l site action, site ≠ .approval → action.isMutating = false ∨ policy = .auto →
    I l (.executed site action)

variable {state : RunState} {action : Action}

section Parts

variable {s : Sys W}

theorem report_ensures (h : I s.log (.reported state)) :
    Ensures I s (report state) fun _ s' => s'.log = s.log ++ [.reported state] :=
  ensures_event rfl h fun _ _ => rfl

theorem stopIfCancelled_ensures (cancelled : Bool) (h : I s.log (.reported { state with status := .cancelled })) :
    Ensures I s (stopIfCancelled env cancelled state) fun _ s' => s'.log = s.log := by
  have hread : Ensures I s (isCancelled env cancelled) fun _ s' => s'.log = s.log := by
    cases cancelled with
    | true => exact ensures_silent rfl fun _ _ => rfl
    | false => exact ensures_pure rfl
  refine hread.bind fun stop s₁ _ hlog => ?_
  cases stop with
  | true => exact (report_ensures (by rw [hlog]; exact h)).bind fun _ _ _ _ => ensures_fail
  | false => exact ensures_pure hlog

theorem executorExecute_ensures {site : ExecutionSite} (h : I s.log (.executed site action)) :
    Ensures I s (executorExecute env site action) fun _ _ => True :=
  ensures_event rfl h fun _ _ => trivial

theorem commitTurn_ensures (hinv : LoopInvariant env policy I K) (ls : LoopState)
    (h : K s.log ls.state ls.history) (thought : Text) (action : Action) (observation : Observation) :
    Ensures I s (commitTurn env ls thought action observation) fun ls' s' => K s'.log ls'.state ls'.history := by
  have hstep := hinv.commit { thought := thought, action := action, observation := observation } h
  refine (report_ensures (hinv.reported hstep)).bind fun _ s₁ hw _ => ensures_pure ?_
  exact hinv.grow hw.subset hstep

end Parts

theorem evaluateToolApproval_execute
    (h : evaluateToolApproval action policy = .execute) : action.isMutating = false ∨ policy = .auto := by
  cases policy with
  | auto => exact Or.inr rfl
  | readOnly => cases hm : action.isMutating <;> simp_all [evaluateToolApproval]
  | onRequest => cases hm : action.isMutating <;> simp_all [evaluateToolApproval, requiresUserApproval]

theorem evaluateToolApproval_promptUser
    (h : evaluateToolApproval action policy = .promptUser) : policy = .onRequest := by
  cases policy with
  | onRequest => rfl
  | auto => simp [evaluateToolApproval] at h
  | readOnly => cases hm : action.isMutating <;> simp_all [evaluateToolApproval]

theorem evaluateToolApproval_of_not_mutating (h : action.isMutating = false) :
    evaluateToolApproval action policy = .execute := by
  cases policy <;> simp [evaluateToolApproval, requiresUserApproval, h]

section Pass

variable {s : Sys W} {session : SessionContext} {ls : LoopState}

variable (hinv : LoopInvariant env session.toolApprovalPolicy I K) (h : K s.log ls.state ls.history)

include hinv h in
theorem gateToolApproval_ensures (turn : PlannerTurn) (hturn : .planned session.toolApprovalPolicy turn ∈ s.log) :
    Ensures I s (gateToolApproval session ls.state turn.thought turn.action) fun gate s' =>
      gate.1 ≠ .paused → gate.2 = ls.state ∧ K s'.log ls.state ls.history ∧
        (gate.1 = .execute → turn.action.isMutating = false ∨ session.toolApprovalPolicy = .auto) := by
  unfold gateToolApproval
  cases hdecision : evaluateToolApproval turn.action session.toolApprovalPolicy with
  | execute => exact ensures_pure fun _ => ⟨rfl, h, fun _ => evaluateToolApproval_execute hdecision⟩
  | denyReadOnly => exact ensures_pure fun _ => ⟨rfl, h, fun h => by cases h⟩
  | promptUser =>
      refine (report_ensures ?_).bind fun _ _ _ _ => ensures_pure fun hne => absurd rfl hne
      exact hinv.paused turn _ h (evaluateToolApproval_promptUser hdecision) hturn rfl rfl

include hinv h in
theorem finishWithAction_ensures (cancelled : Bool) (thought : Text) (haction : action.isMutating = false) :
    Ensures I s (finishWithAction env session cancelled ls thought action) fun _ _ => True := by
  have hgate : gateToolApproval (W := W) session ls.state thought action = pure (.execute, ls.state) := by
    rw [gateToolApproval, evaluateToolApproval_of_not_mutating haction]
  have hstt : ∀ {l} (status : RunStatus), K l ls.state ls.history →
      K l { ls.state with status := status } ls.history := fun status h => hinv.update _ h rfl rfl
  rw [finishWithAction, hgate, Eff.pure_bind]
  refine (report_ensures (hinv.reported (hstt .executing h))).bind fun _ s₁ hw₁ _ => ?_
  have h₁ := hinv.grow hw₁.subset h
  refine (executorExecute_ensures (hinv.executed _ .finish action (by decide) (Or.inl haction))).bind
    fun observation s₂ hw₂ _ => ?_
  have h₂ := hinv.grow hw₂.subset h₁
  refine (stopIfCancelled_ensures cancelled (hinv.reported (hinv.update _ h₂ rfl rfl))).bind fun _ s₃ hw₃ _ => ?_
  have h₃ := hinv.grow hw₃.subset h₂
  refine (commitTurn_ensures hinv { ls with
    state := { ls.state with status := .executing },
    guardrails := ls.guardrails.recordTurn action observation.ok } (hstt .executing h₃) thought action
    observation).bind fun ls' s₄ _ h₄ => ?_
  split
  · refine (report_ensures (hinv.reported (hinv.update _ h₄ ?_ ?_))).bind fun _ _ _ _ => ensures_fail
    · cases action <;> rfl
    · cases action <;> rfl
  · refine (report_ensures ?_).bind fun _ _ _ _ => ensures_pure trivial
    exact hinv.reported (hinv.update _ h₄ rfl rfl)

variable (ls) in
theorem takeTurn_ensures (hinv : LoopInvariant env session.toolApprovalPolicy I K)
    (h : K s.log ls.state ls.history) (cancelled : Bool) (turn : PlannerTurn)
    (hturn : .planned session.toolApprovalPolicy turn ∈ s.log) :
    Ensures I s (takeTurn env session cancelled ls turn) fun pass s' =>
      ∀ ls', pass = .again ls' → K s'.log ls'.state ls'.history := by
  have done {action : Action} (haction : action.isMutating = false) {s' : Sys W}
      (h' : K s'.log ls.state ls.history) :
      Ensures I s' (do return Pass.done (← finishWithAction env session cancelled ls turn.thought action))
        fun pass s' => ∀ ls', pass = .again ls' → K s'.log ls'.state ls'.history :=
    (finishWithAction_ensures hinv h' cancelled turn.thought haction).bind fun _ _ _ _ =>
      ensures_pure fun _ hagain => by cases hagain
  rw [takeTurn]
  have hdecided : Ensures I s (write (.decided (ls.guardrails.check turn.action))) fun _ _ => True :=
    ensures_event rfl (hinv.decided _ _) fun _ _ => trivial
  refine hdecided.bind fun _ s₁ hw₁ _ => ?_
  have h₁ := hinv.grow hw₁.subset h
  split
  · exact done rfl h₁
  · exact done rfl h₁
  · split
    · rename_i hends
      refine done ?_ h₁
      cases ha : turn.action <;> simp_all [shouldPauseForUser, shouldStopAfterAction, Action.isMutating]
    · refine (gateToolApproval_ensures hinv h₁ turn (hw₁.subset hturn)).bind fun gate s₂ hw₂ hgate => ?_
      obtain ⟨gate, state⟩ := gate
      cases gate with
      | paused => exact ensures_fail
      | deniedReadOnly =>
          obtain ⟨rfl, h₂, -⟩ := hgate nofun
          refine (commitTurn_ensures hinv ls h₂ turn.thought turn.action _).bind fun ls' s₃ _ h₃ => ?_
          have h₃' := hinv.update { ls'.state with status := .planning } h₃ rfl rfl
          refine (report_ensures (hinv.reported h₃')).bind fun _ s₄ hw₄ _ => ensures_pure ?_
          rintro _ ⟨⟩
          exact hinv.grow hw₄.subset h₃'
      | execute =>
          obtain ⟨rfl, h₂, hexec⟩ := hgate nofun
          have h₂' := hinv.update { ls.state with status := .executing } h₂ rfl rfl
          refine (report_ensures (hinv.reported h₂')).bind fun _ s₃ hw₃ _ => ?_
          refine (executorExecute_ensures (hinv.executed _ .turn turn.action (by decide) (hexec rfl))).bind
            fun observation s₄ hw₄ _ => ?_
          have h₄ := hinv.grow hw₄.subset (hinv.grow hw₃.subset h₂')
          refine (stopIfCancelled_ensures cancelled (hinv.reported (hinv.update _ h₄ rfl rfl))).bind
            fun _ s₅ hw₅ _ => ?_
          have h₅ := hinv.grow hw₅.subset h₄
          refine (commitTurn_ensures hinv { ls with state := { ls.state with status := .executing } } h₅
            turn.thought turn.action observation).bind fun ls' s₆ _ h₆ => ?_
          have h₆' := hinv.update { ls'.state with status := .planning } h₆ rfl rfl
          refine (report_ensures (hinv.reported h₆')).bind fun _ s₇ hw₇ _ => ensures_pure ?_
          rintro _ ⟨⟩
          exact hinv.grow hw₇.subset h₆'

include hinv in
theorem planNextAction_ensures {history : List ChatMessage} (h : K s.log state history) (lastParseError : Option Text) :
    Ensures I s (planNextAction env session state.steps history lastParseError) fun result s' =>
      ∀ turn, result = .ok turn → .planned session.toolApprovalPolicy turn ∈ s'.log := by
  cases hplan : (env.plan session.model session.workspaceRoot session.taskPrompt history lastParseError s.world).1 with
  | error e =>
      refine ensures_event (e := .planning state.steps history) ?_ (hinv.planning h) fun result hr turn hturn => ?_
      · simp [planNextAction, hplan]
      · subst hturn
        simp [planNextAction, hplan] at hr
  | ok turn =>
      refine ⟨⟨[.planning state.steps history, .planned session.toolApprovalPolicy turn], ?_, hinv.planning h,
        hinv.planned _ turn, trivial⟩, fun result hr turn' hturn => ?_⟩
      · simp [planNextAction, hplan]
      · subst hturn
        simp only [planNextAction, hplan, Except.ok.injEq] at hr
        simp [planNextAction, hplan, hr]

include hinv h in
theorem loopPass_ensures (cancelled : Bool) :
    Ensures I s (loopPass env session cancelled ls) fun pass s' =>
      ∀ ls', pass = .again ls' → K s'.log ls'.state ls'.history := by
  rw [loopPass]
  refine (stopIfCancelled_ensures cancelled (hinv.reported (hinv.update _ h rfl rfl))).bind fun _ s₁ hw₁ _ => ?_
  have h₁ := hinv.update { ls.state with status := .planning } (hinv.grow hw₁.subset h) rfl rfl
  refine (report_ensures (hinv.reported h₁)).bind fun _ s₂ hw₂ _ => ?_
  have h₂ := hinv.grow hw₂.subset h₁
  refine (planNextAction_ensures hinv h₂ none).bind fun result s₃ hw₃ hturn => ?_
  have h₃ := hinv.grow hw₃.subset h₂
  split
  · exact takeTurn_ensures { ls with state := { ls.state with status := .planning } } hinv h₃ cancelled _
      (hturn _ rfl)
  · refine (report_ensures ?_).bind fun _ _ _ _ => ensures_pure ?_
    · exact hinv.reported (hinv.update _ h₃ rfl rfl)
    · rintro _ ⟨⟩
  · exact ensures_fail

include hinv in
theorem loop_ensures (cancelled : Bool) (passes : Nat)
    (h : K s.log ls.state ls.history) : Ensures I s (loop env session cancelled passes ls) fun _ _ => True := by
  induction passes generalizing s ls with
  | zero => exact ensures_fail
  | succ passes ih =>
      refine (loopPass_ensures hinv h cancelled).bind fun pass s₁ _ hpass => ?_
      cases pass with
      | again ls' => exact ih (hpass ls' rfl)
      | done outcome => exact ensures_pure trivial

variable (session) in
theorem runWithState_ensures (hinv : LoopInvariant env session.toolApprovalPolicy I K) (config : GuardrailsConfig)
    (cancelled : Bool) {state : RunState} {history : List ChatMessage} (h : K s.log state history) :
    Ensures I s (runWithState env config session cancelled state history) fun _ _ => True := by
  rw [runWithState]
  have h' := hinv.update { state with status := .preparing, awaitingUserQuestion := none } h rfl rfl
  exact (report_ensures (hinv.reported h')).bind fun _ s₁ hw₁ _ =>
    loop_ensures hinv cancelled _ (hinv.grow hw₁.subset h')

end Pass

/-! ## The runtime -/

section Runtime

variable {s : Sys W} {request : RunRequest} (config : GuardrailsConfig) (cancelled : Bool)

variable (hinv : LoopInvariant env request.toolApprovalPolicy I K)

include hinv in
theorem run_ensures (h : K s.log { runId := request.runId, workspaceId := request.workspaceId } []) :
    Ensures I s (run env config request cancelled) fun _ _ => True :=
  runWithState_ensures (buildSession request) hinv config cancelled h

include hinv in
theorem resume_ensures {userResponse : Text} (h : K s.log state (buildHistoryFromState env state userResponse)) :
    Ensures I s (resume env config request state userResponse cancelled) fun _ _ => True :=
  runWithState_ensures (buildSession request) hinv config cancelled (hinv.update _ h rfl rfl)

theorem observePending_ensures {pending : PendingTurn} (approved : Bool)
    (hrepd : I s.log (.reported { state with status := .executing })) (happroved : approved = true →
      I (s.log ++ [.reported { state with status := .executing }]) (.executed .approval pending.action)) :
    Ensures I s (observePending env state pending approved) fun observed _ =>
      observed.1.steps = state.steps ∧ observed.1.pendingTurn = state.pendingTurn := by
  cases approved with
  | false => exact ensures_pure ⟨rfl, rfl⟩
  | true =>
      refine (report_ensures hrepd).bind fun _ s₁ _ hlog₁ => ?_
      have hexec : Ensures I s₁ (executorExecute env .approval pending.action) fun _ _ => True :=
        executorExecute_ensures (by rw [hlog₁]; exact happroved rfl)
      exact hexec.bind fun _ _ _ _ => ensures_pure ⟨rfl, rfl⟩

include hinv in
theorem confirmPendingTool_ensures
    (approved : Bool) (h : K s.log { state with pendingTurn := none } (buildHistoryFromState env state []))
    (happroved : approved = true → ∀ pending ∈ state.pendingTurn, ∀ reported : RunState,
      I (s.log ++ [.reported reported]) (.executed .approval pending.action)) :
    Ensures I s (confirmPendingTool env config request state approved cancelled) fun _ _ => True := by
  rw [confirmPendingTool, resumePendingTool]
  dsimp only
  split
  · exact ensures_fail
  · rename_i pending hpend
    have hstt {l} (state' : RunState) (hl : s.log ⊆ l) (hsts : state'.steps = state.steps)
        (hnone : state'.pendingTurn = none) : K l state' (buildHistoryFromState env state []) :=
      hinv.update state' (hinv.grow hl h) hsts hnone
    have hstop : ∀ state' : RunState, state'.steps = state.steps → state'.pendingTurn = none → ∀ {s' : Sys W},
        s.log ⊆ s'.log → Ensures I s' (stopIfCancelled env cancelled state') fun _ s'' => s''.log = s'.log :=
      fun state' hsts hnone {s'} hl =>
        stopIfCancelled_ensures cancelled (hinv.reported (hstt { state' with status := .cancelled } hl hsts hnone))
    let state₀ : RunState :=
      { state with awaitingUserQuestion := none, error := none, pendingTurn := none, awaitingToolApproval := none }
    refine (hstop state₀ rfl rfl (List.Subset.refl _)).bind fun _ s₁ hw₁ hlog₁ => ?_
    refine (observePending_ensures approved ?_ fun ha => ?_).bind fun observed s₂ hw₂ hobserved => ?_
    · rw [hlog₁]
      exact hinv.reported (hstt { state₀ with status := .executing } (List.Subset.refl _) rfl rfl)
    · rw [hlog₁]
      exact happroved ha pending hpend _
    · obtain ⟨state', observation⟩ := observed
      obtain ⟨hsts, hnone⟩ := hobserved
      have hl₂ := List.Subset.trans hw₁.subset hw₂.subset
      refine (hstop state' hsts hnone hl₂).bind fun _ s₃ hw₃ _ => ?_
      have h₃ := hstt state' (List.Subset.trans hl₂ hw₃.subset) hsts hnone
      refine (commitTurn_ensures hinv ⟨state', _, _⟩ h₃ pending.thought pending.action observation).bind
        fun ls s₄ _ h₄ => ?_
      have h₄' := hinv.update { ls.state with status := .planning } h₄ rfl rfl
      refine (report_ensures (hinv.reported h₄')).bind fun _ s₅ hw₅ _ => ?_
      exact runWithState_ensures (buildSession request) hinv config cancelled
        (hinv.grow hw₅.subset h₄')

end Runtime

end CodexStudy.ChatAgent
