import CodexStudy.ChatAgent.Lemmas.Loop

/-!
# Passes of a run whose pauses are approved
-/

namespace CodexStudy.ChatAgent

open CodexStudy.Lib CodexStudy.Lib.Logged List Eff RunState LoopState ChatAgentRuntime Nat

/-! ## What the guardrails have seen -/

variable {g g' : Guardrails} {action : Action} {e : ChatAgentError} {pending : PendingTurn}
    {observation : Observation}

namespace Guardrails

structure Below (g g' : Guardrails) : Prop where
  config : g.config = g'.config
  turns : g.turnCount ≤ g'.turnCount
  identical : g.identicalCount = 0 ∨ g.lastFingerprint = g'.lastFingerprint ∧ g.identicalCount ≤ g'.identicalCount
  failures : g.consecutiveFailures ≤ g'.consecutiveFailures
  edits : ∀ path n, g.fileEditCounts path = some n → ∃ m, g'.fileEditCounts path = some m ∧ n ≤ m

theorem below_new (g : Guardrails) : Below (.new g.config) g where
  config := rfl
  turns := zero_le _
  identical := Or.inl rfl
  failures := zero_le _
  edits _ _ h := by cases h

/-! ## Recording a turn -/

def countEdit (counts : Text → Option Nat) : Action → Text → Option Nat
  | .editFile path _ _, p => if p = path then some ((counts path).getD 0 + 1) else counts p
  | _, p => counts p

theorem recordTurn_eq (g : Guardrails) (action : Action) (ok : Bool) : g.recordTurn action ok =
    { config := g.config
      turnCount := g.turnCount + 1
      lastFingerprint := some action.fingerprint
      identicalCount := if g.lastFingerprint = some action.fingerprint then g.identicalCount + 1 else 1
      consecutiveFailures := if ok then 0 else g.consecutiveFailures + 1
      fileEditCounts := countEdit g.fileEditCounts action } := by
  by_cases h : g.lastFingerprint = some action.fingerprint
  · cases ok <;> simp only [recordTurn, h, if_true] <;> cases action <;> rfl
  · cases ok <;> simp only [recordTurn, h, if_false, if_true] <;> cases action <;> rfl

theorem countEdit_le {counts counts' : Text → Option Nat}
    (h : ∀ path n, counts path = some n → ∃ m, counts' path = some m ∧ n ≤ m) (action : Action) (path : Text)
    {n : Nat} (hn : countEdit counts action path = some n) : ∃ m, countEdit counts' action path = some m ∧ n ≤ m := by
  cases action with
  | editFile edited oldStr newStr =>
      by_cases hpath : path = edited
      · subst hpath
        simp only [countEdit, if_true, Option.some.injEq] at hn ⊢
        refine ⟨_, rfl, ?_⟩
        cases hcnt : counts path with
        | none =>
            rw [hcnt, Option.getD_none] at hn
            omega
        | some count =>
            obtain ⟨m, hm, hle⟩ := h path count hcnt
            rw [hcnt, Option.getD_some] at hn
            rw [hm, Option.getD_some]
            omega
      · simp only [countEdit, if_neg hpath] at hn ⊢
        exact h path n hn
  | _ => exact h path n hn

theorem Below.recordTurn (h : Below g g') (action : Action) (ok : Bool) :
    Below (g.recordTurn action ok) (g'.recordTurn action ok) := by
  rw [recordTurn_eq, recordTurn_eq]
  refine ⟨h.config, succ_le_succ h.turns, Or.inr ⟨rfl, ?_⟩, ?_, fun path _ => countEdit_le h.edits action path⟩
  · dsimp only
    rcases h.identical with hzero | ⟨hlast, hle⟩
    · rw [hzero]
      split <;> split <;> omega
    · rw [hlast]
      split
      · exact succ_le_succ hle
      · exact le_refl 1
  · cases ok with
    | true => exact le_refl 0
    | false => exact succ_le_succ h.failures

theorem Below.check_continue (h : Below g g')
    (hck : g'.check action = .continue) : g.check action = .continue := by
  unfold check at hck ⊢
  rw [h.config]
  have htns := h.turns
  have hfailures := h.failures
  split at hck
  · cases hck
  · split at hck
    · cases hck
    · split at hck
      · cases hck
      · have hidentical : ¬ g.identicalCount ≥ g'.config.maxIdenticalActions := by
          rcases h.identical with hzero | ⟨-, hle⟩ <;> omega
        rw [if_neg (by omega), if_neg hidentical, if_neg (by omega)]
        cases action with
        | editFile path oldStr newStr =>
            dsimp only at hck ⊢
            split at hck
            · cases hck
            · rename_i hedits
              refine if_neg fun hany => hedits ?_
              obtain ⟨n, hn, hmax⟩ := (Option.any_eq_true _ _).mp hany
              obtain ⟨m, hm, hle⟩ := h.edits path n hn
              rw [hm, Option.any_some, decide_eq_true_eq]
              rw [decide_eq_true_eq] at hmax
              exact le_trans hmax hle
        | _ => rfl

end Guardrails

/-! ## Steps -/

variable (config : GuardrailsConfig) (steps : List StepRecord)

theorem recordSteps_append (step : StepRecord) :
    recordSteps config (steps ++ [step]) = (recordSteps config steps).recordTurn step.action step.observation.ok := by
  simp [recordSteps]

@[simp] theorem recordSteps_config :
    (recordSteps config steps).config = config := by
  induction steps using reverseRecOn with
  | nil => rfl
  | append_singleton steps step ih => rw [recordSteps_append, Guardrails.recordTurn_eq, ih]

@[simp] theorem recordSteps_turnCount :
    (recordSteps config steps).turnCount = steps.length := by
  induction steps using reverseRecOn with
  | nil => rfl
  | append_singleton steps step ih => simp [recordSteps_append, Guardrails.recordTurn_eq, ih]

theorem recordSteps_below {steps steps' : List StepRecord} (h : steps <:+ steps') :
    (recordSteps config steps).Below (recordSteps config steps') := by
  obtain ⟨before, rfl⟩ := h
  induction steps using reverseRecOn with
  | nil =>
      have := Guardrails.below_new (recordSteps config (before ++ []))
      rwa [recordSteps_config] at this
  | append_singleton steps step ih =>
      rw [← append_assoc, recordSteps_append, recordSteps_append]
      exact ih.recordTurn _ _

theorem check_continue_turnCount (h : g.check action = .continue) :
    g.turnCount < g.config.maxTurns := by
  unfold Guardrails.check at h
  split at h
  · cases h
  · omega

variable {W : Type} {env : Env W} {config : GuardrailsConfig} {request : RunRequest} {cancelled : Bool}

/-! ## The log -/

/-- Decides nothing, waits for no approval and has at most `k` steps. -/
def Quiet (k : Nat) : Event → Prop
  | .reported state => state.steps.length ≤ k ∧ state.pendingTurn = none
  | .decided _ => False
  | _ => True

structure Tidy (k : Nat) (ds : List GuardrailAction) (log : List Event) : Prop where
  decisions : decisions log = ds
  steps : ∀ state, .reported state ∈ log → state.steps.length ≤ k
  waiting : ∀ state ∈ lastReported log, state.pendingTurn = none

theorem decisions_append (log log' : List Event) : decisions (log ++ log') = decisions log ++ decisions log' :=
  filterMap_append

theorem decisions_quiet {k : Nat} {new : List Event} (h : ∀ e ∈ new, Quiet k e) : decisions new = [] := by
  refine filterMap_eq_nil_iff.mpr fun e he => ?_
  have := h e he
  cases e with
  | decided decision => exact this.elim
  | _ => rfl

section Tidy

variable {k k' : Nat} {ds : List GuardrailAction} {log new : List Event}

theorem Tidy.append (h : Tidy k ds log) (hk : k ≤ k') (hnew : ∀ e ∈ new, Quiet k' e) : Tidy k' ds (log ++ new) where
  decisions := by rw [decisions_append, decisions_quiet hnew, append_nil, h.decisions]
  steps state hmem := by
    rcases mem_append.mp hmem with hmem | hmem
    · exact (h.steps state hmem).trans hk
    · exact (hnew _ hmem).1
  waiting state hlast := by
    rw [lastReported_append] at hlast
    cases hnone : lastReported new with
    | none => exact h.waiting state (by rwa [hnone] at hlast)
    | some last =>
        rw [hnone, Option.some_or, Option.mem_some_iff] at hlast
        subst hlast
        exact (hnew _ (mem_of_lastReported hnone)).2

theorem Tidy.mono (h : Tidy k ds log) (hk : k ≤ k') : Tidy k' ds log where
  decisions := h.decisions
  steps state hmem := (h.steps state hmem).trans hk
  waiting := h.waiting

theorem Tidy.append_paused (h : Tidy k ds log) (hk : k ≤ k') {paused state : RunState} (hpaused : paused.steps.length ≤ k')
    (hnew : ∀ e ∈ Event.reported state :: new, Quiet k' e) :
    Tidy k' ds (log ++ [.reported paused] ++ .reported state :: new) where
  decisions := by
    rw [decisions_append, decisions_quiet hnew, append_nil, decisions_append, h.decisions]
    exact append_nil _
  steps state' hmem := by
    rcases mem_append.mp hmem with hmem | hmem
    · rcases mem_append.mp hmem with hmem | hmem
      · exact (h.steps state' hmem).trans hk
      · obtain rfl : state' = paused := by simpa using hmem
        exact hpaused
    · exact (hnew _ hmem).1
  waiting state' hlast := by
    rw [lastReported_append] at hlast
    cases hnone : lastReported (.reported state :: new) with
    | none =>
        exfalso
        simp [lastReported, Event.state?] at hnone
    | some last =>
        rw [hnone, Option.some_or, Option.mem_some_iff] at hlast
        subst hlast
        exact (hnew _ (mem_of_lastReported hnone)).2

theorem Tidy.decide (h : Tidy k ds log) (d : GuardrailAction) : Tidy k (ds ++ [d]) (log ++ [.decided d]) where
  decisions := by
    rw [decisions_append, h.decisions]
    rfl
  steps state hmem := h.steps state (by simpa using hmem)
  waiting state hlast := h.waiting state (by rwa [lastReported_append] at hlast)

theorem Tidy.of_writes {s s' : Sys W} (h : Tidy k ds s.log) (hk : k ≤ k') (hw : Writes (fun _ => Quiet k') s s') :
    Tidy k' ds s'.log := by
  obtain ⟨new, hlog, hnew⟩ := hw
  rw [hlog]
  refine h.append hk fun e he => ?_
  obtain ⟨before, after, rfl⟩ := append_of_mem he
  exact hnew.split

end Tidy

theorem waitingState_of_tidy {k : Nat} {ds : List GuardrailAction} {outcome : Outcome W}
    (h : Tidy k ds outcome.2.log) : waitingState outcome = none := by
  unfold waitingState
  split
  · cases hlast : lastReported outcome.2.log with
    | none => rfl
    | some state => simp [h.waiting state hlast]
  · rfl

/-! ## The end of a run -/

theorem report_bind_apply {α : Type} (state : RunState) (f : Unit → Agent W α) (s : Sys W) :
    (report state >>= f) s = f () { s with log := s.log ++ [.reported state] } := rfl

theorem write_bind_apply {α : Type} (event : Event) (f : Unit → Agent W α) (s : Sys W) :
    (write event >>= f) s = f () { s with log := s.log ++ [event] } := rfl

theorem stopIfCancelled_apply (hc : NotCancelled env cancelled) (state : RunState) (s : Sys W) :
    stopIfCancelled env cancelled state s = (.ok (), s) := by
  cases cancelled with
  | false => rfl
  | true =>
      have hread : isCancelled env true s = (.ok false, s) := by simp [isCancelled, hc rfl s.world]
      rw [stopIfCancelled, bind_of_ok hread]
      rfl

variable (env cancelled) in
theorem finishWithAction_quiet (s : Sys W) (session : SessionContext) {ls : LoopState}
    (hpending : ls.state.pendingTurn = none) (thought : Text) {action : Action} (haction : action.isMutating = false) :
    Writes (fun _ => Quiet (ls.state.steps.length + 1)) s
      (finishWithAction env session cancelled ls thought action s).2 := by
  have hgate : gateToolApproval (W := W) session ls.state thought action = pure (.execute, ls.state) := by
    rw [gateToolApproval, evaluateToolApproval_of_not_mutating haction]
  suffices h : Ensures (fun _ => Quiet (ls.state.steps.length + 1)) s
      (finishWithAction env session cancelled ls thought action) fun _ _ => True from h.1
  have hsteps : ∀ step : StepRecord, (ls.state.steps ++ [step]).length ≤ ls.state.steps.length + 1 := fun step => by simp
  rw [finishWithAction, hgate, pure_bind]
  refine (report_ensures ⟨le_succ _, hpending⟩).bind fun _ s₁ _ _ => ?_
  refine (executorExecute_ensures trivial).bind fun observation s₂ _ _ => ?_
  refine (stopIfCancelled_ensures cancelled ⟨le_succ _, hpending⟩).bind fun _ s₃ _ _ => ?_
  refine Ensures.bind (Q := fun ls' _ => ls'.state.steps.length ≤ ls.state.steps.length + 1 ∧
    ls'.state.pendingTurn = none) ?_ fun ls' s₄ _ hls' => ?_
  · exact (report_ensures ⟨hsteps _, hpending⟩).bind fun _ _ _ _ => ensures_pure ⟨hsteps _, hpending⟩
  · split
    · refine (report_ensures ?_).bind fun _ _ _ _ => ensures_fail
      cases action <;> exact hls'
    · exact (report_ensures hls').bind fun _ _ _ _ => ensures_pure trivial

/-! ## A pass -/

def seenSteps : ToolApprovalPolicy → List StepRecord → List StepRecord
  | .onRequest, steps => sinceApproval steps
  | _, steps => steps

/-- Every turn so far has been let pass, and the loop is about to begin a pass, with enough passes left. -/
structure Ready (env : Env W) (config : GuardrailsConfig) (policy : ToolApprovalPolicy) (passes : Nat)
    (ls : LoopState) (s : Sys W) : Prop where
  history : ls.history = ls.state.steps.flatMap (stepMessages env)
  guardrails : ls.guardrails = recordSteps config (seenSteps policy ls.state.steps)
  pending : ls.state.pendingTurn = none
  passes : config.maxTurns < (seenSteps policy ls.state.steps).length + passes
  log : Tidy ls.state.steps.length (.replicate ls.state.steps.length .continue) s.log

def afterTurn (env : Env W) (session : SessionContext) (cancelled : Bool) (passes : Nat) (x : Agent W Pass) :
    Agent W RunLoopOutcome := do
  match ← x with
  | .again ls => loop env session cancelled passes ls
  | .done outcome => return outcome

section AfterTurn

variable {session : SessionContext} {passes : Nat} {x : Agent W Pass} {s s' : Sys W}

theorem afterTurn_of_error (h : x s = (.error e, s')) :
    afterTurn env session cancelled passes x s = (.error e, s') := bind_of_error h

theorem afterTurn_of_again {ls : LoopState} (h : x s = (.ok (.again ls), s')) :
    afterTurn env session cancelled passes x s = loop env session cancelled passes ls s' := bind_of_ok h

theorem afterTurn_of_done (h : ∀ ls, (x s).1 ≠ .ok (.again ls)) :
    (afterTurn env session cancelled passes x s).2 = (x s).2 := by
  rw [afterTurn, bind_apply]
  rcases hx : x s with ⟨e | pass, s'⟩
  · rfl
  · cases pass with
    | again ls => exact absurd (by rw [hx]) (h ls)
    | done outcome => rfl

end AfterTurn

section Pass

variable {policy : ToolApprovalPolicy} {passes : Nat} {ls : LoopState} {s : Sys W}

theorem Ready.log_planned (h : Ready env config policy passes ls s) (new : List Event) (hnew : ∀ e ∈ new, Quiet 0 e) :
    Tidy ls.state.steps.length (.replicate ls.state.steps.length .continue) (s.log ++
      .reported { ls.state with status := .planning } :: .planning ls.state.steps ls.history :: new) := by
  refine h.log.append (le_refl _) fun e he => ?_
  rcases mem_cons.mp he with rfl | he
  · exact ⟨le_refl _, h.pending⟩
  · rcases mem_cons.mp he with rfl | he
    · trivial
    · have hqt := hnew e he
      cases e with
      | reported state => exact ⟨hqt.1.trans (zero_le _), hqt.2⟩
      | decided decision => exact hqt.elim
      | _ => trivial

variable {w : W} {turn : PlannerTurn}

variable (hc : NotCancelled env cancelled) (hpol : policy ≠ .readOnly) (h : Ready env config policy (passes + 1) ls s)

include hc h in
theorem loop_of_error {e : PlannerError} (hanswer : answer env request ls.state.steps s.world = (.error e, w)) :
    Tidy ls.state.steps.length (.replicate ls.state.steps.length .continue)
      (loop env (buildSession (request.withPolicy policy)) cancelled (passes + 1) ls s).2.log := by
  let state : RunState := { ls.state with status := .planning }
  have hplan : planNextAction env (buildSession (request.withPolicy policy)) ls.state.steps ls.history none
      { s with log := s.log ++ [.reported state] } =
      (.ok (.error e), ⟨w, s.log ++ [.reported state, .planning ls.state.steps ls.history]⟩) := by
    have hans : env.plan request.model request.workspaceRoot request.prompt ls.history none s.world = (.error e, w) := by
      rw [h.history]
      exact hanswer
    simp [planNextAction, buildSession, RunRequest.withPolicy, hans]
  have hlog := h.log_planned [] (by simp)
  rw [loop, bind_apply, loopPass, bind_of_ok (stopIfCancelled_apply hc _ _)]
  dsimp only
  rw [report_bind_apply, bind_of_ok hplan]
  cases e with
  | modelApi message => exact hlog
  | parse message =>
      have hqt : ∀ e ∈ [Event.reported
          { state with status := .awaitingUser, error := some "Failed to parse model response".toList }],
          Quiet ls.state.steps.length e := by simp [Quiet, state, h.pending]
      exact hlog.append (le_refl _) hqt

include hc h in
theorem loop_of_turn (hanswer : answer env request ls.state.steps s.world = (.ok turn, w)) :
    ∃ ls₁ s₁, Ready env config policy (passes + 1) ls₁ s₁ ∧ ls₁.state.steps = ls.state.steps ∧ s₁.world = w ∧
      loop env (buildSession (request.withPolicy policy)) cancelled (passes + 1) ls s =
        afterTurn env (buildSession (request.withPolicy policy)) cancelled passes
          (takeTurn env (buildSession (request.withPolicy policy)) cancelled ls₁ turn) s₁ := by
  let state : RunState := { ls.state with status := .planning }
  let s₁ : Sys W := ⟨w, s.log ++ [.reported state, .planning ls.state.steps ls.history, .planned policy turn]⟩
  have hplan : planNextAction env (buildSession (request.withPolicy policy)) ls.state.steps ls.history none
      { s with log := s.log ++ [.reported state] } = (.ok (.ok turn), s₁) := by
    have hans : env.plan request.model request.workspaceRoot request.prompt ls.history none s.world = (.ok turn, w) := by
      rw [h.history]
      exact hanswer
    simp [planNextAction, buildSession, RunRequest.withPolicy, hans, s₁]
  refine ⟨{ ls with state := state }, s₁, ?_, rfl, rfl, ?_⟩
  · exact { history := h.history, guardrails := h.guardrails, pending := h.pending, passes := h.passes,
            log := h.log_planned _ (by simp [Quiet]) }
  · rw [loop, afterTurn, bind_apply, loopPass, bind_of_ok (stopIfCancelled_apply hc _ _)]
    dsimp only
    rw [report_bind_apply, bind_of_ok hplan]
    rfl

/-! ## The turn of a pass -/

section TakeTurn

variable {session : SessionContext} {turn : PlannerTurn} {ds : List GuardrailAction}

variable (env cancelled s session) in
theorem takeTurn_of_ends (hends : ls.guardrails.check turn.action ≠ .continue ∨ endsLoop turn.action = true) :
    ∃ action : Action, action.isMutating = false ∧ takeTurn env session cancelled ls turn s =
      (finishWithAction env session cancelled ls turn.thought action >>= fun outcome => pure (Pass.done outcome))
        { s with log := s.log ++ [.decided (ls.guardrails.check turn.action)] } := by
  rw [takeTurn, write_bind_apply]
  cases hcheck : ls.guardrails.check turn.action with
  | forceAskUser reason => exact ⟨.askUser reason none, rfl, rfl⟩
  | forceFinalize reason => exact ⟨.finalize reason none, rfl, rfl⟩
  | «continue» =>
      have hends := hends.resolve_left (fun h => h hcheck)
      refine ⟨turn.action, ?_, ?_⟩
      · cases ha : turn.action <;> simp_all [endsLoop, shouldPauseForUser, shouldStopAfterAction, Action.isMutating]
      · rw [endsLoop] at hends
        dsimp only
        rw [if_pos hends]

theorem done_apply (x : Agent W RunLoopOutcome) (s : Sys W) :
    ((x >>= fun outcome => pure (Pass.done outcome)) s).2 = (x s).2 ∧
      ∀ ls', ((x >>= fun outcome => pure (Pass.done outcome)) s).1 ≠ .ok (.again ls') := by
  rw [bind_apply]
  rcases x s with ⟨e | outcome, s'⟩
  · exact ⟨rfl, fun _ h => by cases h⟩
  · exact ⟨rfl, fun _ h => by cases h⟩

variable (env cancelled s session) in
theorem takeTurn_ends (hlog : Tidy ls.state.steps.length ds s.log) (hpending : ls.state.pendingTurn = none)
    (hends : ls.guardrails.check turn.action ≠ .continue ∨ endsLoop turn.action = true) :
    Tidy (ls.state.steps.length + 1) (ds ++ [ls.guardrails.check turn.action])
        (takeTurn env session cancelled ls turn s).2.log ∧
      ∀ ls', (takeTurn env session cancelled ls turn s).1 ≠ .ok (.again ls') := by
  obtain ⟨action, haction, htake⟩ := takeTurn_of_ends env cancelled s session hends
  have hquiet := finishWithAction_quiet env cancelled
    { s with log := s.log ++ [.decided (ls.guardrails.check turn.action)] } session hpending turn.thought haction
  have htidy := (hlog.decide (ls.guardrails.check turn.action)).of_writes (le_succ _) hquiet
  obtain ⟨hstate, hagain⟩ := done_apply (finishWithAction env session cancelled ls turn.thought action)
    { s with log := s.log ++ [.decided (ls.guardrails.check turn.action)] }
  rw [htake]
  refine ⟨?_, hagain⟩
  rw [hstate]
  exact htidy

def executeTurn (env : Env W) (cancelled : Bool) (ls : LoopState) (turn : PlannerTurn) : Agent W Pass := do
  let state : RunState := { ls.state with status := .executing }
  report state
  let observation ← executorExecute env .turn turn.action
  stopIfCancelled env cancelled state
  let ls ← commitTurn env { ls with state := state } turn.thought turn.action observation
  let state := { ls.state with status := .planning }
  report state
  return .again { ls with state := state }

variable (env cancelled s session) in
theorem takeTurn_of_execute (hcheck : ls.guardrails.check turn.action = .continue)
    (hends : endsLoop turn.action = false)
    (hgate : evaluateToolApproval turn.action session.toolApprovalPolicy = .execute) :
    takeTurn env session cancelled ls turn s =
      executeTurn env cancelled ls turn { s with log := s.log ++ [.decided .continue] } := by
  have hgate' : gateToolApproval (W := W) session ls.state turn.thought turn.action = pure (.execute, ls.state) := by
    rw [gateToolApproval, hgate]
  rw [takeTurn, write_bind_apply, hcheck]
  dsimp only
  rw [endsLoop] at hends
  rw [if_neg (by simp [hends]), hgate', pure_bind]
  rfl

def pausedState (state : RunState) (turn : PlannerTurn) : RunState :=
  { state with
    pendingTurn := some { thought := turn.thought, action := turn.action }
    awaitingToolApproval := some { toolName := turn.action.typeName, summary := toolApprovalSummary turn.action }
    status := .awaitingToolApproval }

variable (env cancelled s session) in
theorem takeTurn_of_promptUser (hcheck : ls.guardrails.check turn.action = .continue)
    (hends : endsLoop turn.action = false)
    (hgate : evaluateToolApproval turn.action session.toolApprovalPolicy = .promptUser) :
    takeTurn env session cancelled ls turn s = (.error .awaitingToolApproval,
      { s with log := s.log ++ [.decided .continue] ++ [.reported (pausedState ls.state turn)] }) := by
  rw [takeTurn, write_bind_apply, hcheck]
  dsimp only
  rw [endsLoop] at hends
  rw [if_neg (by simp [hends]), gateToolApproval, hgate]
  rfl

def LoopState.afterStep (env : Env W) (ls : LoopState) (step : StepRecord) : LoopState where
  state := { (pushStep { ls.state with status := .executing } step) with status := .planning }
  guardrails := ls.guardrails.recordTurn step.action step.observation.ok
  history := ls.history ++ stepMessages env step

def stepOf (turn : PlannerTurn) (observation : Observation) : StepRecord :=
  { thought := turn.thought, action := turn.action, observation := observation }

theorem executeTurn_of_error (hexec : env.execute turn.action s.world = (.error e, w)) :
    executeTurn env cancelled ls turn s = (.error e,
      ⟨w, s.log ++ [.reported { ls.state with status := .executing }] ++ [.executed .turn turn.action]⟩) := by
  rw [executeTurn, report_bind_apply, bind_of_error]
  simp [executorExecute, hexec]

variable (ls turn) in
theorem executeTurn_of_ok (hc : NotCancelled env cancelled) {observation : Observation} {w : W}
    (hexec : env.execute turn.action s.world = (.ok observation, w)) :
    ∃ new, (∀ e ∈ new, ls.state.pendingTurn = none → Quiet (ls.state.steps.length + 1) e) ∧
      executeTurn env cancelled ls turn s =
        (.ok (.again (ls.afterStep env (stepOf turn observation))), ⟨w, s.log ++ new⟩) := by
  let executing : RunState := { ls.state with status := .executing }
  let ls' := ls.afterStep env (stepOf turn observation)
  refine ⟨[.reported executing, .executed .turn turn.action, .reported (executing.pushStep (stepOf turn observation)),
    .reported ls'.state], ?_, ?_⟩
  · intro e he hpending
    simp only [mem_cons, not_mem_nil, or_false] at he
    rcases he with rfl | rfl | rfl | rfl
    · exact ⟨le_succ _, hpending⟩
    · trivial
    · exact ⟨by simp [pushStep, executing], hpending⟩
    · exact ⟨by simp [ls', afterStep, pushStep], hpending⟩
  · have hexec' : executorExecute env .turn turn.action { s with log := s.log ++ [.reported executing] } =
        (.ok observation, ⟨w, s.log ++ [.reported executing] ++ [.executed .turn turn.action]⟩) := by
      simp [executorExecute, hexec]
    rw [executeTurn, report_bind_apply, bind_of_ok hexec', bind_of_ok (stopIfCancelled_apply hc _ _)]
    simp [commitTurn, bind_apply, report, write, ls', afterStep, stepOf, executing]

end TakeTurn

/-! ## The approval of a turn -/

def approvedState (state : RunState) : RunState :=
  { state with
    awaitingUserQuestion := none, error := none, pendingTurn := none, awaitingToolApproval := none,
    status := .executing }

section Confirm

variable {state : RunState} {turn : PlannerTurn}

theorem runWithState_apply (session : SessionContext) (history : List ChatMessage) :
    runWithState env config session cancelled state history s =
      loop env session cancelled (config.maxTurns + 1)
        ⟨{ state with status := .preparing, awaitingUserQuestion := none }, .new config, history⟩
        { s with log := s.log ++ [.reported { state with status := .preparing, awaitingUserQuestion := none }] } := rfl

theorem observePending_of_error
    (hexec : env.execute pending.action s.world = (.error e, w)) : observePending env state pending true s =
      (.error e, ⟨w, s.log ++ [.reported { state with status := .executing }, .executed .approval pending.action]⟩) := by
  rw [observePending, if_pos rfl, report_bind_apply, bind_of_error]
  simp [executorExecute, hexec]

theorem observePending_of_ok
    (hexec : env.execute pending.action s.world = (.ok observation, w)) :
    observePending env state pending true s = (.ok ({ state with status := .executing }, observation),
      ⟨w, s.log ++ [.reported { state with status := .executing }, .executed .approval pending.action]⟩) := by
  rw [observePending, if_pos rfl, report_bind_apply, bind_apply]
  simp [executorExecute, hexec]

variable (config request state turn) in
theorem confirm_of_error (hc : NotCancelled env cancelled) {e : ChatAgentError} {w : W}
    (hexec : env.execute turn.action s.world = (.error e, w)) :
    confirmPendingTool env config request (pausedState state turn) true cancelled s = (.error e,
      ⟨w, s.log ++ [.reported (approvedState state), .executed .approval turn.action]⟩) := by
  rw [confirmPendingTool, resumePendingTool]
  dsimp only [pausedState]
  rw [bind_of_ok (stopIfCancelled_apply hc _ _), bind_of_error (observePending_of_error hexec)]
  rfl

theorem buildHistoryFromState_nil (env : Env W) (state : RunState) :
    buildHistoryFromState env state [] = state.steps.flatMap (stepMessages env) := by
  simp [buildHistoryFromState, Text.trim, Text.trimStart, Text.trimEnd]

variable (config request state turn) in
theorem confirm_of_ok (hc : NotCancelled env cancelled) {observation : Observation} {w : W}
    (hexec : env.execute turn.action s.world = (.ok observation, w)) :
    ∃ ls' new, confirmPendingTool env config request (pausedState state turn) true cancelled s =
        loop env (buildSession request) cancelled (config.maxTurns + 1) ls'
          ⟨w, s.log ++ .reported (approvedState state) :: new⟩ ∧
      (∀ e ∈ Event.reported (approvedState state) :: new, Quiet (state.steps.length + 1) e) ∧
      ls'.state.steps = state.steps ++ [stepOf turn observation] ∧ ls'.state.pendingTurn = none ∧
      ls'.history = ls'.state.steps.flatMap (stepMessages env) ∧ ls'.guardrails = .new config := by
  let stepped : RunState := (approvedState state).pushStep (stepOf turn observation)
  let preparing : RunState := { stepped with status := .preparing, awaitingUserQuestion := none }
  let ls' : LoopState := ⟨preparing, .new config, preparing.steps.flatMap (stepMessages env)⟩
  refine ⟨ls', [.executed .approval turn.action, .reported stepped, .reported { stepped with status := .planning },
    .reported preparing], ?_, ?_, rfl, rfl, rfl, rfl⟩
  · have hhistory : preparing.steps.flatMap (stepMessages env) =
        buildHistoryFromState env state [] ++ stepMessages env (stepOf turn observation) := by
      simp [buildHistoryFromState_nil, preparing, stepped, pushStep, approvedState]
    rw [confirmPendingTool, resumePendingTool]
    dsimp only [pausedState]
    rw [bind_of_ok (stopIfCancelled_apply hc _ _), bind_of_ok (observePending_of_ok hexec)]
    dsimp only
    rw [bind_of_ok (stopIfCancelled_apply hc _ _), commitTurn]
    dsimp only
    rw [bind_assoc, report_bind_apply, pure_bind, report_bind_apply, runWithState_apply]
    simp only [append_assoc, cons_append, nil_append, ls', hhistory]
    rfl
  · intro e he
    simp only [mem_cons, not_mem_nil, or_false] at he
    rcases he with rfl | rfl | rfl | rfl | rfl
    · exact ⟨le_succ _, rfl⟩
    · trivial
    all_goals exact ⟨by simp [stepped, preparing, pushStep, approvedState], rfl⟩

end Confirm

/-! ## From pass to pass -/

theorem seenSteps_suffix (policy : ToolApprovalPolicy) (steps : List StepRecord) : seenSteps policy steps <:+ steps := by
  cases policy with
  | onRequest => exact rtakeWhile_suffix _ _
  | _ => exact suffix_refl steps

theorem seenSteps_of_execute (step : StepRecord) (steps : List StepRecord)
    (h : evaluateToolApproval step.action policy = .execute) :
    seenSteps policy (steps ++ [step]) = seenSteps policy steps ++ [step] := by
  cases policy with
  | onRequest =>
      have hmut : step.action.isMutating = false := (evaluateToolApproval_execute h).resolve_right nofun
      exact rtakeWhile_concat_pos _ _ _ (by simp [hmut])
  | _ => rfl

theorem seenSteps_of_promptUser {step : StepRecord} (steps : List StepRecord)
    (h : evaluateToolApproval step.action policy = .promptUser) : seenSteps policy (steps ++ [step]) = [] := by
  obtain rfl := evaluateToolApproval_promptUser h
  have hmut : step.action.isMutating = true := by
    cases hm : step.action.isMutating with
    | true => rfl
    | false => simp [evaluateToolApproval, requiresUserApproval, hm] at h
  exact rtakeWhile_concat_neg _ _ _ (by simp [hmut])

include hpol in
theorem evaluateToolApproval_ne_readOnly (action : Action) :
    evaluateToolApproval action policy = .execute ∨ evaluateToolApproval action policy = .promptUser := by
  cases policy with
  | auto => exact Or.inl rfl
  | readOnly => exact absurd rfl hpol
  | onRequest =>
      rw [evaluateToolApproval]
      split
      · exact Or.inr rfl
      · exact Or.inl rfl

theorem approvePauses_of_none {outcome : Outcome W} (h : waitingState outcome = none) (n : Nat) :
    approvePauses env config request cancelled n outcome = outcome := by
  cases n with
  | zero => rfl
  | succ n => rw [approvePauses, h]

theorem approvePauses_of_some {outcome : Outcome W} {state : RunState} (h : waitingState outcome = some state) (n : Nat) :
    approvePauses env config request cancelled (n + 1) outcome = approvePauses env config request cancelled n
        (confirmPendingTool env config request state true cancelled outcome.2) := by
  rw [approvePauses, h]

theorem waitingState_paused {state : RunState} {log : List Event} :
    waitingState (.error .awaitingToolApproval, (⟨w, log ++ [.reported (pausedState state turn)]⟩ : Sys W)) =
      some (pausedState state turn) := by
  simp [waitingState, lastReported, Event.state?, pausedState]

include hc hpol h in
theorem pass_ends (hans : answer env request ls.state.steps s.world = (.ok turn, w))
    (hends : (recordSteps config (seenSteps policy ls.state.steps)).check turn.action ≠ .continue ∨
      endsLoop turn.action = true ∨ ∃ e w', env.execute turn.action w = (.error e, w')) :
    ∃ k, (policy = .auto → k = 0) ∧ Tidy (ls.state.steps.length + 1) (.replicate ls.state.steps.length .continue ++
        [(recordSteps config (seenSteps policy ls.state.steps)).check turn.action])
      (approvePauses env config (request.withPolicy policy) cancelled k
        (loop env (buildSession (request.withPolicy policy)) cancelled (passes + 1) ls s)).2.log := by
  obtain ⟨ls₁, s₁, h₁, hsts, rfl, hloop⟩ := loop_of_turn hc h hans
  rw [hloop]
  rw [← hsts, ← h₁.guardrails] at hends ⊢
  by_cases hstop : ls₁.guardrails.check turn.action ≠ .continue ∨ endsLoop turn.action = true
  · obtain ⟨htidy, hagain⟩ := takeTurn_ends env cancelled s₁
      (buildSession (request.withPolicy policy)) h₁.log h₁.pending hstop
    refine ⟨0, fun _ => rfl, ?_⟩
    rw [approvePauses, afterTurn_of_done hagain]
    exact htidy
  · rw [not_or, not_not, Bool.not_eq_true] at hstop
    obtain ⟨hck, hnot⟩ := hstop
    obtain ⟨e, w', hexec⟩ := (hends.resolve_left fun hne => hne hck).resolve_left (by simp [hnot])
    have hdecided := h₁.log.decide .continue
    rw [hck]
    rcases evaluateToolApproval_ne_readOnly hpol turn.action with hgate | hgate
    · have htake := takeTurn_of_execute env cancelled s₁ (buildSession (request.withPolicy policy)) hck hnot hgate
      rw [executeTurn_of_error (s := { s₁ with log := s₁.log ++ [.decided .continue] }) hexec] at htake
      refine ⟨0, fun _ => rfl, ?_⟩
      rw [approvePauses, afterTurn_of_error htake, append_assoc]
      refine hdecided.append (le_succ _) fun e he => ?_
      simp only [cons_append, nil_append, mem_cons, not_mem_nil, or_false] at he
      rcases he with rfl | rfl
      · exact ⟨le_succ _, h₁.pending⟩
      · trivial
    · have htake := takeTurn_of_promptUser env cancelled s₁ (buildSession (request.withPolicy policy)) hck hnot hgate
      have hconfirm := confirm_of_error config (request.withPolicy policy) ls₁.state turn
        (s := { s₁ with log := s₁.log ++ [.decided .continue] ++ [.reported (pausedState ls₁.state turn)] })
        hc hexec
      refine ⟨1, fun hauto => ?_, ?_⟩
      · subst hauto
        simp [evaluateToolApproval] at hgate
      · rw [afterTurn_of_error htake, approvePauses_of_some waitingState_paused, approvePauses, hconfirm]
        refine hdecided.append_paused (le_succ _) (le_succ _) fun e he => ?_
        simp only [mem_cons, not_mem_nil, or_false] at he
        rcases he with rfl | rfl
        · exact ⟨le_succ _, rfl⟩
        · trivial

include hc hpol h in
theorem pass_continues {w' : W}
    (hans : answer env request ls.state.steps s.world = (.ok turn, w))
    (hck : (recordSteps config (seenSteps policy ls.state.steps)).check turn.action = .continue)
    (hends : endsLoop turn.action = false) (hexec : env.execute turn.action w = (.ok observation, w')) :
    ∃ k passes' ls' s', (policy = .auto → k = 0) ∧
      (∀ n, approvePauses env config (request.withPolicy policy) cancelled (n + k)
          (loop env (buildSession (request.withPolicy policy)) cancelled (passes + 1) ls s) =
        approvePauses env config (request.withPolicy policy) cancelled n
          (loop env (buildSession (request.withPolicy policy)) cancelled passes' ls' s')) ∧
      Ready env config policy passes' ls' s' ∧ s'.world = w' ∧
      ls'.state.steps = ls.state.steps ++ [stepOf turn observation] := by
  obtain ⟨ls₁, s₁, h₁, hsts, rfl, hloop⟩ := loop_of_turn hc h hans
  rw [hloop]
  rw [← hsts, ← h₁.guardrails] at hck
  rw [← hsts]
  have hlog := h₁.log.decide .continue
  rw [← replicate_succ'] at hlog
  rcases evaluateToolApproval_ne_readOnly hpol turn.action with hgate | hgate
  · have htake := takeTurn_of_execute env cancelled s₁ (buildSession (request.withPolicy policy)) hck hends hgate
    obtain ⟨new, hnew, hexecute⟩ := executeTurn_of_ok ls₁ turn
      (s := { s₁ with log := s₁.log ++ [.decided .continue] }) hc hexec
    rw [hexecute] at htake
    have hseen := seenSteps_of_execute (stepOf turn observation) ls₁.state.steps hgate
    refine ⟨0, passes, ls₁.afterStep env (stepOf turn observation), _, fun _ => rfl,
      fun n => by rw [afterTurn_of_again htake, add_zero], ?_, rfl, rfl⟩
    have hpasses := h₁.passes
    refine ⟨?_, ?_, h₁.pending, ?_, ?_⟩
    · simp [afterStep, pushStep, h₁.history]
    · simp [afterStep, pushStep, h₁.guardrails, hseen, recordSteps_append]
    · simp only [afterStep, pushStep, hseen, length_append, length_singleton]
      omega
    · have hlen : (ls₁.afterStep env (stepOf turn observation)).state.steps.length = ls₁.state.steps.length + 1 := by
        simp [afterStep, pushStep]
      rw [hlen]
      exact hlog.append (le_succ _) fun e he => hnew e he h₁.pending
  · have htake := takeTurn_of_promptUser env cancelled s₁ (buildSession (request.withPolicy policy)) hck hends hgate
    obtain ⟨ls', new, hconfirm, hnew, hsts', hpend, hhistory, hguardrails⟩ :=
      confirm_of_ok config (request.withPolicy policy) ls₁.state turn
        (s := { s₁ with log := s₁.log ++ [.decided .continue] ++ [.reported (pausedState ls₁.state turn)] }) hc hexec
    have hseen : seenSteps policy ls'.state.steps = [] := by
      rw [hsts']
      exact seenSteps_of_promptUser _ hgate
    have hlen : ls'.state.steps.length = ls₁.state.steps.length + 1 := by simp [hsts']
    let s' : Sys W := ⟨w', s₁.log ++ [.decided .continue] ++ [.reported (pausedState ls₁.state turn)] ++
      .reported (approvedState ls₁.state) :: new⟩
    refine ⟨1, config.maxTurns + 1, ls', s', fun hauto => ?_, fun n => ?_, ⟨hhistory, ?_, hpend, ?_, ?_⟩, rfl, hsts'⟩
    · subst hauto
      simp [evaluateToolApproval] at hgate
    · rw [afterTurn_of_error htake, approvePauses_of_some waitingState_paused, hconfirm]
    · rw [hseen, hguardrails]
      rfl
    · rw [hseen]
      simp
    · rw [hlen]
      exact hlog.append_paused (le_succ _) (le_succ _) hnew

end Pass

end CodexStudy.ChatAgent
