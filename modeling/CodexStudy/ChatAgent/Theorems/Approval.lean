import CodexStudy.ChatAgent.Lemmas.Loop
import CodexStudy.Lib.Transition

/-!
# Nothing is changed without approval

Over any chain of calls of the runtime, an edit or a command is executed only under a policy that lets
everything pass, or by the confirmation of the turn that is waiting for it.
-/

namespace CodexStudy.ChatAgent

open CodexStudy.Lib CodexStudy.Lib.Logged List ChatAgentRuntime

variable {W : Type}

/-! ## Chains of calls -/

inductive Call where
  | run
  | resume (previousState : RunState) (userResponse : Text)
  | confirmPendingTool (previousState : RunState) (approved : Bool)

structure Invocation where
  call : Call
  request : RunRequest
  config : GuardrailsConfig
  cancelled : Bool

namespace Invocation

def policy (i : Invocation) : ToolApprovalPolicy := i.request.toolApprovalPolicy

def previousState? (i : Invocation) : Option RunState :=
  match i.call with
  | .run => none
  | .resume state _ => some state
  | .confirmPendingTool state _ => some state

def perform (env : Env W) (i : Invocation) : Agent W RunLoopOutcome :=
  match i.call with
  | .run => run env i.config i.request i.cancelled
  | .resume state userResponse => resume env i.config i.request state userResponse i.cancelled
  | .confirmPendingTool state approved =>
      confirmPendingTool env i.config i.request state approved i.cancelled

end Invocation

/-- A call on a state that an earlier call has reported. -/
def Invoked (env : Env W) (s : Sys W) (i : Invocation) (s' : Sys W) : Prop :=
  (∀ state ∈ i.previousState?, .reported state ∈ s.log) ∧ s' = (i.perform env s).2

/-- The calls are made one after the other, starting with an empty log. -/
def Chain (env : Env W) (w : W) (invocations : List Invocation) (s : Sys W) : Prop :=
  Lib.Run (Invoked env) { world := w } invocations s

/-! ## What may be executed -/

/-- The call confirms a pending turn with the action, which was planned when the user had to be asked. -/
def Approves (i : Invocation) (log : List Event) (action : Action) : Prop :=
  ∃ state pending, i.call = .confirmPendingTool state true ∧ state.pendingTurn = some pending ∧
    pending.action = action ∧ .planned .onRequest ⟨pending.thought, pending.action⟩ ∈ log

def isApprovalExecution : Event → Bool
  | .executed .approval _ => true
  | _ => false

/-- What the call has executed: edits and commands only if its policy lets everything pass or it approves them, and at
most one action by approval. -/
def ExecutesApproved (i : Invocation) (s s' : Sys W) : Prop :=
  ∃ new, s'.log = s.log ++ new ∧
    (∀ site action, .executed site action ∈ new → action.isMutating = true →
      i.policy = .auto ∨ site = .approval ∧ Approves i s.log action) ∧
    new.countP isApprovalExecution ≤ 1

/-! ## The invariant -/

def PendingPlanned (log : List Event) (state : RunState) : Prop :=
  ∀ pending ∈ state.pendingTurn, .planned .onRequest ⟨pending.thought, pending.action⟩ ∈ log

theorem PendingPlanned.mono {log log' : List Event} {state : RunState} (h : PendingPlanned log state)
    (hsub : log ⊆ log') : PendingPlanned log' state := fun pending hp => hsub (h pending hp)

def ReportedPlanned (log : List Event) : Prop := ∀ state, .reported state ∈ log → PendingPlanned log state

/-- What the call may write after the log `start` that it has found. -/
def Allowed (i : Invocation) (start : List Event) (log : List Event) : Event → Prop
  | .reported state => PendingPlanned log state
  | .executed .approval action => Approves i start action ∧ (log.drop start.length).any isApprovalExecution = false
  | .executed _ action => action.isMutating = false ∨ i.policy = .auto
  | .planned policy _ => policy = i.policy
  | _ => True

theorem allowed_invariant (env : Env W) (i : Invocation) (start : List Event) :
    LoopInvariant env i.policy (Allowed i start) fun log state _ => PendingPlanned log state where
  grow hsub h := h.mono hsub
  update state' h _ hpend := by
    rw [PendingPlanned, hpend]
    exact h
  commit _ h := h
  reported h := h
  paused turn state' _ hpol hplanned _ hpend := by
    intro pending hp
    rw [hpend, Option.mem_some_iff] at hp
    subst hp
    exact hpol ▸ hplanned
  planning _ := trivial
  planned _ _ := rfl
  decided _ _ := trivial
  executed log site action hsite h := by
    cases site with
    | turn => exact h
    | finish => exact h
    | approval => exact absurd rfl hsite

variable {s s' : Sys W} {i : Invocation} {env : Env W}

theorem perform_writes (env : Env W) (i : Invocation) (hs : ReportedPlanned s.log)
    (hstt : ∀ state ∈ i.previousState?, .reported state ∈ s.log) : Writes (Allowed i s.log) s (i.perform env s).2 := by
  obtain ⟨call, request, config, cancelled⟩ := i
  have hinv := allowed_invariant env ⟨call, request, config, cancelled⟩ s.log
  cases call with
  | run => exact (run_ensures config cancelled hinv (by rintro _ ⟨⟩)).1
  | resume state userResponse => exact (resume_ensures config cancelled hinv (hs state (hstt state rfl))).1
  | confirmPendingTool state approved =>
      refine (confirmPendingTool_ensures config cancelled hinv approved (by rintro _ ⟨⟩) ?_).1
      rintro rfl pending hpend reported
      have hplanned := hs state (hstt state rfl) pending hpend
      exact ⟨⟨state, pending, rfl, hpend, rfl, hplanned⟩, by simp [isApprovalExecution]⟩

/-! ## What follows for the events -/

theorem ReportedPlanned.append {start old new : List Event} (h : ReportedPlanned old)
    (hnew : AllowedAfter (Allowed i start) old new) : ReportedPlanned (old ++ new) := by
  induction new generalizing old with
  | nil => simpa using h
  | cons e new ih =>
      have hold : ReportedPlanned (old ++ [e]) := by
        intro state hmem
        rcases mem_append.mp hmem with hmem | hmem
        · exact (h state hmem).mono (subset_append_left _ _)
        · rw [mem_singleton] at hmem
          subst hmem
          exact PendingPlanned.mono hnew.1 (subset_append_left _ _)
      have := ih hold hnew.2
      rwa [append_assoc, singleton_append] at this

theorem executesApproved_of_writes (h : Writes (Allowed i s.log) s s') : ExecutesApproved i s s' := by
  obtain ⟨new, hlog, hnew⟩ := h
  refine ⟨new, hlog, fun site action hmem hmut => ?_, ?_⟩
  · obtain ⟨before, after, rfl⟩ := append_of_mem hmem
    have hallowed := hnew.split
    cases site with
    | approval => exact Or.inr ⟨rfl, hallowed.1⟩
    | turn => exact hallowed.elim (fun h => absurd hmut (by simp [h])) Or.inl
    | finish => exact hallowed.elim (fun h => absurd hmut (by simp [h])) Or.inl
  · clear hlog
    induction new using reverseRecOn with
    | nil => simp
    | append_singleton new e ih =>
        obtain ⟨hbef, he⟩ := allowedAfter_append.mp hnew
        rw [countP_append]
        have hlast : isApprovalExecution e = true → new.countP isApprovalExecution = 0 := by
          intro happroval
          have hfst : (new.any isApprovalExecution) = false := by
            cases e with
            | executed site action =>
                cases site with
                | approval => simpa using he.1.2
                | _ => simp [isApprovalExecution] at happroval
            | _ => simp [isApprovalExecution] at happroval
          rw [countP_eq_zero]
          simpa using hfst
        cases happroval : isApprovalExecution e with
        | false => simpa [happroval] using ih hbef
        | true => simp [happroval, hlast happroval]

theorem invoked_executesApproved (hs : ReportedPlanned s.log)
    (h : Invoked env s i s') : ExecutesApproved i s s' ∧ ReportedPlanned s'.log := by
  obtain ⟨hstt, rfl⟩ := h
  have hw := perform_writes env i hs hstt
  refine ⟨executesApproved_of_writes hw, ?_⟩
  obtain ⟨new, hlog, hnew⟩ := hw
  rw [hlog]
  exact hs.append hnew

theorem chain_reportedPlanned {w : W} {invocations : List Invocation}
    (h : Chain env w invocations s) : ReportedPlanned s.log :=
  Lib.Run.invariant (I := fun s => ReportedPlanned s.log) h (fun _ hmem => by simp at hmem)
    fun _ _ _ hs hi => (invoked_executesApproved hs hi).2

def OnlyReads (log : List Event) : Prop :=
  (∀ turn, .planned .onRequest turn ∉ log) ∧
    ∀ site action, .executed site action ∈ log → action.isMutating = false

theorem invoked_onlyReads (hs : ReportedPlanned s.log) (h : Invoked env s i s') (hpol : i.policy = .readOnly)
    (hrds : OnlyReads s.log) : OnlyReads s'.log := by
  obtain ⟨hstt, rfl⟩ := h
  have hw := perform_writes env i hs hstt
  obtain ⟨new, hlog, hexecuted, -⟩ := executesApproved_of_writes hw
  obtain ⟨new', hlog', hnew⟩ := hw
  obtain rfl : new' = new := append_cancel_left (hlog'.symm.trans hlog)
  rw [hlog]
  refine ⟨fun turn hmem => ?_, fun site action hmem => ?_⟩
  · rcases mem_append.mp hmem with hmem | hmem
    · exact hrds.1 turn hmem
    · obtain ⟨before, after, rfl⟩ := append_of_mem hmem
      have hplanned : ToolApprovalPolicy.onRequest = i.policy := hnew.split
      rw [hpol] at hplanned
      cases hplanned
  · rcases mem_append.mp hmem with hmem | hmem
    · exact hrds.2 site action hmem
    · cases hmut : action.isMutating with
      | false => rfl
      | true =>
          rcases hexecuted site action hmem hmut with hauto | ⟨-, _, _, -, -, -, hplanned⟩
          · rw [hpol] at hauto
            cases hauto
          · exact absurd hplanned (hrds.1 _)

theorem chain_onlyReads {w : W} {invocations : List Invocation} (h : Chain env w invocations s)
    (hpol : ∀ i ∈ invocations, i.policy = .readOnly) : OnlyReads s.log := by
  have hboth : ReportedPlanned s.log ∧ OnlyReads s.log :=
    Lib.Run.invariant_of_mem (I := fun s => ReportedPlanned s.log ∧ OnlyReads s.log) h
      ⟨fun _ hmem => by simp at hmem, by simp [OnlyReads]⟩
      fun _ i _ hi hs hinv => ⟨(invoked_executesApproved hs.1 hinv).2, invoked_onlyReads hs.1 hinv (hpol i hi) hs.2⟩
  exact hboth.2

/-- In a chain of calls each executes only what is approved, and read-only calls execute no edit and no command. -/
theorem no_unapproved_mutation (env : Env W) (w : W) (invocations : List Invocation) (s : Sys W)
    (h : Chain env w invocations s) :
    (∀ before i after s₁ s₂, invocations = before ++ i :: after → Chain env w before s₁ → Invoked env s₁ i s₂ →
      ExecutesApproved i s₁ s₂) ∧ ((∀ i ∈ invocations, i.policy = .readOnly) →
      ∀ site action, .executed site action ∈ s.log → action.isMutating = false) := by
  constructor
  · intro before i after s₁ s₂ _ hbef hi
    exact (invoked_executesApproved (chain_reportedPlanned hbef) hi).1
  · intro hpol
    exact (chain_onlyReads h hpol).2

/-! ## An approved command -/

def sampleRun : Invocation := { call := .run, request := sampleRequest .onRequest, config := {}, cancelled := false }

def samplePaused : RunState where
  runId := "r"
  workspaceId := "w"
  status := .awaitingToolApproval
  pendingTurn := some ⟨"First", .runCommand "make" none none⟩
  awaitingToolApproval := some ⟨"run_command", "Run command `make`"⟩

def sampleConfirm : Invocation :=
  { call := .confirmPendingTool samplePaused true, request := sampleRequest .onRequest, config := {}, cancelled := false }

def sampleStart : Sys (List PlannerTurn) := { world := sampleScript }

/-- The command is executed once, by its approval, and the run goes on to its end. -/
theorem approved_command_is_executed :
    let paused := (sampleRun.perform scripted sampleStart).2
    let confirmed := (sampleConfirm.perform scripted paused).2
    ExecutesApproved sampleConfirm paused confirmed ∧
      .executed .approval (.runCommand "make" none none) ∈ confirmed.log ∧
      .executed .finish (.finalize "Built" none) ∈ confirmed.log := by
  intro paused confirmed
  have hrun : Invoked scripted sampleStart sampleRun paused := ⟨by rintro _ ⟨⟩, rfl⟩
  have hconfirm : Invoked scripted paused sampleConfirm confirmed := by
    refine ⟨?_, rfl⟩
    rintro _ ⟨⟩
    decide +kernel
  have hchain : Chain scripted sampleScript [sampleRun, sampleConfirm] confirmed :=
    .cons hrun (.cons hconfirm (.nil confirmed))
  refine ⟨?_, by decide +kernel, by decide +kernel⟩
  exact (no_unapproved_mutation scripted sampleScript _ confirmed hchain).1 [sampleRun] sampleConfirm [] paused confirmed
    rfl (.cons hrun (.nil paused)) hconfirm

end CodexStudy.ChatAgent
