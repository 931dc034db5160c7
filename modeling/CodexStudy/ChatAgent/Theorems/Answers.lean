import CodexStudy.ChatAgent.Lemmas.Loop

/-!
# The user's answers in the history

The history is written anew from the steps whenever a run goes on, with the answer of this one call.
-/

namespace CodexStudy.ChatAgent

open CodexStudy.Lib CodexStudy.Lib.Logged List ChatAgentRuntime Text Option

variable {W : Type} {env : Env W}

/-! ## Runs with answers -/

/-- A response of the user, with the number of steps that had been taken when it was given. -/
structure Answer where
  after : Nat
  response : Text

/-- A run that waits goes on: an answer is given to the reported state, or an approval is confirmed or denied. -/
inductive GoesOn (env : Env W) (outcome : Outcome W) : List Answer → Outcome W → Prop where
  | resume {state : RunState} {userResponse : Text} (config : GuardrailsConfig) (request : RunRequest)
      (cancelled : Bool) : outcome.1 = .error .awaitingUser → state ∈ lastReported outcome.2.log →
      trim userResponse ≠ [] →
      GoesOn env outcome [⟨state.steps.length, trim userResponse⟩]
        (resume env config request state userResponse cancelled outcome.2)
  | confirm {state : RunState} (config : GuardrailsConfig) (request : RunRequest) (approved cancelled : Bool) :
      outcome.1 = .error .awaitingToolApproval → state ∈ lastReported outcome.2.log →
      GoesOn env outcome []
        (confirmPendingTool env config request state approved cancelled outcome.2)

/-- A run from its start to the outcome of a call, with the answers that have been given. -/
inductive Answered (env : Env W) (w : W) : List Answer → Outcome W → Prop where
  | run (config : GuardrailsConfig) (request : RunRequest) (cancelled : Bool) :
      Answered env w [] (run env config request cancelled { world := w })
  | goesOn {answers given : List Answer} {outcome outcome' : Outcome W} :
      Answered env w answers outcome → GoesOn env outcome given outcome' →
      Answered env w (answers ++ given) outcome'

/-! ## The transcript -/

variable (answers : List Answer) (n : Nat)

def answersAfter : List ChatMessage :=
  (answers.filter fun answer => answer.after = n).map fun answer => .user answer.response

def transcript (env : Env W) (answers : List Answer) : Nat → List StepRecord → List ChatMessage
  | n, [] => answersAfter answers n
  | n, step :: steps => answersAfter answers n ++ stepMessages env step ++ transcript env answers (n + 1) steps

/-- The history holds every step and every answer, in their order. -/
def Remembers (env : Env W) (answers : List Answer) (steps : List StepRecord) (history : List ChatMessage) : Prop :=
  (transcript env answers 0 steps).Sublist history

instance (env : Env W) (answers : List Answer) (steps : List StepRecord) (history : List ChatMessage) :
    Decidable (Remembers env answers steps history) := inferInstanceAs (Decidable (List.Sublist _ _))

theorem transcript_nil (env : Env W) (n : Nat) (steps : List StepRecord) :
    transcript env [] n steps = steps.flatMap (stepMessages env) := by
  induction steps generalizing n with
  | nil => rfl
  | cons step steps ih => rw [transcript, ih, flatMap_cons]; rfl

variable {answer : Answer} {n : Nat} {outcome : Outcome W} {given answers : List Answer}

theorem answersAfter_of_ne (h : answer.after ≠ n) : answersAfter [answer] n = [] := by
  simp [answersAfter, h]

theorem answersAfter_self (answer : Answer) : answersAfter [answer] answer.after = [.user answer.response] := by
  simp [answersAfter]

theorem transcript_of_lt (h : answer.after < n) (steps : List StepRecord) :
    transcript env [answer] n steps = steps.flatMap (stepMessages env) := by
  induction steps generalizing n with
  | nil => exact answersAfter_of_ne (by omega)
  | cons step steps ih =>
      rw [transcript, answersAfter_of_ne (by omega), ih (by omega), flatMap_cons]
      rfl

theorem transcript_single (answer : Answer) (n : Nat) (base rest : List StepRecord)
    (h : answer.after = n + base.length) : transcript env [answer] n (base ++ rest) =
      base.flatMap (stepMessages env) ++ .user answer.response :: rest.flatMap (stepMessages env) := by
  induction base generalizing n with
  | nil =>
      rw [length_nil, Nat.add_zero] at h
      subst h
      cases rest with
      | nil => exact answersAfter_self answer
      | cons step rest =>
          rw [nil_append, transcript, answersAfter_self, transcript_of_lt (Nat.lt_succ_self _), flatMap_cons]
          rfl
  | cons step base ih =>
      rw [length_cons] at h
      rw [cons_append, transcript, answersAfter_of_ne (by omega), ih (n + 1) (by omega), flatMap_cons]
      simp

theorem length_flatMap_stepMessages (steps : List StepRecord) :
    (steps.flatMap (stepMessages env)).length = 2 * steps.length := by
  induction steps with
  | nil => rfl
  | cons step steps ih =>
      rw [flatMap_cons, length_append, ih, length_cons]
      simp only [stepMessages, length_cons, length_nil]
      omega

theorem length_answersAfter :
    (answersAfter answers n).length = answers.countP fun answer => answer.after = n := by
  rw [answersAfter, length_map, countP_eq_length_filter]

theorem countP_from (n k : Nat) :
    answers.countP (fun answer => n ≤ answer.after ∧ answer.after ≤ n + (k + 1)) =
      answers.countP (fun answer => answer.after = n) +
        answers.countP fun answer => n + 1 ≤ answer.after ∧ answer.after ≤ n + 1 + k := by
  induction answers with
  | nil => rfl
  | cons answer answers ih =>
      rw [countP_cons, countP_cons, countP_cons, ih]
      simp only [decide_eq_true_eq]
      split_ifs <;> omega

theorem length_transcript (steps : List StepRecord) :
    (transcript env answers n steps).length =
      2 * steps.length + answers.countP fun answer => n ≤ answer.after ∧ answer.after ≤ n + steps.length := by
  induction steps generalizing n with
  | nil =>
      rw [transcript, length_answersAfter, length_nil, Nat.mul_zero, Nat.zero_add]
      refine countP_congr fun answer _ => ?_
      simp only [decide_eq_true_eq]
      omega
  | cons step steps ih =>
      rw [transcript, length_append, length_append, length_answersAfter, ih, length_cons, countP_from]
      simp only [stepMessages, length_cons, length_nil]
      omega

/-! ## What a call passes to the planner -/

def Rebuilt (env : Env W) (base : List StepRecord) (given : List Answer) (steps : List StepRecord)
    (history : List ChatMessage) : Prop :=
  ∃ rest, steps = base ++ rest ∧ history = base.flatMap (stepMessages env) ++
    (given.map fun answer => .user answer.response) ++ rest.flatMap (stepMessages env)

def WritesRebuilt (env : Env W) (base : List StepRecord) (given : List Answer) (_ : List Event) : Event → Prop
  | .reported state => base <+: state.steps
  | .planning steps history => Rebuilt env base given steps history
  | _ => True

theorem rebuilt_invariant (env : Env W) (policy : ToolApprovalPolicy) (base : List StepRecord) (given : List Answer) :
    LoopInvariant env policy (WritesRebuilt env base given)
      fun _ state history => Rebuilt env base given state.steps history where
  grow _ h := h
  update state' h hsts _ := by rwa [hsts]
  commit step h := by
    obtain ⟨rest, hsts, hhistory⟩ := h
    refine ⟨rest ++ [step], ?_, ?_⟩
    · rw [RunState.pushStep, hsts, append_assoc]
    · rw [hhistory, flatMap_append, append_assoc _ _ (stepMessages env step)]
      simp
  reported h := by
    obtain ⟨rest, hsts, -⟩ := h
    exact ⟨rest, hsts.symm⟩
  paused _ state' h _ _ hsts _ := by
    obtain ⟨rest, hbase, -⟩ := h
    exact ⟨rest, by rw [hsts, hbase]⟩
  planning h := h
  planned _ _ := trivial
  decided _ _ := trivial
  executed _ _ _ _ _ := trivial

theorem GoesOn.writes {outcome' : Outcome W} (h : GoesOn env outcome given outcome') :
    ∃ state ∈ lastReported outcome.2.log, (∀ answer ∈ given, answer.after = state.steps.length) ∧ given.length ≤ 1 ∧
      Writes (WritesRebuilt env state.steps given) outcome.2 outcome'.2 := by
  cases h with
  | @resume state userResponse config request cancelled _ hstt hresponse =>
      refine ⟨state, hstt, by simp, Nat.le_refl 1, ?_⟩
      refine (resume_ensures config cancelled (rebuilt_invariant env request.toolApprovalPolicy _ _) ?_).1
      have hnot : (trim userResponse).isEmpty = false := by simpa using hresponse
      exact ⟨[], by simp, by simp [buildHistoryFromState, hnot]⟩
  | @confirm state config request approved cancelled _ hstt =>
      refine ⟨state, hstt, by simp, Nat.zero_le 1, ?_⟩
      refine (confirmPendingTool_ensures config cancelled (rebuilt_invariant env request.toolApprovalPolicy _ _)
        approved ?_ fun _ _ _ _ => trivial).1
      exact ⟨[], by simp, by simp [buildHistoryFromState, trim, trimStart, trimEnd]⟩

theorem Answered.after_le {w : W} (h : Answered env w answers outcome) :
    ∀ answer ∈ answers, ∀ state ∈ lastReported outcome.2.log, answer.after ≤ state.steps.length := by
  induction h with
  | run => simp
  | goesOn _ hgoes ih =>
      intro answer hans last hlast
      obtain ⟨state, hstt, hgiv, -, new, hlog, hnew⟩ := hgoes.writes
      have haft : answer.after ≤ state.steps.length := by
        rcases mem_append.mp hans with hans | hans
        · exact ih answer hans state hstt
        · exact (hgiv answer hans).le
      rw [hlog, lastReported_append] at hlast
      cases hrepd : lastReported new with
      | none =>
          rw [hrepd, none_or] at hlast
          rwa [mem_unique hlast hstt]
      | some state' =>
          rw [hrepd, some_or, mem_some_iff] at hlast
          subst hlast
          obtain ⟨before, after, rfl⟩ := append_of_mem (mem_of_lastReported hrepd)
          have hbase : state.steps <+: state'.steps := hnew.split
          exact haft.trans hbase.length_le

theorem Rebuilt.remembers_iff {base steps : List StepRecord} {history : List ChatMessage}
    (h : Rebuilt env base given steps history) (hanswers : ∀ answer ∈ answers, answer.after ≤ base.length)
    (hgiv : ∀ answer ∈ given, answer.after = base.length) (hone : given.length ≤ 1) :
    Remembers env (answers ++ given) steps history ↔ answers = [] := by
  obtain ⟨rest, rfl, rfl⟩ := h
  constructor
  · intro hsub
    have hle := List.Sublist.length_le hsub
    have hall : (answers ++ given).countP (fun answer => 0 ≤ answer.after ∧ answer.after ≤ 0 + (base ++ rest).length) =
        (answers ++ given).length := by
      refine countP_eq_length.mpr fun answer hmem => ?_
      have haft : answer.after ≤ base.length := by
        rcases mem_append.mp hmem with hmem | hmem
        · exact hanswers answer hmem
        · exact (hgiv answer hmem).le
      simp only [length_append, decide_eq_true_eq]
      omega
    rw [length_transcript, hall] at hle
    simp only [length_append, length_flatMap_stepMessages, length_map] at hle
    exact length_eq_zero_iff.mp (by omega)
  · rintro rfl
    rw [Remembers, nil_append]
    match given, hone with
    | [], _ => rw [transcript_nil, flatMap_append, map_nil, append_nil]
    | [answer], _ =>
        rw [transcript_single answer 0 base rest (by rw [hgiv answer mem_cons_self, Nat.zero_add])]
        simp

/-! ## The claim -/

/-- A run that goes on shows the planner all answers given if and only if none was given before this call. -/
theorem answers_remembered_iff (env : Env W) (w : W) (answers given : List Answer) (outcome outcome' : Outcome W)
    (h : Answered env w answers outcome) (hgoes : GoesOn env outcome given outcome') :
    ∃ new, outcome'.2.log = outcome.2.log ++ new ∧ ∀ steps history, .planning steps history ∈ new →
      (Remembers env (answers ++ given) steps history ↔ answers = []) := by
  obtain ⟨state, hstt, hgiv, hone, new, hlog, hnew⟩ := hgoes.writes
  refine ⟨new, hlog, fun steps history hmem => ?_⟩
  obtain ⟨before, after, rfl⟩ := append_of_mem hmem
  have hrebuilt : Rebuilt env state.steps given steps history := hnew.split
  exact hrebuilt.remembers_iff (fun answer hans => h.after_le answer hans state hstt) hgiv hone

/-! ## Two questions -/

def answerLast (env : Env W) (outcome : Outcome W) (userResponse : Text) : Outcome W :=
  match lastReported outcome.2.log with
  | some state => resume env {} (sampleRequest .auto) state userResponse false outcome.2
  | none => outcome

theorem goesOn_answerLast (env : Env W) {state : RunState} (userResponse : Text)
    (hawt : outcome.1 = .error .awaitingUser) (hstt : lastReported outcome.2.log = some state)
    (hresponse : trim userResponse ≠ []) :
    GoesOn env outcome [⟨state.steps.length, trim userResponse⟩] (answerLast env outcome userResponse) := by
  rw [answerLast, hstt]
  exact .resume {} (sampleRequest .auto) false hawt hstt hresponse

def questionScript : List PlannerTurn :=
  [⟨"First", .askUser "Which colour?" none⟩, ⟨"Second", .askUser "Which size?" none⟩,
    ⟨"Last", .finalize "Done" none⟩]

def afterQuestion : Outcome (List PlannerTurn) :=
  run scripted {} (sampleRequest .auto) false { world := questionScript }

def afterColour : Outcome (List PlannerTurn) := answerLast scripted afterQuestion "red"

def afterSize : Outcome (List PlannerTurn) := answerLast scripted afterColour "large"

theorem goesOn_afterColour : GoesOn scripted afterQuestion [⟨1, "red"⟩] afterColour := by
  have hstt : (lastReported afterQuestion.2.log).map (fun state => state.steps.length) = some 1 := by decide +kernel
  obtain ⟨state, hstt, hlen⟩ := map_eq_some_iff.mp hstt
  have hgoes := goesOn_answerLast scripted "red" (by decide +kernel) hstt (by decide)
  rwa [hlen] at hgoes

theorem goesOn_afterSize : GoesOn scripted afterColour [⟨2, "large"⟩] afterSize := by
  have hstt : (lastReported afterColour.2.log).map (fun state => state.steps.length) = some 2 := by decide +kernel
  obtain ⟨state, hstt, hlen⟩ := map_eq_some_iff.mp hstt
  have hgoes := goesOn_answerLast scripted "large" (by decide +kernel) hstt (by decide)
  rwa [hlen] at hgoes

/-- The planner sees the first answer in the call that brings it. -/
theorem first_answer_is_seen : ∃ new, afterColour.2.log = afterQuestion.2.log ++ new ∧
    ∀ steps history, .planning steps history ∈ new → Remembers scripted [⟨1, "red"⟩] steps history := by
  obtain ⟨new, hlog, hnew⟩ := answers_remembered_iff scripted questionScript [] [⟨1, "red"⟩] afterQuestion
    afterColour (.run {} (sampleRequest .auto) false) goesOn_afterColour
  exact ⟨new, hlog, fun steps history hmem => (hnew steps history hmem).mpr rfl⟩

/-- In the call that brings the second answer the planner does not see the first. -/
theorem first_answer_is_forgotten : Answered scripted questionScript [⟨1, "red"⟩] afterColour ∧
    GoesOn scripted afterColour [⟨2, "large"⟩] afterSize ∧
    ∃ new steps history, afterSize.2.log = afterColour.2.log ++ new ∧ .planning steps history ∈ new ∧
      ¬ Remembers scripted [⟨1, "red"⟩, ⟨2, "large"⟩] steps history := by
  refine ⟨.goesOn (.run {} (sampleRequest .auto) false) goesOn_afterColour, goesOn_afterSize,
    afterSize.2.log.drop afterColour.2.log.length, ?_⟩
  have hforgets : (afterSize.2.log.drop afterColour.2.log.length).any (fun e =>
      match e with
      | .planning steps history => !decide (Remembers scripted [⟨1, "red"⟩, ⟨2, "large"⟩] steps history)
      | _ => false) = true := by decide +kernel
  obtain ⟨e, hmem, he⟩ := any_eq_true.mp hforgets
  cases e with
  | planning steps history => exact ⟨steps, history, by decide +kernel, hmem, of_decide_eq_false ((Bool.not_eq_true' _).mp he)⟩
  | _ => cases he

end CodexStudy.ChatAgent
