import CodexStudy.ExecPolicy.NetworkRules
import CodexStudy.Lib.Transition

/-!
# Persisted network rules

The host of a rule is normalised before it is written, and again when the file is loaded.
-/

namespace CodexStudy.ExecPolicy

open CodexStudy.Lib List Text
open CodexStudy.Lib.Text (trim toAsciiLowercase trimEndMatches splitOnce?)

/-- Nothing is left that normalising takes away: a bracket in front, a port, a dot at the end. -/
structure SettledHost (host : Text) : Prop where
  bracket : host.head? ≠ some '['
  port : ¬ ∃ name port, host = name ++ ':' :: port ∧ name ≠ [] ∧ ':' ∉ name ∧ isPort port = true
  dot : host.getLast? ≠ some '.'

def Records (rule : NetworkRule) (call : NetworkRuleCall) : Prop :=
  ∃ host, normalizeNetworkRuleHost rule.host = .ok host ∧
    call = ⟨host, rule.protocol.asPolicyString, rule.decision.asNetworkRuleString, rule.justification⟩

variable {α : Type} (toJson : Text → Text)

def Evaluates (evaluate : Text → Option (List NetworkRuleCall)) (rules : α → NetworkRule)
    (contents₀ : Text) (calls₀ : List NetworkRuleCall) : Prop :=
  ∀ calls : List NetworkRuleCall, (∀ call ∈ calls, ∃ a, Records (rules a) call) →
    evaluate (calls.foldl (fun contents call => withLine contents (ruleLine toJson call)) contents₀) =
      some (calls₀ ++ calls)

def RuleStep (rules : α → NetworkRule) (s : RulesState) (a : α) (s' : RulesState) :
    Prop :=
  appendNetworkRuleAndUpdate toJson s (rules a) = (s', .ok ())

def Agrees (evaluate : Text → Option (List NetworkRuleCall)) (s : RulesState) : Prop :=
  loadNetworkRules evaluate s.contents = some s.policy.networkRules

def StaysFaithful (rules : α → NetworkRule) (s : RulesState) (a : α) : Prop :=
  ∀ call, Records (rules a) call → SettledHost call.host ∧ ruleLine toJson call ∉ lines s.contents

/-! ## Normalising twice -/

section

variable {raw host piece : Text}

theorem isPort_no_colon {port : Text} (h : isPort port = true) : ':' ∉ port := by
  rw [isPort, Bool.and_eq_true, all_eq_true] at h
  intro hmem
  exact absurd (h.2 ':' hmem) (by decide)

theorem networkRuleHostPiece_cases (h : networkRuleHostPiece raw host = .ok piece) :
    piece = host ∨ piece.length < host.length ∧ ∀ c ∈ piece, c ∈ host := by
  unfold networkRuleHostPiece at h
  split at h
  · split at h
    · cases h
    · rename_i inside rest hspl
      dsimp only at h
      split at h
      · cases h
      · cases h
        rw [splitOnce?_eq_some hspl]
        exact Or.inr ⟨by simp, fun c hc => by simp [hc]⟩
  · split at h
    · rename_i candidate port hspl
      split at hspl
      · split at h
        · cases h
          rw [splitOnce?_eq_some hspl]
          exact Or.inr ⟨by simp, fun c hc => by simp [hc]⟩
        · cases h
          exact Or.inl rfl
      · cases hspl
    · cases h
      exact Or.inl rfl

theorem networkRuleHostPiece_eq_self_iff : networkRuleHostPiece raw host = .ok host ↔ host.head? ≠ some '[' ∧
      ¬ ∃ name port, host = name ++ ':' :: port ∧ name ≠ [] ∧ ':' ∉ name ∧ isPort port = true := by
  constructor
  · intro h
    have hhead : host.head? ≠ some '[' := by
      intro hhead
      obtain ⟨stripped, rfl⟩ := head?_eq_some_iff.mp hhead
      rw [networkRuleHostPiece] at h
      split at h
      · cases h
      · rename_i inside rest hspl
        dsimp only at h
        split at h
        · cases h
        · have hlen := congrArg length (splitOnce?_eq_some hspl)
          rw [Except.ok.inj h] at hlen
          simp at hlen
          omega
    refine ⟨hhead, ?_⟩
    rintro ⟨name, port, rfl, hname, hcolon, hport⟩
    have hcnt : (name ++ ':' :: port).count ':' = 1 := by
      rw [count_append, count_cons_self, count_eq_zero_of_not_mem hcolon,
        count_eq_zero_of_not_mem (isPort_no_colon hport)]
    unfold networkRuleHostPiece at h
    split at h
    · rename_i stripped heq
      rw [heq] at hhead
      exact hhead rfl
    · rw [if_pos hcnt, splitOnce?_append port hcolon] at h
      dsimp only at h
      rw [if_pos ⟨hname, hport⟩] at h
      have hlen := congrArg length (Except.ok.inj h)
      simp at hlen
  · rintro ⟨hhead, hport⟩
    unfold networkRuleHostPiece
    split
    · exact absurd rfl hhead
    · split
      · rename_i candidate port hspl
        split at hspl
        · refine congrArg Except.ok (if_neg ?_)
          rintro ⟨hname, hdigits⟩
          exact hport ⟨candidate, port, splitOnce?_eq_some hspl, hname, not_mem_of_splitOnce? hspl, hdigits⟩
        · cases hspl
      · rfl

structure NormalHost (host : Text) : Prop where
  nonempty : host ≠ []
  plain : '/' ∉ host ∧ '?' ∉ host ∧ '#' ∉ host
  specific : '*' ∉ host
  blank : ∀ c ∈ host, isWhitespace c = false
  lower : toAsciiLowercase host = host

theorem normalizeNetworkRuleHost_eq_ok : normalizeNetworkRuleHost raw = .ok host ↔
    (trim raw ≠ [] ∧ '/' ∉ trim raw ∧ '?' ∉ trim raw ∧ '#' ∉ trim raw) ∧
    ∃ piece, networkRuleHostPiece raw (trim raw) = .ok piece ∧
      toAsciiLowercase (trim (trimEndMatches '.' piece)) = host ∧ host ≠ [] ∧ '*' ∉ host ∧
      ∀ c ∈ host, isWhitespace c = false := by
  unfold normalizeNetworkRuleHost
  dsimp only
  constructor
  · intro h
    split at h
    · cases h
    · rename_i hne
      split at h
      · cases h
      · rename_i hpl
        obtain ⟨piece, hpiece, h⟩ := except_bind_eq_ok.mp h
        split at h
        · cases h
        · split at h
          · cases h
          · split at h
            · cases h
            · rename_i hnil hstar hbl
              cases h
              refine ⟨⟨hne, by simpa only [not_or] using hpl⟩, piece, hpiece, rfl, hnil, hstar, fun c hc => ?_⟩
              by_contra hc'
              exact hbl (any_eq_true.mpr ⟨c, hc, by simpa using hc'⟩)
  · rintro ⟨⟨hne, hpl⟩, piece, hpiece, rfl, hnil, hstar, hbl⟩
    have hany : (toAsciiLowercase (trim (trimEndMatches '.' piece))).any isWhitespace = false :=
      any_eq_false.mpr fun c hc => by simp [hbl c hc]
    rw [if_neg hne, if_neg (by simpa only [not_or] using hpl), hpiece]
    change (if _ then _ else _) = _
    rw [if_neg hnil, if_neg hstar, if_neg (by simp [hany])]

theorem normalHost_of_eq_ok (h : normalizeNetworkRuleHost raw = .ok host) : NormalHost host := by
  obtain ⟨⟨_, hslash, hquestion, hhash⟩, piece, hpiece, rfl, hnil, hstar, hbl⟩ := normalizeNetworkRuleHost_eq_ok.mp h
  have hmem : ∀ c, c.toNat < 65 → c ∈ toAsciiLowercase (trim (trimEndMatches '.' piece)) → c ∈ trim raw := by
    intro c hc hin
    have hin := ( rdropWhile_prefix _ _).subset ((trim_sublist _).subset
      ((mem_toAsciiLowercase (Or.inl hc)).mp hin))
    rcases networkRuleHostPiece_cases hpiece with rfl | ⟨_, hsub⟩
    · exact hin
    · exact hsub c hin
  exact
    { nonempty := hnil
      plain := ⟨fun hc => hslash (hmem _ (by decide) hc), fun hc => hquestion (hmem _ (by decide) hc),
        fun hc => hhash (hmem _ (by decide) hc)⟩
      specific := hstar
      blank := hbl
      lower := toAsciiLowercase_toAsciiLowercase _ }

theorem normalize_again_iff (h : NormalHost host) : normalizeNetworkRuleHost host = .ok host ↔ SettledHost host := by
  have htrim : trim host = host := trim_eq_self h.blank
  rw [normalizeNetworkRuleHost_eq_ok, htrim]
  constructor
  · rintro ⟨_, piece, hpiece, heq, _⟩
    have hlen : host.length ≤ (trimEndMatches '.' piece).length := by
      rw [← heq, toAsciiLowercase, length_map]
      exact (trim_sublist _).length_le
    have hdot := ( rdropWhile_prefix (· == '.') piece).length_le
    rcases networkRuleHostPiece_cases hpiece with rfl | ⟨hshort, _⟩
    · obtain ⟨hbracket, hport⟩ := networkRuleHostPiece_eq_self_iff.mp hpiece
      refine ⟨hbracket, hport, fun hlast => ?_⟩
      obtain ⟨init, rfl⟩ := getLast?_eq_some_iff.mp hlast
      have hdrop := ( rdropWhile_prefix (· == '.') init).length_le
      rw [trimEndMatches, rdropWhile_concat_pos _ _ _ (by decide), length_append, length_singleton]
        at hlen
      omega
    · exact absurd (hlen.trans hdot) (by omega)
  · rintro ⟨hbracket, hport, hdot⟩
    have hend : trimEndMatches '.' host = host := by
      obtain ⟨init, c, rfl⟩ := (eq_nil_or_concat' host).resolve_left h.nonempty
      refine rdropWhile_concat_neg _ _ _ fun hc => hdot ?_
      rw [beq_iff_eq.mp hc, getLast?_concat]
    refine ⟨⟨h.nonempty, h.plain⟩, host, networkRuleHostPiece_eq_self_iff.mpr ⟨hbracket, hport⟩, ?_, h.nonempty,
      h.specific, h.blank⟩
    rw [hend, htrim, h.lower]

end

/-! ## One rule -/

section

variable {α : Type} {toJson : Text → Text} {evaluate : Text → Option (List NetworkRuleCall)} {rules : α → NetworkRule}
  {contents₀ : Text} {calls₀ : List NetworkRuleCall} {s s' : RulesState} {a : α} {rule : NetworkRule}
  {call : NetworkRuleCall}

theorem parse_asPolicyString (protocol : NetworkRuleProtocol) :
    NetworkRuleProtocol.parse protocol.asPolicyString = .ok protocol := by
  cases protocol <;> decide +kernel

theorem parse_asNetworkRuleString (decision : Decision) :
    parseNetworkRuleDecision decision.asNetworkRuleString = .ok decision := by
  cases decision <;> decide +kernel

structure Accepted (toJson : Text → Text) (s : RulesState) (rule : NetworkRule) (call : NetworkRuleCall)
    (s' : RulesState) : Prop where
  records : Records rule call
  justified : isBlankJustification rule.justification = false
  contents : s'.contents = appendLockedLine s.contents (ruleLine toJson call)
  networkRules : s'.policy.networkRules = s.policy.networkRules ++ [{ rule with host := call.host }]

theorem accepted_of_step (h : RuleStep toJson rules s a s') : ∃ call, Accepted toJson s (rules a) call s' := by
  unfold RuleStep appendNetworkRuleAndUpdate at h
  split at h
  · cases h
  · rename_i contents hconts
    split at h
    · cases h
    · rename_i policy hpol
      cases h
      obtain ⟨host, hhost, hconts⟩ := except_bind_eq_ok.mp hconts
      split at hconts
      · cases hconts
      · rename_i hbl
        cases hconts
        have hhost' : normalizeNetworkRuleHost (rules a).host = .ok host := by
          cases hcase : normalizeNetworkRuleHost (rules a).host with
          | error error => rw [hcase] at hhost; cases hhost
          | ok host' => rw [hcase] at hhost; cases hhost; rfl
        unfold Policy.addNetworkRule at hpol
        rw [hhost'] at hpol
        change (if _ then _ else _) = _ at hpol
        rw [if_neg hbl] at hpol
        cases hpol
        exact ⟨_, ⟨host, hhost', rfl⟩, by simpa using hbl, rfl, rfl⟩

theorem networkRule_of_records (h : Records rule call) (hjustified : isBlankJustification rule.justification = false) :
    networkRule call = (normalizeNetworkRuleHost call.host).map fun host => { rule with host } := by
  obtain ⟨host, _, rfl⟩ := h
  unfold networkRule
  dsimp only
  rw [parse_asPolicyString, parse_asNetworkRuleString]
  change (if _ then _ else _) = _
  rw [if_neg (by simp [hjustified])]
  rfl

theorem networkRule_eq_iff (h : Records rule call) (hjustified : isBlankJustification rule.justification = false) :
    networkRule call = .ok { rule with host := call.host } ↔ SettledHost call.host := by
  rw [networkRule_of_records h hjustified]
  obtain ⟨host, hhost, rfl⟩ := h
  rw [← normalize_again_iff (normalHost_of_eq_ok hhost)]
  cases normalizeNetworkRuleHost host with
  | error error => simp [Except.map]
  | ok host' => simp [Except.map]

/-! ## Runs -/

def Written (toJson : Text → Text) (rules : α → NetworkRule) (contents₀ : Text) (s : RulesState) : Prop :=
  ∃ calls : List NetworkRuleCall, (∀ call ∈ calls, ∃ a, Records (rules a) call) ∧
    s.contents = calls.foldl (fun contents call => withLine contents (ruleLine toJson call)) contents₀

theorem Written.step (h : Written toJson rules contents₀ s) (hstep : RuleStep toJson rules s a s') :
    Written toJson rules contents₀ s' := by
  obtain ⟨calls, hcs, hconts⟩ := h
  obtain ⟨call, hacc⟩ := accepted_of_step hstep
  rw [Written, hacc.contents, appendLockedLine]
  split
  · exact ⟨calls, hcs, hconts⟩
  · refine ⟨calls ++ [call], fun c hc => ?_, ?_⟩
    · rcases mem_append.mp hc with hc | hc
      · exact hcs c hc
      · rw [mem_singleton.mp hc]
        exact ⟨a, hacc.records⟩
    · rw [foldl_append, ← hconts]
      rfl

/-- A rule keeps the loaded rules and those in memory the same exactly if its host is settled and its line is new. -/
theorem agrees_step_iff (hevaluate : Evaluates toJson evaluate rules contents₀ calls₀)
    (hwr : Written toJson rules contents₀ s) (hagr : Agrees evaluate s) (hstep : RuleStep toJson rules s a s') :
    Agrees evaluate s' ↔ StaysFaithful toJson rules s a := by
  obtain ⟨calls, hcs, hconts⟩ := hwr
  obtain ⟨call, hacc⟩ := accepted_of_step hstep
  have honly : StaysFaithful toJson rules s a ↔
      SettledHost call.host ∧ ruleLine toJson call ∉ lines s.contents := by
    refine ⟨fun h => h call hacc.records, fun h other hoth => ?_⟩
    obtain ⟨host, hhost, rfl⟩ := hoth
    obtain ⟨host', hhost', heq⟩ := hacc.records
    cases hhost.symm.trans hhost'
    rw [heq] at h
    exact h
  rw [honly, Agrees, hacc.contents, hacc.networkRules, appendLockedLine]
  split
  · rename_i hline
    rw [hagr]
    simp [hline]
  · rename_i hline
    have hnext := hevaluate (calls ++ [call]) fun c hc => by
      rcases mem_append.mp hc with hc | hc
      · exact hcs c hc
      · rw [mem_singleton.mp hc]
        exact ⟨a, hacc.records⟩
    rw [foldl_append, ← hconts, foldl_cons, foldl_nil, ← append_assoc] at hnext
    unfold Agrees loadNetworkRules at hagr
    rw [hconts, hevaluate calls hcs] at hagr
    have hagr : (calls₀ ++ calls).mapM (fun call => (networkRule call).toOption) = some s.policy.networkRules :=
      hagr
    rw [loadNetworkRules, hnext]
    change ((calls₀ ++ calls) ++ [call]).mapM _ = _ ↔ _
    rw [mapM_append, hagr, and_iff_left hline, ← networkRule_eq_iff hacc.records hacc.justified]
    cases hrule : networkRule call with
    | error error => simp [hrule, Except.toOption]
    | ok rule => simp [hrule, Except.toOption]

theorem persisted_network_rules_agree_iff (toJson : Text → Text) (evaluate : Text → Option (List NetworkRuleCall))
    {α : Type} (rules : α → NetworkRule) (contents₀ : Text) (calls₀ : List NetworkRuleCall)
    (hevaluate : Evaluates toJson evaluate rules contents₀ calls₀) (policy : Policy)
    (hloaded : Agrees evaluate ⟨contents₀, policy⟩) (as : List α) :
    (∀ raw host, normalizeNetworkRuleHost raw = .ok host →
      (normalizeNetworkRuleHost host = .ok host ↔ SettledHost host)) ∧
    (StatesMeet (RuleStep toJson rules) (Agrees evaluate) ⟨contents₀, policy⟩ as ↔
      StepsMeet (RuleStep toJson rules) (StaysFaithful toJson rules) ⟨contents₀, policy⟩ as) := by
  refine ⟨fun raw host h => normalize_again_iff (normalHost_of_eq_ok h), ?_⟩
  have hst : Written toJson rules contents₀ ⟨contents₀, policy⟩ := ⟨[], (fun _ h => nomatch h), rfl⟩
  refine statesMeet_iff_stepsMeet (I := fun s => Written toJson rules contents₀ s ∧ Agrees evaluate s)
    (J := Written toJson rules contents₀) as ⟨hst, hloaded⟩ ?_ (fun _ h => h.2) hst
    (fun _ _ _ h hstep => h.step hstep) ?_
  · rintro s a s' ⟨hwr, hagr⟩ hfaithful hstep
    exact ⟨hwr.step hstep, (agrees_step_iff hevaluate hwr hagr hstep).mpr hfaithful⟩
  · intro s a s' hwr hagr hstep hagr'
    exact (agrees_step_iff hevaluate hwr hagr hstep).mp hagr'

end

/-! ## A host with a port -/

def quoted (s : Text) : Text := ['"'] ++ s ++ ['"']

def exampleRule : NetworkRule := ⟨"Example.com:443", .https, .allow, none⟩

def exampleCall : NetworkRuleCall := ⟨"example.com", "https", "allow", none⟩

def evaluateLines (contents : Text) : Option (List NetworkRuleCall) :=
  some (replicate (contents.count '\n') exampleCall)

theorem records_exampleRule {call : NetworkRuleCall} (h : Records exampleRule call) : call = exampleCall := by
  obtain ⟨host, hhost, rfl⟩ := h
  have hnorm : normalizeNetworkRuleHost exampleRule.host = .ok "example.com" := by decide +kernel
  cases hnorm.symm.trans hhost
  rfl

theorem evaluates_evaluateLines : Evaluates quoted evaluateLines (fun _ : Unit => exampleRule) [] [] := by
  intro calls hcs
  have hline : (ruleLine quoted exampleCall).count '\n' = 0 := by decide +kernel
  have hall : ∀ call ∈ calls, call = exampleCall := fun call hcall =>
    (hcs call hcall).elim fun _ h => records_exampleRule h
  have hcnt : ∀ contents, contents = [] ∨ contents.getLast? = some '\n' →
      (calls.foldl (fun contents call => withLine contents (ruleLine quoted call)) contents).count '\n' =
        contents.count '\n' + calls.length := by
    clear hcs
    induction calls with
    | nil => exact fun _ _ => rfl
    | cons call calls ih =>
        intro contents hend
        have hnew : withLine contents (ruleLine quoted call) = contents ++ ruleLine quoted exampleCall ++ ['\n'] := by
          rw [withLine, if_neg (fun h => hend.elim h.1 h.2), append_nil, hall call mem_cons_self]
        rw [foldl_cons, ih (fun c hc => hall c (mem_cons_of_mem _ hc)) _ (Or.inr (by rw [hnew]; simp)), hnew,
          count_append, count_append, hline, length_cons]
        simp
        omega
  rw [evaluateLines, hcnt [] (Or.inl rfl), nil_append]
  refine congrArg some (eq_replicate_iff.mpr ⟨?_, hall⟩).symm
  simp

theorem example_rule_agrees :
    StatesMeet (RuleStep quoted fun _ : Unit => exampleRule) (Agrees evaluateLines) ⟨[], .empty⟩ [()] := by
  refine (persisted_network_rules_agree_iff quoted evaluateLines _ [] [] evaluates_evaluateLines .empty rfl [()]).2.mpr ?_
  refine stepsMeet_cons fun _ _ => ⟨fun call hcall => ?_, stepsMeet_nil⟩
  rw [records_exampleRule hcall]
  refine ⟨⟨by decide +kernel, ?_, by decide +kernel⟩, by decide +kernel⟩
  rintro ⟨name, port, heq, _⟩
  have hcolon : ':' ∈ exampleCall.host := by
    rw [heq]
    simp
  exact absurd hcolon (by decide +kernel)

theorem bracketed_port_not_settled :
    ¬ ∀ raw host, normalizeNetworkRuleHost raw = .ok host → normalizeNetworkRuleHost host = .ok host := by
  intro h
  have hfst : normalizeNetworkRuleHost "[example.com:443]" = .ok "example.com:443" := by decide +kernel
  exact absurd (h _ _ hfst) (by decide +kernel)

end CodexStudy.ExecPolicy
