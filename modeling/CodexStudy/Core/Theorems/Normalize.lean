import CodexStudy.Core.ContextManager

/-!
# The prompt pairs calls and outputs

The outputs that are inserted stand behind their calls, and what is left of the history keeps its order.
-/

namespace CodexStudy.Core

open CodexStudy.Lib List ContextManager

variable {p : ResponseItem → Bool} {output : ResponseItem}

namespace Normalize

/-! ## Calls and outputs -/

inductive CallKind where
  | function
  | custom
  | toolSearch
  deriving DecidableEq

def callKey? : ResponseItem → Option (CallKind × Text)
  | .functionCall _ _ _ _ callId => some (.function, callId)
  | .localShellCall _ (some callId) _ _ => some (.function, callId)
  | .customToolCall _ _ callId _ _ => some (.custom, callId)
  | .toolSearchCall _ (some callId) _ _ _ => some (.toolSearch, callId)
  | _ => none

def outputKey? : ResponseItem → Option (CallKind × Text)
  | .functionCallOutput callId _ => some (.function, callId)
  | .customToolCallOutput callId _ _ => some (.custom, callId)
  | .toolSearchOutput (some callId) _ _ _ => some (.toolSearch, callId)
  | _ => none

def isServerSide : ResponseItem → Bool
  | .toolSearchOutput _ _ execution _ => execution == "server"
  | _ => false

variable (items : List ResponseItem)

def hasCall (key : CallKind × Text) : Bool := items.any (callKey? · == some key)

def hasOutput (key : CallKind × Text) : Bool := items.any (outputKey? · == some key)

/-- Every call with an id has an output. -/
def CallsAnswered : Prop :=
  ∀ call ∈ items, ∀ key ∈ callKey? call, ∃ output ∈ items, outputKey? output = some key

/-- Every output with an id has a call, unless it comes from a server. -/
def OutputsCalled : Prop :=
  ∀ output ∈ items, isServerSide output = false → ∀ key ∈ outputKey? output, ∃ call ∈ items, callKey? call = some key

def survives (item : ResponseItem) : Bool :=
  isServerSide item || (outputKey? item).all (hasCall items)

/-- The surviving items in their order, each changed by `strip`; behind a call without an output stands an output for
it, and nothing else is added. -/
def Extends (strip : ResponseItem → ResponseItem) (items out : List ResponseItem) : Prop :=
  ∃ inserted : ResponseItem → Option ResponseItem,
    out = (items.filter (survives items)).flatMap (fun item => strip item :: (inserted item).toList) ∧
    ∀ call, ∀ output ∈ inserted call, ∃ key, callKey? call = some key ∧ outputKey? output = some key ∧
      hasOutput items key = false

/-! ## The insertion -/

variable {α : Type} {key : CallKind × Text} {call : ResponseItem}

theorem insertIdx_length_succ (xs ys : List α) (x a : α) :
    (xs ++ x :: ys).insertIdx (xs.length + 1) a = xs ++ x :: a :: ys := by
  induction xs with
  | nil => simp
  | cons y xs ih => simpa using ih

theorem insert_behind (f : α → Option α) (l xs : List α) :
    ((l.zipIdx xs.length).filterMap fun (item, idx) => (f item).map fun output => (idx, output)).foldr
        (fun (idx, output) items => items.insertIdx (idx + 1) output) (xs ++ l) =
      xs ++ l.flatMap fun item => item :: (f item).toList := by
  induction l generalizing xs with
  | nil => simp
  | cons x l ih =>
      have hih := ih (xs ++ [x])
      simp only [length_append, length_singleton, append_assoc, singleton_append] at hih
      cases hx : f x with
      | none => simpa [hx] using hih
      | some output =>
          simp only [zipIdx_cons, filterMap_cons, hx, Option.map_some, foldr_cons, hih,
            insertIdx_length_succ, flatMap_cons, Option.toList_some, cons_append, nil_append]

theorem ensureCallOutputsPresent_eq (items : List ResponseItem) :
    ensureCallOutputsPresent items = items.flatMap fun item => item :: (missingOutput? items item).toList := by
  have h := insert_behind (missingOutput? items) items []
  rw [ensureCallOutputsPresent, foldl_reverse]
  exact h

/-! ## Missing outputs -/

variable {items : List ResponseItem}

theorem hasOutput_eq (h : ∀ item, p item = (outputKey? item == some key)) : items.any p = hasOutput items key :=
  congrArg items.any (funext h)

theorem hasFunctionCallOutput_eq (callId : Text) :
    hasFunctionCallOutput items callId = hasOutput items (.function, callId) := by
  refine hasOutput_eq fun item => ?_
  cases item with
  | functionCallOutput => simp [outputKey?]
  | toolSearchOutput callId => cases callId <;> rfl
  | _ => rfl

theorem hasCustomToolCallOutput_eq (callId : Text) :
    hasCustomToolCallOutput items callId = hasOutput items (.custom, callId) := by
  refine hasOutput_eq fun item => ?_
  cases item with
  | customToolCallOutput => simp [outputKey?]
  | toolSearchOutput callId => cases callId <;> rfl
  | _ => rfl

theorem hasToolSearchOutput_eq (callId : Text) :
    hasToolSearchOutput items callId = hasOutput items (.toolSearch, callId) := by
  refine hasOutput_eq fun item => ?_
  cases item with
  | toolSearchOutput callId => cases callId <;> simp [outputKey?]
  | _ => rfl

def madeUpOutput : CallKind × Text → ResponseItem
  | (.function, callId) => .functionCallOutput callId (.fromText "aborted")
  | (.custom, callId) => .customToolCallOutput callId none (.fromText "aborted")
  | (.toolSearch, callId) => .toolSearchOutput (some callId) "completed" "client" []

theorem outputKey?_madeUpOutput (key : CallKind × Text) : outputKey? (madeUpOutput key) = some key := by
  obtain ⟨kind, callId⟩ := key
  cases kind <;> rfl

theorem callKey?_madeUpOutput (key : CallKind × Text) : callKey? (madeUpOutput key) = none := by
  obtain ⟨kind, callId⟩ := key
  cases kind <;> rfl

theorem stripItem_madeUpOutput (key : CallKind × Text) : stripItem (madeUpOutput key) = madeUpOutput key := by
  obtain ⟨kind, callId⟩ := key
  cases kind <;> rfl

theorem missingOutput?_eq (items : List ResponseItem) (call : ResponseItem) :
    missingOutput? items call =
      (callKey? call).bind fun key => if hasOutput items key then none else some (madeUpOutput key) := by
  cases call with
  | functionCall => rw [missingOutput?, hasFunctionCallOutput_eq]; rfl
  | localShellCall id callId =>
      cases callId with
      | none => rfl
      | some callId => rw [missingOutput?, hasFunctionCallOutput_eq]; rfl
  | customToolCall => rw [missingOutput?, hasCustomToolCallOutput_eq]; rfl
  | toolSearchCall id callId =>
      cases callId with
      | none => rfl
      | some callId => rw [missingOutput?, hasToolSearchOutput_eq]; rfl
  | _ => rfl

theorem missingOutput?_eq_some (h : missingOutput? items call = some output) :
    ∃ key, callKey? call = some key ∧ hasOutput items key = false ∧ output = madeUpOutput key := by
  rw [missingOutput?_eq, Option.bind_eq_some_iff] at h
  obtain ⟨key, hkey, h⟩ := h
  cases hhas : hasOutput items key with
  | true => simp [hhas] at h
  | false => exact ⟨key, hkey, hhas, by simpa [hhas] using h.symm⟩

theorem missingOutput?_eq_none (h : CallsAnswered items) (hcall : call ∈ items) : missingOutput? items call = none := by
  cases hnew : missingOutput? items call with
  | none => rfl
  | some output =>
      obtain ⟨key, hkey, hnone, -⟩ := missingOutput?_eq_some hnew
      obtain ⟨output, hmem, hout⟩ := h call hcall key hkey
      rw [hasOutput, any_eq_false] at hnone
      exact absurd (beq_iff_eq.mpr hout) (hnone output hmem)

/-! ## Orphans -/

theorem contains_filterMap_eq {f : ResponseItem → Option Text} {callId : Text}
    (h : ∀ item, p item = (f item == some callId)) : (items.filterMap f).contains callId = items.any p := by
  rw [Bool.eq_iff_iff, contains_iff_mem, mem_filterMap, any_eq_true]
  simp only [h, beq_iff_eq]

theorem any_or_any (l : List α) (p q : α → Bool) : (l.any p || l.any q) = l.any fun x => p x || q x := by
  induction l with
  | nil => rfl
  | cons x l ih =>
      rw [any_cons, any_cons, any_cons, ← ih]
      cases p x <;> cases q x <;> simp

theorem contains_functionCallIds (callId : Text) :
    ((functionCallIds items).contains callId || (localShellCallIds items).contains callId) =
      hasCall items (.function, callId) := by
  rw [functionCallIds, localShellCallIds, contains_filterMap_eq fun _ => rfl, contains_filterMap_eq fun _ => rfl,
    any_or_any, hasCall]
  refine congrArg items.any (funext fun item => ?_)
  cases item with
  | functionCall => simp [callKey?]
  | localShellCall id callId => cases callId <;> simp [callKey?]
  | toolSearchCall id callId => cases callId <;> rfl
  | _ => rfl

theorem contains_customToolCallIds (callId : Text) :
    (customToolCallIds items).contains callId = hasCall items (.custom, callId) := by
  refine contains_filterMap_eq fun item => ?_
  cases item with
  | customToolCall => simp [callKey?]
  | localShellCall id callId => cases callId <;> rfl
  | toolSearchCall id callId => cases callId <;> rfl
  | _ => rfl

theorem contains_toolSearchCallIds (callId : Text) :
    (toolSearchCallIds items).contains callId = hasCall items (.toolSearch, callId) := by
  refine contains_filterMap_eq fun item => ?_
  cases item with
  | localShellCall id callId => cases callId <;> rfl
  | toolSearchCall id callId => cases callId <;> simp [callKey?]
  | _ => rfl

theorem hasMatch_eq_survives (items : List ResponseItem) (item : ResponseItem) :
    hasMatch items item = survives items item := by
  cases item with
  | functionCallOutput => rw [hasMatch, contains_functionCallIds]; rfl
  | customToolCallOutput => rw [hasMatch, contains_customToolCallIds]; rfl
  | toolSearchOutput callId status execution tools =>
      cases callId with
      | none =>
          simp only [hasMatch, survives, outputKey?, Option.all_none, Bool.or_true]
          split <;> rfl
      | some callId =>
          simp only [hasMatch, survives, isServerSide, outputKey?, Option.all_some, contains_toolSearchCallIds]
          cases execution == "server" <;> rfl
  | _ => rfl

/-! ## The three steps together -/

variable (items) in
theorem hasCall_ensureCallOutputsPresent (key : CallKind × Text) :
    hasCall (ensureCallOutputsPresent items) key = hasCall items key := by
  rw [hasCall, ensureCallOutputsPresent_eq, any_flatMap]
  refine congrArg items.any (funext fun item => ?_)
  cases hnew : missingOutput? items item with
  | none => simp
  | some output =>
      obtain ⟨key, -, -, rfl⟩ := missingOutput?_eq_some hnew
      simp [callKey?_madeUpOutput]

theorem flatMap_eq_filter_flatMap {β : Type} {l : List α} {p : α → Bool} {f g : α → List β}
    (h : ∀ a ∈ l, g a = if p a then f a else []) : l.flatMap g = (l.filter p).flatMap f := by
  induction l with
  | nil => rfl
  | cons a l ih =>
      simp only [forall_mem_cons] at h
      rw [flatMap_cons, h.1, ih h.2, filter_cons]
      split <;> rfl

theorem outputKey?_of_callKey? (h : callKey? call = some key) : outputKey? call = none := by
  cases call <;> first | rfl | simp [callKey?] at h

theorem survives_of_hasCall (hkey : outputKey? output = some key)
    (h : hasCall items key = true) : survives items output = true := by
  simp [survives, hkey, h]

theorem removeOrphanOutputs_ensureCallOutputsPresent (items : List ResponseItem) :
    removeOrphanOutputs (ensureCallOutputsPresent items) =
      (items.filter (survives items)).flatMap fun item => item :: (missingOutput? items item).toList := by
  have hsame : hasMatch (ensureCallOutputsPresent items) = survives items := by
    funext item
    rw [hasMatch_eq_survives, survives, funext (hasCall_ensureCallOutputsPresent items), survives]
  rw [removeOrphanOutputs, hsame, ensureCallOutputsPresent_eq, filter_flatMap]
  refine flatMap_eq_filter_flatMap fun item hitem => ?_
  cases hnew : missingOutput? items item with
  | none => cases hs : survives items item <;> simp [hs]
  | some output =>
      obtain ⟨key, hkey, -, rfl⟩ := missingOutput?_eq_some hnew
      have hcall : hasCall items key = true := any_eq_true.mpr ⟨item, hitem, by simp [hkey]⟩
      have hs : survives items item = true := by simp [survives, outputKey?_of_callKey? hkey]
      simp [hs, survives_of_hasCall (outputKey?_madeUpOutput key) hcall]

/-! ## Images -/

theorem stripContentItem_idem (item : ContentItem) :
    stripContentItem (stripContentItem item) = stripContentItem item := by
  cases item <;> rfl

theorem stripOutput_idem (output : FunctionCallOutputPayload) :
    stripOutput (stripOutput output) = stripOutput output := by
  obtain ⟨body, success⟩ := output
  cases body with
  | text => rfl
  | contentItems items =>
      have hidem : stripOutputContentItem ∘ stripOutputContentItem = stripOutputContentItem := by
        funext item
        cases item <;> rfl
      simp [stripOutput, hidem]

theorem stripItem_idem (item : ResponseItem) : stripItem (stripItem item) = stripItem item := by
  cases item with
  | message => simp [stripItem, stripContentItem_idem]
  | functionCallOutput => simp [stripItem, stripOutput_idem]
  | customToolCallOutput => simp [stripItem, stripOutput_idem]
  | _ => rfl

def stripFor (inputModalities : List InputModality) (item : ResponseItem) : ResponseItem :=
  if inputModalities.contains .image then item else stripItem item

section Strip

variable (inputModalities : List InputModality)

theorem stripImagesWhenUnsupported_eq (items : List ResponseItem) :
    stripImagesWhenUnsupported inputModalities items = items.map (stripFor inputModalities) := by
  rw [stripImagesWhenUnsupported]
  split
  · rename_i h
    rw [show stripFor inputModalities = id from funext fun item => if_pos h, map_id]
  · rename_i h
    rw [show stripFor inputModalities = stripItem from funext fun item => if_neg h]

theorem stripFor_idem (item : ResponseItem) :
    stripFor inputModalities (stripFor inputModalities item) = stripFor inputModalities item := by
  simp only [stripFor]
  split
  · rfl
  · exact stripItem_idem item

theorem stripFor_madeUpOutput (key : CallKind × Text) :
    stripFor inputModalities (madeUpOutput key) = madeUpOutput key := by
  rw [stripFor, stripItem_madeUpOutput, ite_self]

@[simp] theorem callKey?_stripFor (item : ResponseItem) : callKey? (stripFor inputModalities item) = callKey? item := by
  rw [stripFor]
  split
  · rfl
  · cases item <;> rfl

@[simp] theorem outputKey?_stripFor (item : ResponseItem) :
    outputKey? (stripFor inputModalities item) = outputKey? item := by
  rw [stripFor]
  split
  · rfl
  · cases item <;> rfl

@[simp] theorem isServerSide_stripFor (item : ResponseItem) :
    isServerSide (stripFor inputModalities item) = isServerSide item := by
  rw [stripFor]
  split
  · rfl
  · cases item <;> rfl

end Strip

/-! ## The prompt -/

variable (inputModalities : List InputModality)

theorem forPrompt_eq (cm : ContextManager) :
    cm.forPrompt inputModalities = (cm.items.filter (survives cm.items)).flatMap fun item =>
      stripFor inputModalities item :: (missingOutput? cm.items item).toList := by
  rw [forPrompt, normalizeHistory]
  dsimp only
  rw [stripImagesWhenUnsupported_eq, removeOrphanOutputs_ensureCallOutputsPresent, map_flatMap]
  refine congrArg (flatMap · _) (funext fun item => ?_)
  cases hnew : missingOutput? cm.items item with
  | none => rfl
  | some output =>
      obtain ⟨key, -, -, rfl⟩ := missingOutput?_eq_some hnew
      simp [stripFor_madeUpOutput]

theorem mem_forPrompt {cm : ContextManager} {out : ResponseItem} :
    out ∈ cm.forPrompt inputModalities ↔ ∃ item ∈ cm.items, survives cm.items item = true ∧
      (out = stripFor inputModalities item ∨ missingOutput? cm.items item = some out) := by
  rw [forPrompt_eq, mem_flatMap]
  simp only [mem_filter, mem_cons, Option.mem_toList, and_assoc]

theorem forPrompt_callsAnswered (cm : ContextManager) : CallsAnswered (cm.forPrompt inputModalities) := by
  intro call hcall key hkey
  obtain ⟨item, hitem, hs, rfl | hnew⟩ := (mem_forPrompt inputModalities).mp hcall
  · rw [callKey?_stripFor] at hkey
    cases hhas : hasOutput cm.items key with
    | true =>
        obtain ⟨output, hmem, hout⟩ := any_eq_true.mp hhas
        have hout : outputKey? output = some key := beq_iff_eq.mp hout
        have hcall : hasCall cm.items key = true := any_eq_true.mpr ⟨item, hitem, by simpa using hkey⟩
        refine ⟨stripFor inputModalities output, (mem_forPrompt inputModalities).mpr
          ⟨output, hmem, survives_of_hasCall hout hcall, Or.inl rfl⟩, ?_⟩
        rw [outputKey?_stripFor, hout]
    | false =>
        refine ⟨madeUpOutput key, (mem_forPrompt inputModalities).mpr ⟨item, hitem, hs, Or.inr ?_⟩,
          outputKey?_madeUpOutput key⟩
        rw [missingOutput?_eq, hkey]
        simp [hhas]
  · obtain ⟨key', -, -, rfl⟩ := missingOutput?_eq_some hnew
    simp [callKey?_madeUpOutput] at hkey

theorem forPrompt_outputsCalled (cm : ContextManager) : OutputsCalled (cm.forPrompt inputModalities) := by
  intro output hout hserver key hkey
  -- a call is among the items, and calls survive
  have hpr : hasCall cm.items key = true →
      ∃ call ∈ cm.forPrompt inputModalities, callKey? call = some key := by
    intro h
    obtain ⟨call, hmem, hcall⟩ := any_eq_true.mp h
    have hcall : callKey? call = some key := beq_iff_eq.mp hcall
    have hs : survives cm.items call = true := by simp [survives, outputKey?_of_callKey? hcall]
    exact ⟨stripFor inputModalities call, (mem_forPrompt inputModalities).mpr ⟨call, hmem, hs, Or.inl rfl⟩,
      by rw [callKey?_stripFor, hcall]⟩
  obtain ⟨item, hitem, hs, rfl | hnew⟩ := (mem_forPrompt inputModalities).mp hout
  · rw [outputKey?_stripFor, Option.mem_def] at hkey
    rw [isServerSide_stripFor] at hserver
    refine hpr ?_
    simpa [survives, hserver, hkey] using hs
  · obtain ⟨key', hcall, -, rfl⟩ := missingOutput?_eq_some hnew
    rw [outputKey?_madeUpOutput, Option.mem_some_iff] at hkey
    subst hkey
    exact hpr (any_eq_true.mpr ⟨item, hitem, by simp [hcall]⟩)

theorem forPrompt_extends (cm : ContextManager) :
    Extends (stripFor inputModalities) cm.items (cm.forPrompt inputModalities) := by
  refine ⟨missingOutput? cm.items, forPrompt_eq inputModalities cm, fun call output hnew => ?_⟩
  obtain ⟨key, hcall, hnone, rfl⟩ := missingOutput?_eq_some hnew
  exact ⟨key, hcall, outputKey?_madeUpOutput key, hnone⟩

theorem forPrompt_of_paired (cm : ContextManager) (hcs : CallsAnswered cm.items) (houtputs : OutputsCalled cm.items) :
    cm.forPrompt inputModalities = cm.items.map (stripFor inputModalities) := by
  have hall : ∀ item ∈ cm.items, survives cm.items item = true := by
    intro item hitem
    rw [survives, Bool.or_eq_true]
    cases hserver : isServerSide item with
    | true => exact Or.inl rfl
    | false =>
        right
        rw [Option.all_eq_true]
        intro key hkey
        obtain ⟨call, hmem, hcall⟩ := houtputs item hitem hserver key hkey
        exact any_eq_true.mpr ⟨call, hmem, by simp [hcall]⟩
  rw [forPrompt_eq, filter_eq_self.mpr hall, map_eq_flatMap]
  refine flatMap_congr fun item hitem => ?_
  rw [missingOutput?_eq_none hcs hitem]
  rfl

/-- Every call with an id has an output, every output with an id that is not from a server has a call, what is inserted
stands behind its call, the rest keeps its order, and normalizing once more changes nothing. -/
theorem for_prompt_pairs_calls_and_outputs (cm : ContextManager) (inputModalities : List InputModality) :
    CallsAnswered (cm.forPrompt inputModalities) ∧ OutputsCalled (cm.forPrompt inputModalities) ∧
    Extends (stripFor inputModalities) cm.items (cm.forPrompt inputModalities) ∧
    forPrompt { cm with items := cm.forPrompt inputModalities } inputModalities = cm.forPrompt inputModalities := by
  have hcs := forPrompt_callsAnswered inputModalities cm
  have houtputs := forPrompt_outputsCalled inputModalities cm
  refine ⟨hcs, houtputs, forPrompt_extends inputModalities cm, ?_⟩
  rw [forPrompt_of_paired inputModalities { cm with items := cm.forPrompt inputModalities } hcs houtputs]
  -- what has been stripped stays as it is
  refine (map_congr_left fun out hout => ?_).trans (map_id _)
  obtain ⟨item, -, -, rfl | hnew⟩ := (mem_forPrompt inputModalities).mp hout
  · exact stripFor_idem inputModalities item
  · obtain ⟨key, -, -, rfl⟩ := missingOutput?_eq_some hnew
    exact stripFor_madeUpOutput inputModalities key

end Normalize

end CodexStudy.Core
