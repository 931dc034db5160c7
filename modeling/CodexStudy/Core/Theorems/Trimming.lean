import CodexStudy.Core.Theorems.Normalize
import CodexStudy.Lib.Lists

/-!
# Trimming the history

Items are removed from both ends of the history, each with its counterpart, so that calls and outputs stay
paired without normalizing the whole history.
-/

namespace CodexStudy.Core

open CodexStudy.Lib List

namespace Normalize

/-! ## Pairs -/

def itemKey? (item : ResponseItem) : Option (CallKind × Text) := callKey? item <|> outputKey? item

/-- No two calls have the same id; every call has one output and every output one call. -/
structure Paired (items : List ResponseItem) : Prop where
  ids : ((items.filterMap callKey?).map Prod.snd).Nodup
  answered : ∀ call ∈ items, ∀ key ∈ callKey? call, items.countP (outputKey? · == some key) = 1
  called : ∀ output ∈ items, ∀ key ∈ outputKey? output, items.countP (callKey? · == some key) = 1

/-- The two items are a call and its output, in one order or the other. -/
def Counterparts (item partner : ResponseItem) : Prop :=
  ∃ key, callKey? item = some key ∧ outputKey? partner = some key ∨
    outputKey? item = some key ∧ callKey? partner = some key

/-- From `before` to `after` an item goes, with the counterpart of its id. What is left keeps its order. -/
structure Removes (item : ResponseItem) (before after : List ResponseItem) : Prop where
  kept : after.Sublist before
  removed : itemKey? item = none ∧ before.Perm (item :: after) ∨
    ∃ partner, Counterparts item partner ∧ before.Perm (item :: partner :: after)

theorem callKey?_of_outputKey? {output : ResponseItem} {key : CallKind × Text} (h : outputKey? output = some key) :
    callKey? output = none := by
  cases hcall : callKey? output with
  | none => rfl
  | some key' => rw [outputKey?_of_callKey? hcall] at h; cases h

theorem itemKey?_eq_none {item : ResponseItem} :
    itemKey? item = none ↔ callKey? item = none ∧ outputKey? item = none := by
  cases hcall : callKey? item with
  | none => simp [itemKey?, hcall]
  | some key => simp [itemKey?, hcall]

/-! ## What the removal of a counterpart does -/

variable {items before after : List ResponseItem} {item call output : ResponseItem} {key : CallKind × Text}

variable (callId : Text)

theorem isFunctionCallOutput_eq (item : ResponseItem) :
    isFunctionCallOutput callId item = (outputKey? item == some (.function, callId)) := by
  cases item with
  | functionCallOutput => simp [isFunctionCallOutput, outputKey?]
  | toolSearchOutput callId => cases callId <;> rfl
  | _ => rfl

theorem isCustomToolCallOutput_eq (item : ResponseItem) :
    isCustomToolCallOutput callId item = (outputKey? item == some (.custom, callId)) := by
  cases item with
  | customToolCallOutput => simp [isCustomToolCallOutput, outputKey?]
  | toolSearchOutput callId => cases callId <;> rfl
  | _ => rfl

theorem isToolSearchOutput_eq (item : ResponseItem) :
    isToolSearchOutput callId item = (outputKey? item == some (.toolSearch, callId)) := by
  cases item with
  | toolSearchOutput callId => cases callId <;> simp [isToolSearchOutput, outputKey?]
  | _ => rfl

theorem isCustomToolCall_eq (item : ResponseItem) :
    isCustomToolCall callId item = (callKey? item == some (.custom, callId)) := by
  cases item with
  | customToolCall => simp [isCustomToolCall, callKey?]
  | localShellCall id callId => cases callId <;> rfl
  | toolSearchCall id callId => cases callId <;> rfl
  | _ => rfl

theorem isToolSearchCall_eq (item : ResponseItem) :
    isToolSearchCall callId item = (callKey? item == some (.toolSearch, callId)) := by
  cases item with
  | toolSearchCall id callId => cases callId <;> simp [isToolSearchCall, callKey?]
  | localShellCall id callId => cases callId <;> rfl
  | _ => rfl

theorem isFunctionCall_or_isLocalShellCall (item : ResponseItem) :
    (isFunctionCall callId item || isLocalShellCall callId item) = (callKey? item == some (.function, callId)) := by
  cases item with
  | functionCall => simp [isFunctionCall, isLocalShellCall, callKey?]
  | localShellCall id callId => cases callId <;> simp [isFunctionCall, isLocalShellCall, callKey?]
  | toolSearchCall id callId => cases callId <;> rfl
  | _ => rfl

theorem removeCorrespondingFor_of_none (h : itemKey? item = none) : removeCorrespondingFor items item = items := by
  obtain ⟨hcall, hout⟩ := itemKey?_eq_none.mp h
  cases item with
  | functionCall => simp [callKey?] at hcall
  | functionCallOutput => simp [outputKey?] at hout
  | customToolCall => simp [callKey?] at hcall
  | customToolCallOutput => simp [outputKey?] at hout
  | localShellCall id callId =>
      cases callId with
      | none => rfl
      | some callId => simp [callKey?] at hcall
  | toolSearchCall id callId =>
      cases callId with
      | none => rfl
      | some callId => simp [callKey?] at hcall
  | toolSearchOutput callId =>
      cases callId with
      | none => rfl
      | some callId => simp [outputKey?] at hout
  | _ => rfl

theorem removeCorrespondingFor_call (h : callKey? call = some key) :
    removeCorrespondingFor items call = items.eraseP (outputKey? · == some key) := by
  cases call with
  | functionCall =>
      cases h
      exact eraseP_congr fun item _ => isFunctionCallOutput_eq _ item
  | localShellCall id callId =>
      cases callId with
      | none => cases h
      | some callId =>
          cases h
          exact eraseP_congr fun item _ => isFunctionCallOutput_eq _ item
  | customToolCall =>
      cases h
      exact eraseP_congr fun item _ => isCustomToolCallOutput_eq _ item
  | toolSearchCall id callId =>
      cases callId with
      | none => cases h
      | some callId =>
          cases h
          exact eraseP_congr fun item _ => isToolSearchOutput_eq _ item
  | _ => cases h

theorem removeCorrespondingFor_output (h : outputKey? output = some key)
    (hcnt : items.countP (callKey? · == some key) ≤ 1) :
    removeCorrespondingFor items output = items.eraseP (callKey? · == some key) := by
  cases output with
  | functionCallOutput callId =>
      cases h
      rw [removeCorrespondingFor]
      cases hany : items.any (isFunctionCall callId) with
      | true =>
          rw [if_pos rfl]
          refine eraseP_eq_of_countP (fun item hitem => ?_) hany hcnt
          rw [← isFunctionCall_or_isLocalShellCall, hitem, Bool.true_or]
      | false =>
          rw [if_neg Bool.false_ne_true]
          refine eraseP_congr fun item hitem => ?_
          have hnot : isFunctionCall callId item = false := by
            simpa using any_eq_false.mp hany item hitem
          rw [← isFunctionCall_or_isLocalShellCall, hnot, Bool.false_or]
  | customToolCallOutput =>
      cases h
      exact eraseP_congr fun item _ => isCustomToolCall_eq _ item
  | toolSearchOutput callId =>
      cases callId with
      | none => cases h
      | some callId =>
          cases h
          exact eraseP_congr fun item _ => isToolSearchCall_eq _ item
  | _ => cases h

/-! ## One removal -/

theorem Paired.of_single (h : Paired before) (hperm : before.Perm (item :: after)) (hkept : after.Sublist before)
    (hkey : itemKey? item = none) : Paired after where
  ids := h.ids.sublist ((hkept.filterMap _).map _)
  answered := by
    intro call hcall key hcallKey
    have hcnt := h.answered call (hkept.subset hcall) key hcallKey
    rw [hperm.countP_eq, countP_cons_of_neg (by simp [(itemKey?_eq_none.mp hkey).2])] at hcnt
    exact hcnt
  called := by
    intro output hout key houtputKey
    have hcnt := h.called output (hkept.subset hout) key houtputKey
    rw [hperm.countP_eq, countP_cons_of_neg (by simp [(itemKey?_eq_none.mp hkey).1])] at hcnt
    exact hcnt

theorem Paired.of_pair (h : Paired before) (hperm : before.Perm (call :: output :: after))
    (hkept : after.Sublist before) (hcall : callKey? call = some key) (hout : outputKey? output = some key) :
    Paired after where
  ids := h.ids.sublist ((hkept.filterMap _).map _)
  answered := by
    intro item hitem key' hkey'
    have hne : key' ≠ key := by
      rintro rfl
      have hcnt := h.called output (hperm.mem_iff.mpr (by simp)) key' hout
      rw [hperm.countP_eq, countP_cons_of_pos (by simp [hcall])] at hcnt
      have hpos : 0 < (output :: after).countP (callKey? · == some key') :=
        countP_pos_iff.mpr ⟨item, mem_cons_of_mem _ hitem, by simpa using hkey'⟩
      omega
    have hcnt := h.answered item (hkept.subset hitem) key' hkey'
    rw [hperm.countP_eq, countP_cons_of_neg (by simp [outputKey?_of_callKey? hcall]),
      countP_cons_of_neg (by simpa [hout] using hne.symm)] at hcnt
    exact hcnt
  called := by
    intro item hitem key' hkey'
    have hne : key' ≠ key := by
      rintro rfl
      have hcnt := h.answered call (hperm.mem_iff.mpr (by simp)) key' hcall
      rw [(hperm.trans (.swap _ _ _)).countP_eq, countP_cons_of_pos (by simp [hout])] at hcnt
      have hpos : 0 < (call :: after).countP (outputKey? · == some key') :=
        countP_pos_iff.mpr ⟨item, mem_cons_of_mem _ hitem, by simpa using hkey'⟩
      omega
    have hcnt := h.called item (hkept.subset hitem) key' hkey'
    rw [hperm.countP_eq, countP_cons_of_neg (by simpa [hcall] using hne.symm),
      countP_cons_of_neg (by simp [callKey?_of_outputKey? hout])] at hcnt
    exact hcnt

theorem Paired.of_removes (h : Paired before) (hremoves : Removes item before after) : Paired after := by
  obtain ⟨hkept, ⟨hkey, hperm⟩ | ⟨partner, ⟨key, ⟨hitem, hpartner⟩ | ⟨hitem, hpartner⟩⟩, hperm⟩⟩ := hremoves
  · exact h.of_single hperm hkept hkey
  · exact h.of_pair hperm hkept hitem hpartner
  · exact h.of_pair (hperm.trans (.swap _ _ _)) hkept hpartner hitem

theorem exists_perm_eraseP {p : ResponseItem → Bool} (h : 0 < items.countP p) :
    ∃ partner, p partner = true ∧ items.Perm (partner :: items.eraseP p) := by
  obtain ⟨x, hx, hpx⟩ := countP_pos_iff.mp h
  obtain ⟨partner, l₁, l₂, -, hpartner, hits, herase⟩ := exists_of_eraseP hx hpx
  refine ⟨partner, hpartner, ?_⟩
  rw [herase, hits]
  exact perm_middle

theorem Paired.removes {rest : List ResponseItem} (h : Paired before) (hperm : before.Perm (item :: rest))
    (hrest : rest.Sublist before) : Removes item before (removeCorrespondingFor rest item) := by
  have hitem : item ∈ before := hperm.mem_iff.mpr mem_cons_self
  cases hcall : callKey? item with
  | some key =>
      have hcnt := h.answered item hitem key hcall
      rw [hperm.countP_eq, countP_cons_of_neg (by simp [outputKey?_of_callKey? hcall])] at hcnt
      have hpos : 0 < rest.countP (outputKey? · == some key) := by omega
      obtain ⟨partner, hpartner, herase⟩ := exists_perm_eraseP hpos
      rw [removeCorrespondingFor_call hcall]
      exact ⟨eraseP_sublist.trans hrest,
        .inr ⟨partner, ⟨key, .inl ⟨hcall, beq_iff_eq.mp hpartner⟩⟩, hperm.trans (herase.cons item)⟩⟩
  | none =>
      cases hout : outputKey? item with
      | some key =>
          have hcnt := h.called item hitem key hout
          rw [hperm.countP_eq, countP_cons_of_neg (by simp [hcall])] at hcnt
          have hpos : 0 < rest.countP (callKey? · == some key) := by omega
          obtain ⟨partner, hpartner, herase⟩ := exists_perm_eraseP hpos
          rw [removeCorrespondingFor_output hout (by omega)]
          exact ⟨eraseP_sublist.trans hrest,
            .inr ⟨partner, ⟨key, .inr ⟨hout, beq_iff_eq.mp hpartner⟩⟩, hperm.trans (herase.cons item)⟩⟩
      | none =>
          have hkey : itemKey? item = none := itemKey?_eq_none.mpr ⟨hcall, hout⟩
          rw [removeCorrespondingFor_of_none hkey]
          exact ⟨hrest, .inl ⟨hkey, hperm⟩⟩

end Normalize

/-! ## Runs -/

inductive HistoryEnd where
  | first
  | last

namespace HistoryEnd

def item? : HistoryEnd → List ResponseItem → Option ResponseItem
  | first, items => items.head?
  | last, items => items.getLast?

def remove : HistoryEnd → ContextManager → ContextManager
  | first, cm => cm.removeFirstItem
  | last, cm => cm.removeLastItem.1

end HistoryEnd

variable {cm : ContextManager}

namespace ContextManager

open Normalize

def trim (ends : List HistoryEnd) (cm : ContextManager) : ContextManager := ends.foldl (fun cm e => e.remove cm) cm

theorem remove_spec (h : Paired cm.items) (e : HistoryEnd) :
    match e.item? cm.items with
    | some item => Removes item cm.items (e.remove cm).items
    | none => (e.remove cm) = cm ∧ cm.items = [] := by
  cases e with
  | first =>
      rw [HistoryEnd.item?, HistoryEnd.remove, removeFirstItem]
      cases hits : cm.items with
      | nil => exact ⟨rfl, rfl⟩
      | cons item rest =>
          rw [hits] at h
          exact h.removes (.refl _) (sublist_cons_self item rest)
  | last =>
      rw [HistoryEnd.item?, HistoryEnd.remove, removeLastItem]
      cases hlast : cm.items.getLast? with
      | none => exact ⟨rfl, getLast?_eq_none_iff.mp hlast⟩
      | some item =>
          have hspl : cm.items = cm.items.dropLast ++ [item] := by
            obtain ⟨rest, hrest⟩ := getLast?_eq_some_iff.mp hlast
            rw [hrest, dropLast_concat]
          refine h.removes ?_ (dropLast_sublist _)
          conv_lhs => rw [hspl]
          exact perm_append_singleton _ _

theorem remove_paired (h : Paired cm.items) (e : HistoryEnd) : Paired (e.remove cm).items := by
  have hspec := remove_spec h e
  cases hitem : e.item? cm.items with
  | some item => rw [hitem] at hspec; exact h.of_removes hspec
  | none => rw [hitem] at hspec; rw [hspec.1]; exact h

theorem trim_paired (h : Paired cm.items) (ends : List HistoryEnd) :
    Paired (cm.trim ends).items := by
  induction ends generalizing cm with
  | nil => exact h
  | cons e ends ih => exact ih (remove_paired h e)

/-- However a paired history is trimmed from both ends, it is paired, and the next removal takes exactly the item at its
end, with its counterpart if it has one. -/
theorem trim_keeps_pairs {cm : ContextManager} (h : Paired cm.items) (ends : List HistoryEnd) :
    Paired (cm.trim ends).items ∧ ∀ e : HistoryEnd,
      match e.item? (cm.trim ends).items with
      | some item => Removes item (cm.trim ends).items (cm.trim (ends ++ [e])).items
      | none => cm.trim (ends ++ [e]) = cm.trim ends ∧ (cm.trim ends).items = [] := by
  have hpd := trim_paired h ends
  refine ⟨hpd, fun e => ?_⟩
  have hstep : cm.trim (ends ++ [e]) = e.remove (cm.trim ends) := foldl_concat _ _ _ _
  rw [hstep]
  exact remove_spec hpd e

def sampleTrimmed : ContextManager where
  items := [.toolSearchCall none (some "s") none [] [], .localShellCall none (some "c") .completed [],
    .message none "user" [] none, .functionCallOutput "c" (.fromText "done"),
    .toolSearchOutput (some "s") [] [] []]

theorem trim_keeps_pairs_of_sample : (sampleTrimmed.trim [.first]).items.length = 3 ∧
      Removes (.functionCallOutput "c" (.fromText "done")) (sampleTrimmed.trim [.first]).items
        (sampleTrimmed.trim [.first, .last]).items := by
  have hpd : Paired sampleTrimmed.items :=
    ⟨by decide +kernel, by decide +kernel, by decide +kernel⟩
  have hstep := (trim_keeps_pairs hpd [.first]).2 .last
  have hitem : HistoryEnd.last.item? (sampleTrimmed.trim [.first]).items =
      some (.functionCallOutput "c" (.fromText "done")) := by decide +kernel
  rw [hitem] at hstep
  exact ⟨by decide +kernel, hstep⟩

end ContextManager

end CodexStudy.Core
