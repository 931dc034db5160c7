import Mathlib.Data.Set.Card
import Mathlib.Logic.Function.Basic
import Mathlib.Data.List.Induction

/-!
# Runs of a labelled transition relation

A run is a sequence of labelled steps.
-/

namespace CodexStudy.Lib

open List Function

section

variable {σ α : Type} {step : σ → α → σ → Prop}

/-- `Run step s as s'`: the steps with the labels `as`, taken in order, lead from `s` to `s'`. -/
inductive Run (step : σ → α → σ → Prop) : σ → List α → σ → Prop where
  | nil (s : σ) : Run step s [] s
  | cons {s s₁ s' : σ} {a : α} {as : List α} : step s a s₁ → Run step s₁ as s' → Run step s (a :: as) s'

/-- The steps of `step` whose label and state before meet `G`. -/
def Guarded (G : σ → α → Prop) (step : σ → α → σ → Prop) (s : σ) (a : α) (s' : σ) : Prop :=
  G s a ∧ step s a s'

/-- `P` holds in every state that the run of `as` from `s` passes through. -/
def StatesMeet (step : σ → α → σ → Prop) (P : σ → Prop) (s : σ) (as : List α) : Prop :=
  ∀ as₁ s₁, as₁ <+: as → Run step s as₁ s₁ → P s₁

/-- `G` holds of the label and of the state before each step of the run of `as` from `s`. -/
def StepsMeet (step : σ → α → σ → Prop) (G : σ → α → Prop) (s : σ) (as : List α) : Prop :=
  ∀ as₁ a s₁ s₂, as₁ ++ [a] <+: as → Run step s as₁ s₁ → step s₁ a s₂ → G s₁ a

namespace Run

variable {s s' : σ} {as : List α}

theorem single {a : α} (h : step s a s') : Run step s [a] s' := .cons h (.nil s')

theorem append {s₁ : σ} {bs : List α} (h₁ : Run step s as s₁) (h₂ : Run step s₁ bs s') : Run step s (as ++ bs) s' := by
  induction h₁ with
  | nil s => exact h₂
  | cons hs _ ih => exact .cons hs (ih h₂)

theorem append_inv {bs : List α} (h : Run step s (as ++ bs) s') : ∃ s₁, Run step s as s₁ ∧ Run step s₁ bs s' := by
  induction as generalizing s with
  | nil => exact ⟨s, .nil s, h⟩
  | cons a as ih =>
      cases h with
      | cons hs h =>
          obtain ⟨s₁, h₁, h₂⟩ := ih h
          exact ⟨s₁, .cons hs h₁, h₂⟩

theorem single_inv {a : α} (h : Run step s [a] s') : step s a s' := by
  cases h with
  | cons hs h => cases h; exact hs

/-- What holds at the start and is kept by every step holds at the end of every run. -/
theorem invariant {I : σ → Prop} (h : Run step s as s') (h₀ : I s)
    (hstep : ∀ s a s', I s → step s a s' → I s') : I s' := by
  induction h with
  | nil s => exact h₀
  | cons hs _ ih => exact ih (hstep _ _ _ h₀ hs)

/-- What holds at the start and is kept by the steps with the labels of the run holds at its end. -/
theorem invariant_of_mem {I : σ → Prop} (h : Run step s as s') (h₀ : I s)
    (hstep : ∀ s a s', a ∈ as → I s → step s a s' → I s') : I s' := by
  induction h with
  | nil s => exact h₀
  | cons hs _ ih =>
      refine ih (hstep _ _ _ mem_cons_self h₀ hs) fun s a s' ha => ?_
      exact hstep s a s' (mem_cons_of_mem _ ha)

theorem of_foldlM {f : σ → α → Option σ} (h : as.foldlM f s = some s') :
    Run (fun s a s' => f s a = some s') s as s' := by
  induction as generalizing s with
  | nil =>
      rw [foldlM_nil] at h
      cases h
      exact .nil _
  | cons a as ih =>
      rw [foldlM_cons] at h
      obtain ⟨s₁, hstep, h⟩ := Option.bind_eq_some_iff.mp h
      exact .cons hstep (ih h)

end Run

variable {s : σ} {G : σ → α → Prop} {as : List α}

theorem stepsMeet_nil : StepsMeet step G s [] := by
  intro as₁ a s₁ s₂ hpre
  simp at hpre

theorem stepsMeet_cons {a : α}
    (h : ∀ s₁, step s a s₁ → G s a ∧ StepsMeet step G s₁ as) : StepsMeet step G s (a :: as) := by
  intro as₁ b s₁ s₂ hpre hrun hs
  cases hrun with
  | nil =>
      obtain rfl : b = a := by simpa using hpre
      exact (h s₂ hs).1
  | cons hs₁ hrun =>
      rw [cons_append, cons_prefix_cons] at hpre
      obtain ⟨rfl, hpre⟩ := hpre
      exact (h _ hs₁).2 _ b s₁ s₂ hpre hrun hs

theorem stepsMeet_cons_iff {f : σ → α → σ} {a : α} : StepsMeet (fun s a s' => f s a = s') G s (a :: as) ↔
      G s a ∧ StepsMeet (fun s a s' => f s a = s') G (f s a) as := by
  constructor
  · intro h
    refine ⟨h [] a s _ ((prefix_append [a] as)) (.nil s) rfl, fun as₁ b s₁ s₂ hpre hrun hs => ?_⟩
    exact h (a :: as₁) b s₁ s₂ ((prefix_cons_inj a).mpr hpre) (.cons rfl hrun) hs
  · rintro ⟨hG, h⟩
    exact stepsMeet_cons fun s₁ hs => ⟨hG, hs ▸ h⟩

theorem stepsMeet_of_foldlM {f : σ → α → Option σ} {check : σ → α → Bool} {s' : σ}
    (hck : ∀ s a, check s a = true → G s a) (h : as.foldlM (fun s a => if check s a then f s a else none) s = some s') :
    StepsMeet (fun s a s' => f s a = some s') G s as := by
  induction as generalizing s with
  | nil => exact stepsMeet_nil
  | cons a as ih =>
      rw [foldlM_cons] at h
      obtain ⟨s₁, hstep, h⟩ := Option.bind_eq_some_iff.mp h
      split at hstep
      next hpass =>
        refine stepsMeet_cons fun s₂ hs₂ => ?_
        obtain rfl : s₁ = s₂ := Option.some.inj (hstep.symm.trans hs₂)
        exact ⟨hck s a hpass, ih h⟩
      next => cases hstep

theorem statesMeet_of_stepsMeet {I : σ → Prop} (hI₀ : I s) (hI : ∀ s a s', I s → G s a → step s a s' → I s')
    (h : StepsMeet step G s as) : StatesMeet step I s as := by
  intro as₁ s₁ hpre hrun
  -- The invariant is carried along the prefix `as₁`, one step at its end at a time.
  induction as₁ using reverseRecOn generalizing s₁ with
  | nil => cases hrun; exact hI₀
  | append_singleton bs a ih =>
      obtain ⟨s₂, h₂, h₁⟩ := hrun.append_inv
      have hbs : bs <+: as := (prefix_append bs [a]).trans hpre
      exact hI s₂ a s₁ (ih s₂ hbs h₂) (h bs a s₂ s₁ hpre h₂ h₁.single_inv) h₁.single_inv

theorem statesMeet_iff_stepsMeet {I J P : σ → Prop} (as : List α) (hI₀ : I s)
    (hI : ∀ s a s', I s → G s a → step s a s' → I s') (hP : ∀ s, I s → P s) (hJ₀ : J s)
    (hJ : ∀ s a s', J s → step s a s' → J s') (hG : ∀ s a s', J s → P s → step s a s' → P s' → G s a) :
    StatesMeet step P s as ↔ StepsMeet step G s as := by
  constructor
  · intro h as₁ a s₁ s₂ hpre hrun hs
    have hJ₁ : J s₁ := hrun.invariant hJ₀ hJ
    have hP₁ : P s₁ := h as₁ s₁ ((prefix_append as₁ [a]).trans hpre) hrun
    exact hG s₁ a s₂ hJ₁ hP₁ hs (h (as₁ ++ [a]) s₂ hpre (hrun.append (.single hs)))
  · exact fun h as₁ s₁ hpre hrun => hP s₁ (statesMeet_of_stepsMeet hI₀ hI h as₁ s₁ hpre hrun)

end

/-! ## Tasks that share a state -/

section

variable {σ φ α : Type}

structure Tasks (σ φ : Type) where
  shared : σ
  task : Nat → φ

namespace Tasks

variable (f : Nat → σ → φ → α → Option (σ × φ))

def advance (s : Tasks σ φ) (a : Nat × α) : Option (Tasks σ φ) :=
  (f a.1 s.shared (s.task a.1) a.2).map fun moved => ⟨moved.1, update s.task a.1 moved.2⟩

def Move (s : Tasks σ φ) (a : Nat × α) (s' : Tasks σ φ) : Prop := s.advance f a = some s'

structure Keeps (Shared : σ → Prop) (Own : Nat → σ → φ → Prop) (Apart : φ → φ → Prop) (s : Tasks σ φ) : Prop where
  shared : Shared s.shared
  own : ∀ t, Own t s.shared (s.task t)
  apart : ∀ t u, t ≠ u → Apart (s.task t) (s.task u)

variable {f} {s s' : Tasks σ φ} {a : Nat × α}

theorem move_iff : Move f s a s' ↔ ∃ shared phase, f a.1 s.shared (s.task a.1) a.2 = some (shared, phase) ∧
      s' = ⟨shared, update s.task a.1 phase⟩ := by
  unfold Move advance
  rw [Option.map_eq_some_iff]
  constructor
  · rintro ⟨⟨shared, phase⟩, hf, rfl⟩
    exact ⟨shared, phase, hf, rfl⟩
  · rintro ⟨shared, phase, hf, rfl⟩
    exact ⟨(shared, phase), hf, rfl⟩

theorem move_of_eq {t : Nat} {step : α} {phase phase' : φ} {shared : σ} (hph : s.task t = phase)
    (h : f t s.shared phase step = some (shared, phase')) : Move f s (t, step) ⟨shared, update s.task t phase'⟩ :=
  move_iff.mpr ⟨shared, phase', hph ▸ h, rfl⟩

theorem Keeps.of_move {Shared : σ → Prop} {Own : Nat → σ → φ → Prop} {Apart : φ → φ → Prop}
    (h : Keeps Shared Own Apart s) (hsymm : ∀ p q, Apart p q → Apart q p) (hmove : Move f s a s')
    (hstep : ∀ shared phase, f a.1 s.shared (s.task a.1) a.2 = some (shared, phase) →
      Shared shared ∧ Own a.1 shared phase ∧ ∀ u, u ≠ a.1 → Own u shared (s.task u) ∧ Apart phase (s.task u)) :
    Keeps Shared Own Apart s' := by
  obtain ⟨shared, phase, hf, rfl⟩ := move_iff.mp hmove
  obtain ⟨hshared, hown, hoth⟩ := hstep shared phase hf
  constructor
  · exact hshared
  · intro t
    by_cases ht : t = a.1
    · subst ht
      simpa only [update_self] using hown
    · simpa only [update_of_ne ht] using (hoth t ht).1
  · intro t u hne
    by_cases ht : t = a.1
    · subst ht
      simpa only [update_self, update_of_ne (Ne.symm hne)] using (hoth u (Ne.symm hne)).2
    · by_cases hu : u = a.1
      · subst hu
        simpa only [update_self, update_of_ne ht] using hsymm _ _ (hoth t ht).2
      · simpa only [update_of_ne ht, update_of_ne hu] using h.apart t u hne

/-! ## How many tasks there are of a kind -/

variable {idle : φ} {p : φ → Bool}

noncomputable def count (p : φ → Bool) (s : Tasks σ φ) : Nat := {t | p (s.task t) = true}.ncard

def FewBusy (idle : φ) (s : Tasks σ φ) : Prop := {t | s.task t ≠ idle}.Finite

theorem fewBusy_of_idle (h : ∀ t, s.task t = idle) : FewBusy idle s := by
  simp [FewBusy, h]

theorem count_of_idle (h : ∀ t, s.task t = idle) (hp : p idle = false) : count p s = 0 := by
  simp [count, h, hp]

theorem FewBusy.update (h : FewBusy idle s) (shared : σ) (t : Nat) (phase : φ) :
    FewBusy idle ⟨shared, update s.task t phase⟩ := by
  apply (h.insert t).subset
  intro u hu
  by_cases hut : u = t
  · exact .inl hut
  · exact .inr (by simpa [update_of_ne hut] using hu)

theorem count_eq (h : FewBusy idle s) (hp : p idle = false) (t : Nat) :
    count p s = ({u | p (s.task u) = true} \ {t}).ncard + (p (s.task t)).toNat := by
  have hfinite : {u | p (s.task u) = true}.Finite := by
    apply h.subset
    intro u hu hidle
    rw [Set.mem_ofPred_eq, hidle, hp] at hu
    cases hu
  cases ht : p (s.task t) with
  | false =>
      have hnot : t ∉ {u | p (s.task u) = true} := by simp [ht]
      rw [Set.sdiff_singleton_eq_self hnot]
      rfl
  | true =>
      have hmem : t ∈ {u | p (s.task u) = true} := ht
      exact (Set.ncard_sdiff_singleton_add_one hmem hfinite).symm

theorem count_update (h : FewBusy idle s) (hp : p idle = false) (shared : σ) (t : Nat) (phase : φ) :
    count p ⟨shared, update s.task t phase⟩ + (p (s.task t)).toNat = count p s + (p phase).toNat := by
  have hothers : {u | p (update s.task t phase u) = true} \ {t} = {u | p (s.task u) = true} \ {t} := by
    ext u
    by_cases hut : u = t
    · simp [hut]
    · simp [hut, update_of_ne]
  rw [count_eq (h.update shared t phase) hp t, count_eq h hp t]
  simp only [hothers, update_self]
  omega

end Tasks

end

end CodexStudy.Lib
