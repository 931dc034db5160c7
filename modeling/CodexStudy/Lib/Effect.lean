import Mathlib.Data.List.Infix
import Mathlib.Order.Defs.Unbundled

/-!
# Fallible computations over a state

A computation reads and writes a state and may stop with an error.
-/

namespace CodexStudy.Lib

open List

theorem except_bind_eq_ok {ε α β : Type} {x : Except ε α} {f : α → Except ε β} {b : β} :
    (x >>= f) = .ok b ↔ ∃ a, x = .ok a ∧ f a = .ok b := by
  cases x with
  | error e =>
      constructor
      · intro h; cases h
      · rintro ⟨_, h, _⟩; cases h
  | ok a =>
      constructor
      · intro h; exact ⟨a, rfl, h⟩
      · rintro ⟨_, h, hf⟩; cases h; exact hf

/-- A computation over the state `σ` that returns an `α` or stops with an `ε`. -/
def Eff (ε σ α : Type) : Type := σ → Except ε α × σ

namespace Eff

variable {ε σ α β : Type}

instance : Monad (Eff ε σ) where
  pure a := fun s => (.ok a, s)
  bind x f := fun s =>
    match x s with
    | (.ok a, s') => f a s'
    | (.error e, s') => (.error e, s')

def fail (e : ε) : Eff ε σ α := fun s => (.error e, s)

def read : Eff ε σ σ := fun s => (.ok s, s)

def modify (f : σ → σ) : Eff ε σ Unit := fun s => (.ok (), f s)

def lift (r : Except ε α) : Eff ε σ α := fun s => (r, s)

def check (c : Bool) (e : ε) : Eff ε σ Unit := if c then pure () else fail e

def ensuring (x : Eff ε σ α) (cleanup : σ → σ) : Eff ε σ α := fun s => ((x s).1, cleanup (x s).2)

/-- Run the body on each element in turn and collect what it returns. -/
def each (body : α → Eff ε σ β) : List α → Eff ε σ (List β)
  | [] => pure []
  | a :: as => do
      let b ← body a
      let bs ← each body as
      return b :: bs

@[simp] theorem pure_apply (a : α) (s : σ) : (pure a : Eff ε σ α) s = (.ok a, s) := rfl

@[simp] theorem fail_apply (e : ε) (s : σ) : (fail e : Eff ε σ α) s = (.error e, s) := rfl

@[simp] theorem read_apply (s : σ) : (read : Eff ε σ σ) s = (.ok s, s) := rfl

@[simp] theorem modify_apply (f : σ → σ) (s : σ) : (modify f : Eff ε σ Unit) s = (.ok (), f s) := rfl

@[simp] theorem lift_apply (r : Except ε α) (s : σ) : (lift r : Eff ε σ α) s = (r, s) := rfl

theorem bind_apply (x : Eff ε σ α) (f : α → Eff ε σ β) (s : σ) :
    (x >>= f) s = match x s with
      | (.ok a, s') => f a s'
      | (.error e, s') => (.error e, s') := rfl

variable {f body : α → Eff ε σ β} {s' s : σ} {x : Eff ε σ α} {γ : Type}

theorem bind_of_ok {a : α} (h : x s = (.ok a, s')) : (x >>= f) s = f a s' := by
  rw [bind_apply, h]

theorem bind_of_error {e : ε} (h : x s = (.error e, s')) : (x >>= f) s = (.error e, s') := by
  rw [bind_apply, h]

@[simp] theorem pure_bind (a : α) (f : α → Eff ε σ β) : ((pure a : Eff ε σ α) >>= f) = f a := rfl

@[simp] theorem modify_bind_apply (g : σ → σ) (f : Unit → Eff ε σ β) (s : σ) :
    ((modify g : Eff ε σ Unit) >>= f) s = f () (g s) := rfl

@[simp] theorem read_bind_apply (f : σ → Eff ε σ β) (s : σ) : ((read : Eff ε σ σ) >>= f) s = f s s := rfl

@[simp] theorem lift_ok_bind (a : α) (f : α → Eff ε σ β) : ((lift (.ok a) : Eff ε σ α) >>= f) = f a := rfl

@[simp] theorem check_true_bind (e : ε) (f : Unit → Eff ε σ β) : ((check true e : Eff ε σ Unit) >>= f) = f () := rfl

theorem bind_assoc (x : Eff ε σ α) (f : α → Eff ε σ β) (g : β → Eff ε σ γ) :
    ((x >>= f) >>= g) = (x >>= fun a => f a >>= g) := by
  funext s
  rcases hx : x s with ⟨e | a, s'⟩
  · rw [bind_of_error hx, bind_of_error (bind_of_error hx)]
  · rw [bind_of_ok hx, bind_apply, bind_of_ok hx, bind_apply]

theorem each_append_bind (body : α → Eff ε σ β) (as bs : List α) (k : Eff ε σ γ) :
    (each body (as ++ bs) >>= fun _ => k) = (each body as >>= fun _ => each body bs >>= fun _ => k) := by
  induction as with
  | nil => rfl
  | cons a as ih =>
      have hskip : ∀ bs : List α, (each body (a :: bs) >>= fun _ => k) =
          (body a >>= fun _ => each body bs >>= fun _ => k) := by
        intro bs
        rw [each, bind_assoc]
        simp only [bind_assoc, pure_bind]
      rw [cons_append, hskip, ih, each, bind_assoc]
      simp only [bind_assoc, pure_bind]

theorem each_eq_pure {g : α → β} {as : List α} (h : ∀ a ∈ as, body a = pure (g a)) :
    each body as = pure (as.map g) := by
  induction as with
  | nil => rfl
  | cons a as ih =>
      rw [each, h a mem_cons_self, ih fun a' ha' => h a' (mem_cons_of_mem _ ha')]
      rfl

theorem each_state_of_ok {a : α} {as : List α} {b : β} {s₁ : σ} (h : body a s = (.ok b, s₁)) :
    (each body (a :: as) s).2 = (each body as s₁).2 := by
  rw [each, bind_of_ok h, bind_apply]
  rcases each body as s₁ with ⟨_ | bs, s₂⟩ <;> rfl

theorem each_returns (h : ∀ a s, ∃ b, body a s = (.ok b, (body a s).2)) (as : List α) (s : σ) :
    ∃ bs, each body as s = (.ok bs, (each body as s).2) := by
  induction as generalizing s with
  | nil => exact ⟨[], rfl⟩
  | cons a as ih =>
      obtain ⟨b, hbody⟩ := h a s
      obtain ⟨bs, hrest⟩ := ih (body a s).2
      refine ⟨b :: bs, ?_⟩
      rw [each, bind_of_ok hbody, bind_of_ok hrest]
      rfl

/-! ## Runs that return -/

theorem bind_eq_ok {b : β} : (x >>= f) s = (.ok b, s') ↔ ∃ a s₁, x s = (.ok a, s₁) ∧ f a s₁ = (.ok b, s') := by
  rw [bind_apply]
  constructor
  · intro h
    rcases hx : x s with ⟨_ | a, s₁⟩
    · simp [hx] at h
    · rw [hx] at h; exact ⟨a, s₁, rfl, h⟩
  · rintro ⟨a, s₁, hx, hf⟩
    rw [hx]; exact hf

theorem each_map_eq {body : α → Eff ε σ α} {f : α → γ} (hbody : ∀ a b s s', body a s = (.ok b, s') → f b = f a)
    {as bs : List α} (h : each body as s = (.ok bs, s')) : bs.map f = as.map f := by
  induction as generalizing s bs with
  | nil => cases h; rfl
  | cons a as ih =>
      obtain ⟨b, s₁, h₁, h⟩ := bind_eq_ok.mp h
      obtain ⟨bs', s₂, h₂, h⟩ := bind_eq_ok.mp h
      cases h
      rw [map_cons, map_cons, hbody a b s s₁ h₁, ih h₂]

theorem each_forall {P : α → Prop} (hbody : ∀ a b s s', body a s = (.ok b, s') → P a) {as : List α} {bs : List β}
    (h : each body as s = (.ok bs, s')) : ∀ a ∈ as, P a := by
  induction as generalizing s s' bs with
  | nil => intro a ha; cases ha
  | cons a as ih =>
      obtain ⟨b, s₁, h₁, h⟩ := bind_eq_ok.mp h
      obtain ⟨bs', s₂, h₂, -⟩ := bind_eq_ok.mp h
      exact forall_mem_cons.mpr ⟨hbody a b s s₁ h₁, ih h₂⟩

/-! ## Relations between the state before and the state after -/

/-- Every run of `x`, also one that fails, relates the state before it to the state after it by `R`. -/
def Respects (R : σ → σ → Prop) (x : Eff ε σ α) : Prop := ∀ s, R s (x s).2

section Respects

variable {R : σ → σ → Prop}

theorem respects_pure [Std.Refl R] (a : α) : Respects R (pure a : Eff ε σ α) := fun s => Std.Refl.refl s

theorem respects_fail [Std.Refl R] (e : ε) : Respects R (fail e : Eff ε σ α) := fun s => Std.Refl.refl s

theorem respects_read [Std.Refl R] : Respects R (read : Eff ε σ σ) := fun s => Std.Refl.refl s

theorem respects_lift [Std.Refl R] (r : Except ε α) : Respects R (lift r : Eff ε σ α) :=
  fun s => Std.Refl.refl s

theorem respects_check [Std.Refl R] (c : Bool) (e : ε) : Respects R (check c e : Eff ε σ Unit) := by
  unfold check
  split
  · exact respects_pure ()
  · exact respects_fail e

theorem Respects.ensuring [IsTrans σ R] {cleanup : σ → σ} (hx : Respects R x)
    (hc : ∀ s, R s (cleanup s)) : Respects R (x.ensuring cleanup) :=
  fun s => IsTrans.trans _ _ _ (hx s) (hc _)

theorem respects_modify {f : σ → σ} (h : ∀ s, R s (f s)) : Respects R (modify f : Eff ε σ Unit) := h

theorem Respects.bind [IsTrans σ R] (hx : Respects R x) (hf : ∀ a, Respects R (f a)) : Respects R (x >>= f) := by
  intro s
  have h₁ := hx s
  rw [bind_apply]
  rcases h : x s with ⟨_ | a, s₁⟩
  · simpa [h] using h₁
  · rw [h] at h₁; exact IsTrans.trans _ _ _ h₁ (hf a s₁)

theorem Respects.each [Std.Refl R] [IsTrans σ R] {as : List α}
    (h : ∀ a ∈ as, Respects R (body a)) : Respects R (each body as) := by
  induction as with
  | nil => exact respects_pure []
  | cons a as ih =>
      refine Respects.bind (h a mem_cons_self) fun b => ?_
      exact Respects.bind (ih fun a' ha' => h a' (mem_cons_of_mem _ ha')) fun bs => respects_pure _

end Respects

/-! ## What holds after a run -/

def Post (s : σ) (x : Eff ε σ α) (Q : Except ε α → σ → Prop) : Prop := Q (x s).1 (x s).2

section Post

variable {s : σ} {Q : Except ε β → σ → Prop}

theorem post_iff {x : Eff ε σ β} : Post s x Q ↔ ∀ r s', x s = (r, s') → Q r s' := by
  constructor
  · rintro h r s' hx
    simpa only [Post, hx] using h
  · intro h
    exact h _ _ rfl

theorem post_bind (herr : ∀ e s', x s = (.error e, s') → Q (.error e) s')
    (hok : ∀ a s', x s = (.ok a, s') → Post s' (f a) Q) : Post s (x >>= f) Q := by
  unfold Post
  rw [bind_apply]
  rcases h : x s with ⟨_ | a, s'⟩
  · exact herr _ s' h
  · exact hok a s' h

theorem post_read {f : σ → Eff ε σ β} (h : Post s (f s) Q) : Post s (read >>= f) Q := h

theorem post_modify {g : σ → σ} {f : Unit → Eff ε σ β} (h : Post (g s) (f ()) Q) :
    Post s (modify g >>= f) Q := h

theorem post_check {c : Bool} {e : ε} {f : Unit → Eff ε σ β} (herr : c = false → Q (.error e) s)
    (hok : c = true → Post s (f ()) Q) : Post s (check c e >>= f) Q := by
  cases c with
  | false => exact herr rfl
  | true => exact hok rfl

theorem post_lift {r : Except ε α} (herr : ∀ e, r = .error e → Q (.error e) s)
    (hok : ∀ a, r = .ok a → Post s (f a) Q) : Post s (lift r >>= f) Q := by
  cases r with
  | error e => exact herr e rfl
  | ok a => exact hok a rfl

end Post

/-! ## Forgetting a part of the state -/

/-- The computation `y` does what `x` does on the part of the state that `π` keeps. -/
def Forgets {τ : Type} (π : σ → τ) (x : Eff ε σ α) (y : Eff ε τ α) : Prop := ∀ s, y (π s) = ((x s).1, π (x s).2)

section Forgets

variable {τ : Type} {π : σ → τ}

theorem forgets_pure (a : α) : Forgets π (pure a : Eff ε σ α) (pure a) := fun _ => rfl

theorem forgets_fail (e : ε) : Forgets π (fail e : Eff ε σ α) (fail e) := fun _ => rfl

theorem forgets_modify {f : σ → σ} {g : τ → τ} (h : ∀ s, g (π s) = π (f s)) :
    Forgets π (modify f : Eff ε σ Unit) (modify g) := by
  intro s
  rw [modify_apply, modify_apply, h]

theorem forgets_read_bind {f : σ → Eff ε σ α} {g : τ → Eff ε τ α} (h : ∀ s, Forgets π (f s) (g (π s))) :
    Forgets π (read >>= f) (read >>= g) := fun s => h s s

theorem Forgets.bind {y : Eff ε τ α} {g : α → Eff ε τ β}
    (hx : Forgets π x y) (hf : ∀ a, Forgets π (f a) (g a)) : Forgets π (x >>= f) (y >>= g) := by
  intro s
  rw [bind_apply, bind_apply, hx s]
  rcases x s with ⟨_ | a, s'⟩
  · rfl
  · exact hf a s'

theorem Forgets.each {body' : α → Eff ε τ β} (h : ∀ a, Forgets π (body a) (body' a))
    (as : List α) : Forgets π (each body as) (each body' as) := by
  induction as with
  | nil => exact forgets_pure []
  | cons a as ih => exact (h a).bind fun b => ih.bind fun bs => forgets_pure _

end Forgets

/-! ## Refinement -/

/-- From `s`, `x` does what `y` does on the abstraction of the states by `π`, and leaves a state with `I`. -/
def Refines {τ : Type} (I : σ → Prop) (π : σ → τ) (s : σ) (x : Eff ε σ α) (y : Eff ε τ α) : Prop :=
  y (π s) = ((x s).1, π (x s).2) ∧ I (x s).2

section Refines

variable {τ α' : Type} {I : σ → Prop} {π : σ → τ} {s : σ} {x : Eff ε σ α} {y : Eff ε τ α} {f : α → Eff ε σ β}
  {g : α → Eff ε τ β}

theorem refines_pure (hs : I s) (a : α) : Refines I π s (pure a : Eff ε σ α) (pure a) := ⟨rfl, hs⟩

theorem refines_fail (hs : I s) (e : ε) : Refines I π s (fail e : Eff ε σ α) (fail e) := ⟨rfl, hs⟩

theorem refines_check (hs : I s) (c : Bool) (e : ε) : Refines I π s (check c e) (check c e) := by
  unfold check
  split
  · exact refines_pure hs ()
  · exact refines_fail hs e

theorem refines_modify {h : σ → σ} {h' : τ → τ} (hπ : h' (π s) = π (h s)) (hs : I (h s)) :
    Refines I π s (modify h : Eff ε σ Unit) (modify h') := ⟨congrArg _ hπ, hs⟩

theorem refines_lift {r r' : Except ε α} (hs : I s) (h : r' = r) : Refines I π s (lift r) (lift r') := by
  subst h
  exact ⟨rfl, hs⟩

theorem refines_read_bind {f : σ → Eff ε σ α} {g : τ → Eff ε τ α} (h : Refines I π s (f s) (g (π s))) :
    Refines I π s (read >>= f) (read >>= g) := h

theorem refines_lift_bind {r : Except ε α} {r' : Except ε α'} {g : α' → Eff ε τ β}
    (hs : I s) (herr : ∀ e, r = .error e → r' = .error e)
    (hok : ∀ a, r = .ok a → ∃ b, r' = .ok b ∧ Refines I π s (f a) (g b)) :
    Refines I π s (lift r >>= f) (lift r' >>= g) := by
  cases r with
  | error e =>
      rw [herr e rfl]
      exact ⟨rfl, hs⟩
  | ok a =>
      obtain ⟨b, rfl, h⟩ := hok a rfl
      exact h

theorem Refines.bind (hx : Refines I π s x y) (hf : ∀ a s', x s = (.ok a, s') → I s' → Refines I π s' (f a) (g a)) :
    Refines I π s (x >>= f) (y >>= g) := by
  obtain ⟨heq, hs'⟩ := hx
  unfold Refines
  rw [bind_apply, bind_apply, heq]
  rcases hrun : x s with ⟨e | a, s'⟩
  · exact ⟨rfl, by rwa [hrun] at hs'⟩
  · exact hf a s' hrun (by rwa [hrun] at hs')

theorem refines_each {body' : α → Eff ε τ β} {as : List α} (hs : I s)
    (h : ∀ a ∈ as, ∀ s, I s → Refines I π s (body a) (body' a)) : Refines I π s (each body as) (each body' as) := by
  induction as generalizing s with
  | nil => exact refines_pure hs []
  | cons a as ih =>
      refine (h a mem_cons_self s hs).bind fun b s₁ _ hs₁ => ?_
      refine (ih hs₁ fun a ha => h a (mem_cons_of_mem _ ha)).bind fun bs s₂ _ hs₂ => ?_
      exact refines_pure hs₂ _

theorem Refines.ensuring {cleanup : σ → σ} {cleanup' : τ → τ} (hx : Refines I π s x y)
    (hπ : ∀ s, cleanup' (π s) = π (cleanup s)) (hI : ∀ s, I s → I (cleanup s)) :
    Refines I π s (x.ensuring cleanup) (y.ensuring cleanup') := by
  obtain ⟨heq, hs'⟩ := hx
  refine ⟨?_, hI _ hs'⟩
  unfold Eff.ensuring
  rw [heq, hπ]

end Refines

end Eff

/-! ## Computations that keep a log -/

section

/-- A world with the events that have been written, the oldest first. -/
structure Logged (ω η : Type) where
  world : ω
  log : List η := []

variable {ε ω η α β : Type}

/-- Each of the events `new` is allowed after `old` and the events before it. -/
def AllowedAfter (I : List η → η → Prop) : List η → List η → Prop
  | _, [] => True
  | old, e :: new => I old e ∧ AllowedAfter I (old ++ [e]) new

variable {I : List η → η → Prop}

theorem allowedAfter_append {old xs ys : List η} :
    AllowedAfter I old (xs ++ ys) ↔ AllowedAfter I old xs ∧ AllowedAfter I (old ++ xs) ys := by
  induction xs generalizing old with
  | nil => simp [AllowedAfter]
  | cons x xs ih => simp [AllowedAfter, ih, and_assoc]

theorem AllowedAfter.split {old before after : List η} {e : η} (h : AllowedAfter I old (before ++ e :: after)) :
    I (old ++ before) e := by
  rw [allowedAfter_append] at h
  exact h.2.1

namespace Logged

/-- Between the two states only allowed events have been written. -/
def Writes (I : List η → η → Prop) (s s' : Logged ω η) : Prop :=
  ∃ new, s'.log = s.log ++ new ∧ AllowedAfter I s.log new

theorem Writes.refl (s : Logged ω η) : Writes I s s := ⟨[], by simp, trivial⟩

theorem Writes.trans {s s₁ s' : Logged ω η} (h : Writes I s s₁) (h' : Writes I s₁ s') : Writes I s s' := by
  obtain ⟨new, hlog, hnew⟩ := h
  obtain ⟨new', hlog', hnew'⟩ := h'
  refine ⟨new ++ new', by rw [hlog', hlog, append_assoc], ?_⟩
  rw [allowedAfter_append, ← hlog]
  exact ⟨hnew, hnew'⟩

theorem Writes.subset {s s' : Logged ω η} (h : Writes I s s') : s.log ⊆ s'.log := by
  obtain ⟨new, hlog, -⟩ := h
  rw [hlog]
  exact subset_append_left _ _

def Ensures (I : List η → η → Prop) (s : Logged ω η) (x : Eff ε (Logged ω η) α) (Q : α → Logged ω η → Prop) : Prop :=
  Eff.Post s x fun r s' => Writes I s s' ∧ ∀ a, r = .ok a → Q a s'

section Ensures

variable {s : Logged ω η}

variable {Q : α → Logged ω η → Prop} {x : Eff ε (Logged ω η) α}

theorem ensures_pure {a : α} (h : Q a s) : Ensures I s (pure a : Eff ε (Logged ω η) α) Q := by
  refine ⟨Writes.refl s, ?_⟩
  rintro b hb
  cases hb
  exact h

theorem ensures_fail {e : ε} : Ensures I s (Eff.fail e : Eff ε (Logged ω η) α) Q :=
  ⟨Writes.refl s, fun _ h => by cases h⟩

theorem Ensures.bind {f : α → Eff ε (Logged ω η) β} {R : β → Logged ω η → Prop} (hx : Ensures I s x Q)
    (hf : ∀ a s', Writes I s s' → Q a s' → Ensures I s' (f a) R) : Ensures I s (x >>= f) R := by
  refine Eff.post_bind (fun e s' h => ?_) (fun a s' h => ?_)
  · have hw : Writes I s s' := by simpa only [h] using hx.1
    exact ⟨hw, fun _ h => by cases h⟩
  · have hw : Writes I s s' := by simpa only [h] using hx.1
    have hq : Q a s' := by simpa only [h] using hx.2 a (by rw [h])
    obtain ⟨hw', hr⟩ := hf a s' hw hq
    exact ⟨hw.trans hw', hr⟩

theorem Ensures.mono {R : α → Logged ω η → Prop} (hx : Ensures I s x Q)
    (h : ∀ a s', Writes I s s' → Q a s' → R a s') : Ensures I s x R :=
  ⟨hx.1, fun a ha => h a _ hx.1 (hx.2 a ha)⟩

theorem ensures_event {e : η} (hlog : (x s).2.log = s.log ++ [e]) (he : I s.log e)
    (hq : ∀ a, (x s).1 = .ok a → Q a (x s).2) : Ensures I s x Q :=
  ⟨⟨[e], hlog, he, trivial⟩, hq⟩

theorem ensures_silent (hlog : (x s).2.log = s.log) (hq : ∀ a, (x s).1 = .ok a → Q a (x s).2) : Ensures I s x Q :=
  ⟨⟨[], by rw [hlog, append_nil], trivial⟩, hq⟩

end Ensures

end Logged

end

end CodexStudy.Lib
