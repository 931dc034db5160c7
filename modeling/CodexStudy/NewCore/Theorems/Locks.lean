import CodexStudy.Lib.Transition
import CodexStudy.NewCore.Lemmas.Merge

/-!
# Who holds a lock

The look for a lock file and its creation are two steps, and `File::create` truncates a file that exists.
-/

namespace CodexStudy.NewCore

open CodexStudy.Lib List Function

/-! ## Lock files (`recovery.rs`) -/

section

variable {Pid : Type} [DecidableEq Pid]

inductive Lock where
  | merge (taskId : String)
  | path (relative : RelPath)
  deriving DecidableEq, Repr

def Lock.file : Lock → Text
  | .merge taskId => mergeLockName taskId
  | .path relative => pathLockName relative

def Lock.line : Lock → Text
  | .merge taskId => taskId.toList ++ ['\n']
  | .path relative => relative.render ++ ['\n']

/-- The lock that a process is about to create the file of, and the guards that it holds. -/
structure Process where
  pending : Option Lock
  held : List Lock

structure LockState (Pid : Type) where
  files : Text → Option Text
  procs : Pid → Process

inductive LockAction (Pid : Type) where
  /-- The call of `exists`. -/
  | check (p : Pid) (l : Lock)
  /-- The call of `File::create`; it returns the guard, or fails. -/
  | create (p : Pid) (succeeds : Bool)
  /-- The guard is dropped, and the file removed. -/
  | drop (p : Pid) (l : Lock)

namespace LockState

def start (files : Text → Option Text) : LockState Pid := ⟨files, fun _ => ⟨none, []⟩⟩

def setProc (s : LockState Pid) (p : Pid) (proc : Process) : LockState Pid :=
  { s with procs := update s.procs p proc }

def setFile (s : LockState Pid) (name : Text) (content : Option Text) : LockState Pid :=
  { s with files := update s.files name content }

/-- The state after an action that the process can take. One about to create a file does nothing else before. -/
def step (s : LockState Pid) : LockAction Pid → Option (LockState Pid)
  | .check p l =>
      match (s.procs p).pending with
      | some _ => none
      | none =>
          if (s.files l.file).isSome then some s
          else some (s.setProc p { (s.procs p) with pending := some l })
  | .create p succeeds =>
      match (s.procs p).pending with
      | none => none
      | some l =>
          if succeeds then
            some ((s.setFile l.file (some l.line)).setProc p ⟨none, l :: (s.procs p).held⟩)
          else some (s.setProc p { (s.procs p) with pending := none })
  | .drop p l =>
      match (s.procs p).pending with
      | some _ => none
      | none =>
          if l ∈ (s.procs p).held then
            some ((s.setFile l.file none).setProc p ⟨none, (s.procs p).held.erase l⟩)
          else none

end LockState

def LockStep (s : LockState Pid) (a : LockAction Pid) (s' : LockState Pid) : Prop := s.step a = some s'

end

variable {Pid : Type} {s s' : LockState Pid} {p q : Pid} {l l' : Lock}

/-- The guards that a process holds. -/
def Holds (s : LockState Pid) (p : Pid) (l : Lock) : Prop := l ∈ (s.procs p).held

instance (s : LockState Pid) (p : Pid) (l : Lock) : Decidable (Holds s p l) := inferInstanceAs (Decidable (_ ∈ _))

/-- A process that creates a lock file finds none in its place. -/
def CreatesNew (s : LockState Pid) : LockAction Pid → Prop
  | .create p true => ∀ l, (s.procs p).pending = some l → s.files l.file = none
  | _ => True

structure Apart (s : LockState Pid) : Prop where
  files : ∀ p q l l', Holds s p l → Holds s q l' → l.file = l'.file → p = q
  nodup : ∀ p, ((s.procs p).held.map Lock.file).Nodup
  present : ∀ p l, Holds s p l → (s.files l.file).isSome = true

def PendingHeld (s : LockState Pid) : Prop :=
  ∀ p l, (s.procs p).pending = some l → (s.files l.file).isSome = true → ∃ q l', q ≠ p ∧ Holds s q l' ∧ l'.file = l.file

theorem apart_start (files : Text → Option Text) : Apart (.start files : LockState Pid) where
  files p q l l' h := by cases h
  nodup p := nodup_nil
  present p l h := by cases h

theorem pendingHeld_start (files : Text → Option Text) : PendingHeld (.start files : LockState Pid) := by
  intro p l h
  cases h

section

variable {name name' : Text} {content : Option Text}

@[simp] theorem holds_setFile : Holds (s.setFile name content) q l ↔ Holds s q l := Iff.rfl

@[simp] theorem procs_setFile : (s.setFile name content).procs = s.procs := rfl

@[simp] theorem files_setFile_self : (s.setFile name content).files name = content := update_self ..

theorem files_setFile_of_ne (h : name' ≠ name) : (s.setFile name content).files name' = s.files name' :=
  update_of_ne h ..

end

variable [DecidableEq Pid]

/-- No two processes hold the same lock, and a dropped guard leaves the files of the locks that others hold. -/
structure Exclusive (s : LockState Pid) : Prop where
  one : ∀ p q l, Holds s p l → Holds s q l → p = q
  drops : ∀ p l s', LockStep s (.drop p l) s' → ∀ q l', q ≠ p → Holds s q l' → s'.files l'.file = s.files l'.file

/-! ## One step -/

variable {a : LockAction Pid} {proc : Process} {pending : Option Lock}

theorem lockStep_cases (h : LockStep s a s') :
    (∃ p l, a = .check p l ∧ (s.procs p).pending = none ∧ (s.files l.file).isSome = true ∧ s' = s) ∨
    (∃ p l, a = .check p l ∧ (s.procs p).pending = none ∧ s.files l.file = none ∧
      s' = s.setProc p ⟨some l, (s.procs p).held⟩) ∨ (∃ p l, a = .create p true ∧ (s.procs p).pending = some l ∧
      s' = (s.setFile l.file (some l.line)).setProc p ⟨none, l :: (s.procs p).held⟩) ∨
    (∃ p l, a = .create p false ∧ (s.procs p).pending = some l ∧ s' = s.setProc p ⟨none, (s.procs p).held⟩) ∨
    (∃ p l, a = .drop p l ∧ (s.procs p).pending = none ∧ Holds s p l ∧
      s' = (s.setFile l.file none).setProc p ⟨none, (s.procs p).held.erase l⟩) := by
  cases a with
  | check p l =>
      rcases hp : (s.procs p).pending with _ | l₀
      · rcases hf : s.files l.file with _ | text
        · simp only [LockStep, LockState.step, hp, hf] at h
          exact .inr (.inl ⟨p, l, rfl, hp, hf, (Option.some.inj h).symm⟩)
        · simp only [LockStep, LockState.step, hp, hf] at h
          exact .inl ⟨p, l, rfl, hp, by rw [hf]; rfl, (Option.some.inj h).symm⟩
      · simp [LockStep, LockState.step, hp] at h
  | create p succeeds =>
      rcases hp : (s.procs p).pending with _ | l
      · simp [LockStep, LockState.step, hp] at h
      · cases succeeds with
        | true =>
            simp only [LockStep, LockState.step, hp] at h
            exact .inr (.inr (.inl ⟨p, l, rfl, hp, (Option.some.inj h).symm⟩))
        | false =>
            simp only [LockStep, LockState.step, hp] at h
            exact .inr (.inr (.inr (.inl ⟨p, l, rfl, hp, (Option.some.inj h).symm⟩)))
  | drop p l =>
      rcases hp : (s.procs p).pending with _ | l₀
      · by_cases hl : l ∈ (s.procs p).held
        · simp only [LockStep, LockState.step, hp, if_pos hl] at h
          exact .inr (.inr (.inr (.inr ⟨p, l, rfl, hp, hl, (Option.some.inj h).symm⟩)))
        · simp [LockStep, LockState.step, hp, hl] at h
      · simp [LockStep, LockState.step, hp] at h

theorem lockStep_drop (hp : (s.procs p).pending = none) (hl : Holds s p l) :
    LockStep s (.drop p l) ((s.setFile l.file none).setProc p ⟨none, (s.procs p).held.erase l⟩) := by
  have hmem : l ∈ (s.procs p).held := hl
  simp only [LockStep, LockState.step, hp, if_pos hmem]

theorem holds_setProc :
    Holds (s.setProc p proc) q l ↔ (q = p ∧ l ∈ proc.held) ∨ (q ≠ p ∧ Holds s q l) := by
  unfold Holds LockState.setProc
  by_cases hq : q = p
  · subst hq; simp
  · simp [hq]

theorem pending_setProc : ((s.setProc p proc).procs q).pending = some l ↔
    (q = p ∧ proc.pending = some l) ∨ (q ≠ p ∧ (s.procs q).pending = some l) := by
  unfold LockState.setProc
  by_cases hq : q = p
  · subst hq; simp
  · simp [hq]

@[simp] theorem files_setProc : (s.setProc p proc).files = s.files := rfl

theorem holds_setPending : Holds (s.setProc p ⟨pending, (s.procs p).held⟩) q l ↔ Holds s q l := by
  rw [holds_setProc]
  by_cases hq : q = p
  · subst hq; simp [Holds]
  · simp [hq]

theorem holds_create {content : Option Text} :
    Holds ((s.setFile l.file content).setProc p ⟨none, l :: (s.procs p).held⟩) q l' ↔
      (q = p ∧ l' = l) ∨ Holds s q l' := by
  rw [holds_setProc]
  by_cases hq : q = p
  · subst hq; simp [Holds]
  · simp [hq]

theorem holds_of_drop {content : Option Text}
    (h : Holds ((s.setFile l.file content).setProc p ⟨none, (s.procs p).held.erase l⟩) q l') : Holds s q l' := by
  rcases holds_setProc.mp h with ⟨rfl, hl'⟩ | ⟨-, hl'⟩
  · exact mem_of_mem_erase hl'
  · exact hl'

/-! ## Runs -/

theorem Apart.setPending (h : Apart s) : Apart (s.setProc p ⟨pending, (s.procs p).held⟩) where
  files q q' m m' hm hm' := h.files q q' m m' (holds_setPending.mp hm) (holds_setPending.mp hm')
  nodup q := by
    by_cases hq : q = p
    · subst hq; simpa [LockState.setProc] using h.nodup q
    · simpa [LockState.setProc, hq] using h.nodup q
  present q m hm := h.present q m (holds_setPending.mp hm)

theorem Apart.create (h : Apart s) (hfree : s.files l.file = none) :
    Apart ((s.setFile l.file (some l.line)).setProc p ⟨none, l :: (s.procs p).held⟩) := by
  -- Nobody holds a lock with the new file, as that did not exist.
  have hnone : ∀ q m, Holds s q m → m.file ≠ l.file := by
    intro q m hm hfile
    have hpres := h.present q m hm
    rw [hfile, hfree] at hpres
    cases hpres
  refine ⟨fun q q' m m' hm hm' hfile => ?_, fun q => ?_, fun q m hm => ?_⟩
  · rcases holds_create.mp hm with ⟨hq, hml⟩ | hm <;> rcases holds_create.mp hm' with ⟨hq', hml'⟩ | hm'
    · exact hq.trans hq'.symm
    · exact absurd (hfile.symm.trans (congrArg Lock.file hml)) (hnone q' m' hm')
    · exact absurd (hfile.trans (congrArg Lock.file hml')) (hnone q m hm)
    · exact h.files q q' m m' hm hm' hfile
  · by_cases hq : q = p
    · subst hq
      have hnot : l.file ∉ (s.procs q).held.map Lock.file := by
        rw [mem_map]
        rintro ⟨m, hm, hfile⟩
        exact hnone q m hm hfile
      simpa [LockState.setProc] using nodup_cons.mpr ⟨hnot, h.nodup q⟩
    · simpa [LockState.setProc, hq] using h.nodup q
  · rcases holds_create.mp hm with ⟨-, rfl⟩ | hm
    · simp
    · rw [files_setProc, files_setFile_of_ne (hnone q m hm)]
      exact h.present q m hm

theorem Apart.drop (h : Apart s) (hl : Holds s p l) :
    Apart ((s.setFile l.file none).setProc p ⟨none, (s.procs p).held.erase l⟩) := by
  refine ⟨fun q q' m m' hm hm' => h.files q q' m m' (holds_of_drop hm) (holds_of_drop hm'), fun q => ?_, fun q m hm => ?_⟩
  · by_cases hq : q = p
    · subst hq
      simpa [LockState.setProc] using (erase_sublist.map Lock.file).nodup (h.nodup q)
    · simpa [LockState.setProc, hq] using h.nodup q
  · have hfile : m.file ≠ l.file := by
      intro hfile
      obtain rfl : q = p := h.files q p m l (holds_of_drop hm) hl hfile
      rcases holds_setProc.mp hm with ⟨-, hm⟩ | ⟨hne, -⟩
      · have hinj := inj_on_of_nodup_map (h.nodup q) (mem_of_mem_erase hm) hl hfile
        subst hinj
        exact (List.Nodup.not_mem_erase (h.nodup q).of_map) hm
      · exact hne rfl
    rw [files_setProc, files_setFile_of_ne hfile]
    exact h.present q m (holds_of_drop hm)

theorem Apart.step (h : Apart s) (hnew : CreatesNew s a) (hstep : LockStep s a s') : Apart s' := by
  obtain ⟨p, l, rfl, -, -, rfl⟩ | ⟨p, l, rfl, -, -, rfl⟩ | ⟨p, l, rfl, hp, rfl⟩ | ⟨p, l, rfl, -, rfl⟩ |
    ⟨p, l, rfl, -, hl, rfl⟩ := lockStep_cases hstep
  · exact h
  · exact h.setPending
  · exact h.create (hnew l hp)
  · exact h.setPending
  · exact h.drop hl

theorem PendingHeld.step (h : PendingHeld s) (hstep : LockStep s a s') : PendingHeld s' := by
  obtain ⟨p, l, rfl, -, -, rfl⟩ | ⟨p, l, rfl, -, hfree, rfl⟩ | ⟨p, l, rfl, hp, rfl⟩ | ⟨p, l, rfl, -, rfl⟩ |
    ⟨p, l, rfl, -, hl, rfl⟩ := lockStep_cases hstep
  · exact h
  · intro q m hm hpres
    rcases pending_setProc.mp hm with ⟨rfl, hm⟩ | ⟨-, hm⟩
    · cases hm
      rw [files_setProc, hfree] at hpres
      cases hpres
    · obtain ⟨q', m', hne, hm', hfile⟩ := h q m hm hpres
      exact ⟨q', m', hne, holds_setPending.mpr hm', hfile⟩
  · intro q m hm hpres
    rcases pending_setProc.mp hm with ⟨-, hm⟩ | ⟨hqp, hm⟩
    · cases hm
    by_cases hfile : m.file = l.file
    · exact ⟨p, l, Ne.symm hqp, holds_create.mpr (.inl ⟨rfl, rfl⟩), hfile.symm⟩
    · rw [files_setProc, files_setFile_of_ne hfile] at hpres
      obtain ⟨q', m', hne, hm', hfile'⟩ := h q m hm hpres
      exact ⟨q', m', hne, holds_create.mpr (.inr hm'), hfile'⟩
  · intro q m hm hpres
    rcases pending_setProc.mp hm with ⟨-, hm⟩ | ⟨-, hm⟩
    · cases hm
    · obtain ⟨q', m', hne, hm', hfile⟩ := h q m hm hpres
      exact ⟨q', m', hne, holds_setPending.mpr hm', hfile⟩
  · intro q m hm hpres
    rcases pending_setProc.mp hm with ⟨-, hm⟩ | ⟨-, hm⟩
    · cases hm
    have hfile : m.file ≠ l.file := by
      intro hfile
      rw [files_setProc, hfile, files_setFile_self] at hpres
      cases hpres
    rw [files_setProc, files_setFile_of_ne hfile] at hpres
    obtain ⟨q', m', hne, hm', hfile'⟩ := h q m hm hpres
    refine ⟨q', m', hne, holds_setProc.mpr ?_, hfile'⟩
    by_cases hq' : q' = p
    · subst hq'
      refine .inl ⟨rfl, (mem_erase_of_ne ?_).mpr hm'⟩
      rintro rfl
      exact hfile hfile'.symm
    · exact .inr ⟨hq', hm'⟩

theorem Apart.exclusive (h : Apart s) : Exclusive s := by
  refine ⟨fun p q l hp hq => h.files p q l l hp hq rfl, fun p l s' hstep q l' hne hq => ?_⟩
  obtain ⟨p, l, heq, -, -, rfl⟩ | ⟨p, l, heq, -, -, rfl⟩ | ⟨p, l, heq, -, rfl⟩ | ⟨p, l, heq, -, rfl⟩ |
    ⟨p, l, heq, -, hl, rfl⟩ := lockStep_cases hstep <;> cases heq
  rw [files_setProc, files_setFile_of_ne]
  exact fun hfile => hne (h.files q _ l' _ hq hl hfile)

theorem Exclusive.createsNew (hpend : PendingHeld s) (hstep : LockStep s a s')
    (hs' : Exclusive s') : CreatesNew s a := by
  obtain ⟨p, l, rfl, -, -, rfl⟩ | ⟨p, l, rfl, -, -, rfl⟩ | ⟨p, l, rfl, hp, rfl⟩ | ⟨p, l, rfl, -, rfl⟩ |
    ⟨p, l, rfl, -, hl, rfl⟩ := lockStep_cases hstep
  · trivial
  · trivial
  · intro l' hl'
    cases hp.symm.trans hl'
    by_contra hfile
    obtain ⟨q, m, hne, hm, hmfile⟩ := hpend p l hp (Option.isSome_iff_ne_none.mpr hfile)
    -- The creator can drop its guard at once, and the file of the other one is gone.
    have hdrop := hs'.drops p l _ (lockStep_drop (by simp [LockState.setProc]) (holds_create.mpr (.inl ⟨rfl, rfl⟩)))
      q m hne (holds_create.mpr (.inr hm))
    rw [hmfile, files_setProc, files_setFile_self, files_setProc, files_setFile_self] at hdrop
    cases hdrop
  · trivial
  · trivial

/-- In a run of any number of processes no two hold the same lock, and none removes the lock file of another, exactly
when no process creates a lock file that exists. -/
theorem exclusive_iff_createsNew (files : Text → Option Text) (as : List (LockAction Pid)) :
    StatesMeet LockStep Exclusive (.start files) as ↔ StepsMeet LockStep CreatesNew (.start files) as :=
  statesMeet_iff_stepsMeet as (apart_start files) (fun _ _ _ hs hnew hstep => hs.step hnew hstep)
    (fun _ hs => hs.exclusive) (pendingHeld_start files) (fun _ _ _ hs hstep => hs.step hstep)
    fun _ _ _ hs _ hstep hs' => hs'.createsNew hs hstep

/-! ## Two processes that look for the lock file at the same time -/

def sampleRace : List (LockAction Nat) :=
  [.check 0 (.merge "1"), .check 1 (.merge "1"), .create 0 true, .create 1 true]

/-- Both processes hold the lock of the task, and the first one to drop it removes the file of the other. -/
theorem two_processes_hold_lock : ¬ StatesMeet LockStep Exclusive (.start fun _ => none) sampleRace ∧
      ∃ s s', Run LockStep (.start fun _ => none) sampleRace s ∧ Holds s 0 (.merge "1") ∧ Holds s 1 (.merge "1") ∧
        LockStep s (.drop 0 (.merge "1")) s' ∧ (s.files (mergeLockName "1")).isSome = true ∧
        s'.files (mergeLockName "1") = none := by
  have hrun : ∃ s, Run LockStep (.start fun _ => none) sampleRace s ∧ Holds s 0 (.merge "1") ∧
      Holds s 1 (.merge "1") ∧ (s.procs 0).pending = none ∧ (s.files (mergeLockName "1")).isSome = true :=
    ⟨_, .cons rfl (.cons rfl (.cons rfl (.cons rfl (.nil _)))), by decide, by decide, rfl, by decide⟩
  obtain ⟨s, hrun, h₀, h₁, hpend, hfile⟩ := hrun
  refine ⟨fun hmeet => ?_, s, _, hrun, h₀, h₁, lockStep_drop hpend h₀, hfile, ?_⟩
  · exact absurd ((hmeet sampleRace s prefix_rfl hrun).one 0 1 _ h₀ h₁) (by decide)
  · rw [files_setProc]
    exact files_setFile_self

end CodexStudy.NewCore
