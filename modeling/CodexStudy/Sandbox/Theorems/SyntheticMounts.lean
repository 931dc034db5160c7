import CodexStudy.Sandbox.Lemmas.SyntheticMounts

/-!
# Which runs leave the path as it was

A directory is never removed under another run, and one that was there before stays.
-/

namespace CodexStudy.Sandbox

open CodexStudy.Lib Tasks List MountPhase MountWorkspace Function
open CodexStudy.ApplyPatch (AbsolutePath)

/-- The directory goes only when no other run is registered, and one that was there before stays. -/
structure RemovesAlone (path : AbsolutePath) (original : Option FileIdentity) (s : MountSystem) : Prop where
  alone : ∀ a s', MountMove path s a s' → s.shared.directory ≠ none → s'.shared.directory ≠ s.shared.directory →
    ∀ pid, pid ≠ a.1 → (s.task pid).registration = none
  same : ∀ identity, original = some identity → s.shared.directory = some identity

/-- And one that was missing is missing when all runs have cleaned up. -/
structure LeavesWorkspace (path : AbsolutePath) (original : Option FileIdentity) (s : MountSystem) : Prop
    extends RemovesAlone path original s where
  missing : original = none → (∀ pid, (s.task pid).registration = none) → s.shared.directory = none

/-- A run that registers for a directory that is still there does it for the one that was there before the first
run, or there is a synthetic marker. -/
def NotAdopted (original : Option FileIdentity) (s : MountSystem) (a : Nat × MountStep) : Prop :=
  a.2 = .register → ∀ target identity, s.task a.1 = .inspected target → target.preExistingPath = some identity →
    s.shared.directory = some identity → original = some identity ∨ s.shared.HasSyntheticOwner

/-- The directory that is there is one that its runs regard as their own. -/
structure NoneAdopted (original : Option FileIdentity) (s : MountSystem) : Prop where
  sound : MountsSound original s
  own : original = none → ∀ pid target identity, (s.task pid).registration = some target →
    target.preExistingPath = some identity → s.shared.directory ≠ some identity
  marked : original = none → s.shared.directory ≠ none → s.shared.markerDir ≠ []

section

variable {path : AbsolutePath} {original : Option FileIdentity} {s s' : MountSystem} {a : Nat × MountStep} {pid : Nat}
  {ws : MountWorkspace} {phase : MountPhase} {target : SyntheticMountTarget}

theorem noneAdopted_new (original : Option FileIdentity) : NoneAdopted original (.new original) := by
  refine ⟨mountsSound_new original, fun _ _ _ _ h => (by cases h), fun ho h => absurd ho h⟩

theorem mem_markerDir (h : MountsSound original s) (hp : (s.task pid).registration = some target) :
    (pid, syntheticMountMarkerContents target) ∈ s.shared.markerDir :=
  ((h.own pid).marker _).mpr ⟨target, hp, rfl⟩

theorem own_update (h : NoneAdopted original s) (ho : original = none)
    (hdir : ∀ identity, ws.directory = some identity → s.shared.directory = some identity)
    (hph : ∀ target identity, phase.registration = some target → target.preExistingPath = some identity →
      ws.directory ≠ some identity) : ∀ u target identity, (update s.task pid phase u).registration = some target →
      target.preExistingPath = some identity → ws.directory ≠ some identity := by
  intro u target identity hreg hpre hws
  by_cases hu : u = pid
  · subst hu
    rw [update_self] at hreg
    exact hph target identity hreg hpre hws
  · rw [update_of_ne hu] at hreg
    exact h.own ho u target identity hreg hpre (hdir identity hws)

theorem noneAdopted_move (h : NoneAdopted original s) (hgd : NotAdopted original s a)
    (hmove : MountMove path s a s') : NoneAdopted original s' := by
  have hsnd := sound_mountMove h.sound hmove
  obtain ⟨pid, step⟩ := a
  obtain ⟨ws, phase, hstep, rfl⟩ := move_iff.mp hmove
  generalize hp : s.task pid = p at hstep
  cases takes_of_step hstep with
  | inspect => exact ⟨hsnd, fun ho => own_update h ho (fun _ => id) fun _ _ hr => (by cases hr), h.marked⟩
  | endBwrap target =>
      exact ⟨hsnd, fun ho => own_update h ho (fun _ => id) fun new identity hr =>
        h.own ho pid new identity (hp ▸ hr), h.marked⟩
  | register target =>
      have hkind := (h.sound.own pid).kind target (by rw [hp]; rfl)
      obtain ⟨hws, hreg⟩ := register_eq pid (active_of_mem h.sound) hkind
      refine ⟨hsnd, fun ho => own_update h ho (fun identity hd => ?_) fun new identity hr hpre hd => ?_,
        fun ho _ hnil => ?_⟩
      · rw [hws] at hd
        exact hd
      · rw [hws] at hd
        cases hr
        generalize (s.shared.register pid target).2 = new at hreg hpre
        cases hreg with
        | corrected => cases hpre
        | same hnone =>
            have hpres : target.preExistingPath ≠ none := by
              rw [hpre]
              exact Option.some_ne_none _
            rcases hgd rfl target identity hp hpre hd with horiginal | hown
            · rw [ho] at horiginal
              cases horiginal
            · exact hnone hpres hown
      · dsimp only at hnil
        rw [hws] at hnil
        exact write_ne_nil hnil
  | startBwrap target =>
      have hregistered : (s.task pid).registration = some target := by rw [hp]; rfl
      have hmks := (startBwrap_frame s.shared).2.1
      have hmkd : s.shared.startBwrap.markerDir ≠ [] := by
        rw [hmks]
        exact ne_nil_of_mem (mem_markerDir h.sound hregistered)
      refine ⟨hsnd, fun ho => ?_, fun _ _ => hmkd⟩
      have hall : ∀ u new identity, (s.task u).registration = some new → new.preExistingPath = some identity →
          s.shared.startBwrap.directory ≠ some identity := by
        intro u new identity hr hpre
        rcases startBwrap_directory s.shared with ⟨hsame, -⟩ | ⟨-, hnew, -⟩
        · rw [hsame]
          exact h.own ho u new identity hr hpre
        · rw [hnew]
          rintro ⟨⟩
          exact Nat.lt_irrefl _ ((h.sound.own u).fresh new _ (target_of_registration hr) hpre)
      intro u new identity hr
      by_cases hu : u = pid
      · subst hu
        simp only [update_self] at hr
        cases hr
        exact hall u target identity hregistered
      · simp only [update_of_ne hu] at hr
        exact hall u new identity hr
  | cleanUp target =>
      have hregistered : (s.task pid).registration = some target := by rw [hp]; rfl
      have hkind := (h.sound.own pid).kind target (target_of_registration hregistered)
      rw [cleanUp_eq pid (active_of_mem h.sound) hkind]
      rw [cleanUp_eq pid (active_of_mem h.sound) hkind] at hsnd
      refine ⟨hsnd, fun ho => own_update h ho (fun identity hd => ?_) fun _ _ hr => (by cases hr), fun ho hd hnil => ?_⟩
      · dsimp only at hd
        split at hd
        next => cases hd
        next => exact hd
      · dsimp only at hd hnil
        refine hd (if_pos ⟨hnil, fun hpre => ?_⟩)
        cases hdir : s.shared.directory with
        | none => exact hd (by rw [hdir, ite_self])
        | some identity => exact h.own ho pid target identity hregistered (hpre.trans hdir) hdir

theorem alone_of_removes (h : MountsSound original s) (hmove : MountMove path s a s')
    (hdir : s.shared.directory ≠ none) (hrem : s'.shared.directory ≠ s.shared.directory) :
    ∀ pid, pid ≠ a.1 → (s.task pid).registration = none := by
  intro u hu
  obtain ⟨pid, step⟩ := a
  obtain ⟨ws, phase, hstep, rfl⟩ := move_iff.mp hmove
  generalize hp : s.task pid = p at hstep
  cases takes_of_step hstep with
  | inspect | endBwrap => exact absurd rfl hrem
  | register target =>
      obtain ⟨hws, -⟩ := register_eq pid (active_of_mem h) ((h.own pid).kind target (by rw [hp]; rfl))
      rw [hws] at hrem
      exact absurd rfl hrem
  | startBwrap target =>
      rcases startBwrap_directory s.shared with ⟨hsame, -⟩ | ⟨hnone, -⟩
      · exact absurd hsame hrem
      · exact absurd hnone hdir
  | cleanUp target =>
      rw [cleanUp_eq pid (active_of_mem h) ((h.own pid).kind target (by rw [hp]; rfl))] at hrem
      cases hreg : (s.task u).registration with
      | none => rfl
      | some new =>
          refine absurd (if_neg fun hboth => ?_) hrem
          exact ne_nil_of_mem (mem_remove.mpr ⟨mem_markerDir h hreg, hu⟩) hboth.1

theorem removesAlone (h : MountsSound original s) : RemovesAlone path original s :=
  ⟨fun _ _ hmove => alone_of_removes h hmove, h.shared.same⟩

theorem NoneAdopted.leavesWorkspace (h : NoneAdopted original s) : LeavesWorkspace path original s := by
  refine ⟨removesAlone h.sound, fun ho hnone => ?_⟩
  by_contra hdir
  obtain ⟨entry, hent⟩ := exists_mem_of_ne_nil _ (h.marked ho hdir)
  obtain ⟨target, htgt, -⟩ := ((h.sound.own entry.1).marker entry.2).mp hent
  rw [hnone] at htgt
  cases htgt

end

/-! ## A directory that is adopted -/

/-- How many steps the run has yet to take, where it has begun. -/
def MountPhase.left : MountPhase → Nat
  | inspected _ => 4
  | registered _ => 3
  | running _ => 2
  | ended _ => 1
  | notStarted | finished => 0

structure Adopted (s : MountSystem) (pid : Nat) (target : SyntheticMountTarget) (identity : FileIdentity) : Prop where
  phase : s.task pid = .registered target
  preExisting : target.preExistingPath = some identity
  directory : s.shared.directory = some identity

section

variable {path : AbsolutePath} {original : Option FileIdentity} {s s' : MountSystem} {pid u : Nat}
  {target : SyntheticMountTarget} {identity : FileIdentity}

theorem Adopted.of_move {ws : MountWorkspace} {phase : MountPhase} (h : Adopted s pid target identity) (hu : u ≠ pid)
    (hdir : ws.directory = s.shared.directory) : Adopted ⟨ws, update s.task u phase⟩ pid target identity :=
  ⟨(update_of_ne (Ne.symm hu) ..).trans h.phase, h.preExisting, hdir.trans h.directory⟩

/-- Another run that has begun can take its next step, and the directory stays. -/
theorem Adopted.next (path : AbsolutePath) (h : Adopted s pid target identity) (hsnd : MountsSound original s)
    (hu : u ≠ pid) {n : Nat} (hleft : (s.task u).left = n + 1) :
    ∃ a ws phase, MountMove path s (u, a) ⟨ws, update s.task u phase⟩ ∧
      ws.directory = s.shared.directory ∧ phase.left = n := by
  cases hp : s.task u with
  | notStarted | finished =>
      rw [hp] at hleft
      cases hleft
  | inspected new =>
      rw [hp] at hleft
      cases hleft
      obtain ⟨hws, -⟩ := register_eq u (active_of_mem hsnd) ((hsnd.own u).kind new (by rw [hp]; rfl))
      exact ⟨.register, _, _, move_of_eq hp rfl, by rw [hws], rfl⟩
  | registered new =>
      rw [hp] at hleft
      cases hleft
      refine ⟨.startBwrap, _, _, move_of_eq hp rfl, ?_, rfl⟩
      rcases startBwrap_directory s.shared with ⟨hsame, -⟩ | ⟨hnone, -⟩
      · exact hsame
      · rw [h.directory] at hnone
        cases hnone
  | running new =>
      rw [hp] at hleft
      cases hleft
      exact ⟨.endBwrap, _, _, move_of_eq hp rfl, rfl, rfl⟩
  | ended new =>
      rw [hp] at hleft
      cases hleft
      refine ⟨.cleanUp, _, _, move_of_eq hp rfl, ?_, rfl⟩
      rw [cleanUp_eq u (active_of_mem hsnd) ((hsnd.own u).kind new (by rw [hp]; rfl))]
      refine if_neg fun hboth => ?_
      have hregistered : (s.task pid).registration = some target := by rw [h.phase]; rfl
      exact ne_nil_of_mem (mem_remove.mpr ⟨mem_markerDir hsnd hregistered, Ne.symm hu⟩) hboth.1

theorem Adopted.finish (path : AbsolutePath) (h : Adopted s pid target identity) (hsnd : MountsSound original s)
    (hu : u ≠ pid) (n : Nat) (hleft : (s.task u).left = n) :
    ∃ more s', Run (MountMove path) s more s' ∧ Adopted s' pid target identity ∧ (s'.task u).left = 0 ∧
      ∀ v, v ≠ u → s'.task v = s.task v := by
  induction n generalizing s with
  | zero => exact ⟨[], s, .nil s, h, hleft, fun _ _ => rfl⟩
  | succ n ih =>
      obtain ⟨a, ws, phase, hmove, hdir, hph⟩ := h.next path hsnd hu hleft
      have hself : (update s.task u phase u).left = n :=
        (congrArg left (update_self ..)).trans hph
      obtain ⟨more, s', hrun, h', hdone, hsame⟩ := ih (h.of_move hu hdir) (sound_mountMove hsnd hmove) hself
      exact ⟨(u, a) :: more, s', .cons hmove hrun, h', hdone, fun v hv =>
        (hsame v hv).trans (update_of_ne hv ..)⟩

theorem Adopted.finishAll (path : AbsolutePath) (h : Adopted s pid target identity) (hsnd : MountsSound original s)
    (others : List Nat) (hothers : ∀ u ∈ others, u ≠ pid) :
    ∃ more s', Run (MountMove path) s more s' ∧ Adopted s' pid target identity ∧
      (∀ u ∈ others, (s'.task u).left = 0) ∧ ∀ v, v ∉ others → s'.task v = s.task v := by
  induction others generalizing s with
  | nil => exact ⟨[], s, .nil s, h, fun _ h => absurd h not_mem_nil, fun _ _ => rfl⟩
  | cons u others ih =>
      obtain ⟨hu, hothers⟩ := forall_mem_cons.mp hothers
      obtain ⟨more, s₁, hrun, h₁, hdone, hsame⟩ := h.finish path hsnd hu _ rfl
      have hsnd₁ := hrun.invariant hsnd fun _ _ _ h hmove => sound_mountMove h hmove
      obtain ⟨more', s', hrun', h', hdone', hsame'⟩ := ih h₁ hsnd₁ hothers
      refine ⟨more ++ more', s', hrun.append hrun', h', fun v hv => ?_, fun v hv => ?_⟩
      · by_cases hmem : v ∈ others
        · exact hdone' v hmem
        · obtain rfl := (mem_cons.mp hv).resolve_right hmem
          rw [hsame' v hmem]
          exact hdone
      · rw [mem_cons, not_or] at hv
        exact (hsame' v hv.2).trans (hsame v hv.1)

theorem left_of_not_active (hsnd : MountsSound original s) (h : u ∉ s.shared.processes) : (s.task u).left = 0 := by
  cases hp : s.task u with
  | notStarted | finished => rfl
  | inspected new | registered new | running new | ended new =>
      exact absurd ((hsnd.own u).active new (by rw [hp]; rfl)) h

theorem Adopted.leaves (path : AbsolutePath) (h : Adopted s pid target identity) (hsnd : MountsSound original s) :
    ∃ more s', Run (MountMove path) s more s' ∧ s'.shared.directory = some identity ∧ (s'.task pid).left = 0 ∧
      ∀ v, v ≠ pid → s'.task v = s.task v := by
  have hst : s.shared.startBwrap = s.shared := by
    unfold startBwrap
    rw [h.directory]
  have hkind : target.kind = .emptyDirectory := (hsnd.own pid).kind target (by rw [h.phase]; rfl)
  have hsts : MountMove path s (pid, .startBwrap) ⟨s.shared, update s.task pid (.running target)⟩ :=
    move_of_eq h.phase (congrArg (fun ws => some (ws, running target)) hst)
  have hends : MountMove path ⟨s.shared, update s.task pid (.running target)⟩ (pid, .endBwrap)
      ⟨s.shared, update (update s.task pid (.running target)) pid (.ended target)⟩ :=
    move_of_eq (update_self ..) rfl
  have hcleans : MountMove path
      ⟨s.shared, update (update s.task pid (.running target)) pid (.ended target)⟩ (pid, .cleanUp)
      ⟨{ s.shared.cleanUp pid target with processes := (s.shared.cleanUp pid target).processes.erase pid },
        update (update (update s.task pid (.running target)) pid (.ended target)) pid
          .finished⟩ :=
    move_of_eq (update_self ..) rfl
  refine ⟨_, _, .cons hsts (.cons hends (.single hcleans)), ?_, ?_, fun v hv => ?_⟩
  · rw [cleanUp_eq pid (active_of_mem hsnd) hkind]
    refine (if_neg fun hboth => hboth.2 ?_).trans h.directory
    rw [h.preExisting, h.directory]
  · simp only [update_self, left]
  · simp only [update_of_ne hv]

theorem Adopted.stays (path : AbsolutePath) (h : Adopted s pid target identity) (hsnd : MountsSound original s) :
    ∃ more s', Run (MountMove path) s more s' ∧ (∀ u, (s'.task u).left = 0) ∧ s'.shared.directory ≠ none := by
  have hothers : ∀ u ∈ (s.shared.processes.erase pid).toList, u ≠ pid := fun u hu =>
    Finset.ne_of_mem_erase (Finset.mem_toList.mp hu)
  obtain ⟨more, s₁, hrun, h₁, hdone, hsame⟩ := h.finishAll path hsnd _ hothers
  have hsnd₁ := hrun.invariant hsnd fun _ _ _ h hmove => sound_mountMove h hmove
  obtain ⟨more', s', hrun', hdir, hself, hsame'⟩ := h₁.leaves path hsnd₁
  refine ⟨more ++ more', s', hrun.append hrun', fun u => ?_, by rw [hdir]; exact Option.some_ne_none _⟩
  by_cases hu : u = pid
  · exact hu ▸ hself
  · rw [hsame' u hu]
    by_cases hmem : u ∈ (s.shared.processes.erase pid).toList
    · exact hdone u hmem
    · rw [hsame u hmem]
      refine left_of_not_active hsnd fun hact => hmem ?_
      exact Finset.mem_toList.mpr (Finset.mem_erase.mpr ⟨hu, hact⟩)

theorem adopted_of_register {a : Nat × MountStep} (hsnd : MountsSound none s) (hmove : MountMove path s a s')
    (hgd : ¬NotAdopted none s a) : ∃ pid target identity, Adopted s' pid target identity := by
  unfold NotAdopted at hgd
  push Not at hgd
  obtain ⟨hregister, target, identity, hp, hpre, hdir, -, hown⟩ := hgd
  obtain ⟨pid, step⟩ := a
  obtain ⟨ws, phase, hstep, rfl⟩ := move_iff.mp hmove
  cases hregister
  dsimp only at hp hstep
  rw [hp] at hstep
  cases takes_of_step hstep
  obtain ⟨hws, hreg⟩ := register_eq pid (active_of_mem hsnd) ((hsnd.own pid).kind target (by rw [hp]; rfl))
  have hsame : (s.shared.register pid target).2 = target := by
    generalize (s.shared.register pid target).2 = new at hreg
    cases hreg with
    | same => rfl
    | corrected hsynthetic => exact absurd hsynthetic hown
  refine ⟨pid, target, identity, ?_, hpre, ?_⟩
  · exact (update_self ..).trans (congrArg registered hsame)
  · exact (congrArg directory hws).trans hdir

end

/-- In every run of any number of runs of the sandbox, the directory goes only when no other is registered, and one that
was there before stays. One that was missing is missing again once all have cleaned up, when none registers for a
directory that runs made as for an older one; after such a registration the runs can go on so that it stays. -/
theorem leavesWorkspace_of_notAdopted (path : AbsolutePath) :
    (∀ original steps, StepsMeet (MountMove path) (NotAdopted original) (.new original) steps →
      StatesMeet (MountMove path) (LeavesWorkspace path original) (.new original) steps) ∧
    (∀ original steps, StatesMeet (MountMove path) (RemovesAlone path original) (.new original) steps) ∧
    ∀ steps s a s', Run (MountMove path) (.new none) steps s → MountMove path s a s' → ¬NotAdopted none s a →
      ∃ more s'', Run (MountMove path) s' more s'' ∧ (∀ pid, (s''.task pid).left = 0) ∧
        s''.shared.directory ≠ none := by
  have hsnd : ∀ original steps s, Run (MountMove path) (.new original) steps s → MountsSound original s :=
    fun original steps s hrun =>
      hrun.invariant (mountsSound_new original) fun _ _ _ h hmove => sound_mountMove h hmove
  refine ⟨fun original steps h past s hpast hrun => ?_, fun original steps past s _ hrun => ?_,
    fun steps s a s' hrun hmove hgd => ?_⟩
  · have hstep : ∀ s a s', NoneAdopted original s → NotAdopted original s a → MountMove path s a s' →
        NoneAdopted original s' := fun _ _ _ hs hgd hmove => noneAdopted_move hs hgd hmove
    exact (statesMeet_of_stepsMeet (noneAdopted_new original) hstep h past s hpast hrun).leavesWorkspace
  · exact removesAlone (hsnd original past s hrun)
  · have hs := hsnd none steps s hrun
    obtain ⟨pid, target, identity, hadopted⟩ := adopted_of_register hs hmove hgd
    exact hadopted.stays path (sound_mountMove hs hmove)

/-! ## Three runs -/

def examplePath : AbsolutePath := ⟨["repo", ".git"], by decide⟩

/-- The second run finds the directory of the first, which removes it; it makes its own, which the third run finds. -/
def adoption : List (Nat × MountStep) :=
  [(0, .inspect), (0, .register), (0, .startBwrap), (1, .inspect), (0, .endBwrap), (0, .cleanUp),
    (1, .register), (1, .startBwrap), (2, .inspect), (2, .register), (2, .startBwrap),
    (1, .endBwrap), (1, .cleanUp), (2, .endBwrap), (2, .cleanUp)]

theorem adopted_stays :
    ¬∀ path original steps, StatesMeet (MountMove path) (LeavesWorkspace path original) (.new original) steps := by
  intro h
  have hstt : ∃ s, adoption.foldlM (advance (step examplePath)) (MountSystem.new none) = some s ∧
      s.shared.directory = some ⟨0, 1⟩ ∧ s.shared.markerDir = [] := ⟨_, rfl, rfl, rfl⟩
  obtain ⟨s, hsts, hdir, hmks⟩ := hstt
  have hrun : Run (MountMove examplePath) (.new none) adoption s := .of_foldlM hsts
  have hsnd : MountsSound none s := hrun.invariant (mountsSound_new none) fun _ _ _ h hmove => sound_mountMove h hmove
  have hmissing := (h examplePath none adoption adoption s prefix_rfl hrun).missing rfl fun pid => by
    cases hreg : (s.task pid).registration with
    | none => rfl
    | some target => exact absurd hmks (ne_nil_of_mem (mem_markerDir hsnd hreg))
  rw [hdir] at hmissing
  cases hmissing

/-- The second run registers while the first one has its marker, and removes the directory in the end. -/
def shared : List (Nat × MountStep) :=
  [(0, .inspect), (0, .register), (0, .startBwrap), (1, .inspect), (1, .register), (0, .endBwrap), (0, .cleanUp),
    (1, .startBwrap), (1, .endBwrap), (1, .cleanUp)]

theorem shared_leavesWorkspace :
    StatesMeet (MountMove examplePath) (LeavesWorkspace examplePath none) (.new none) shared := by
  refine (leavesWorkspace_of_notAdopted examplePath).1 none shared ?_
  have hrun : ∃ s, shared.foldlM (fun s a =>
      if a.2 ≠ .register || s.shared.directory.isNone ||
          s.shared.markerDir.any (fun entry => entry.2 == SYNTHETIC_MOUNT_MARKER_SYNTHETIC) then
        s.advance (step examplePath) a
      else none) (MountSystem.new none) = some s := ⟨_, rfl⟩
  obtain ⟨s, hrun⟩ := hrun
  refine stepsMeet_of_foldlM (fun s a hck hregister target identity _ _ hdir => .inr ?_) hrun
  rw [hregister, hdir] at hck
  obtain ⟨entry, hent, hconts⟩ := any_eq_true.mp hck
  exact ⟨entry.1, eq_of_beq hconts ▸ hent⟩

end CodexStudy.Sandbox
