import CodexStudy.Sandbox.Targets

/-!
# What is known of the runs that share a path
-/

namespace CodexStudy.Sandbox

open CodexStudy.Lib List MountWorkspace Nat
open CodexStudy.ApplyPatch (AbsolutePath)

namespace MountPhase

def target : MountPhase → Option SyntheticMountTarget
  | inspected target | registered target | running target | ended target => some target
  | _ => none

def registration : MountPhase → Option SyntheticMountTarget
  | registered target | running target | ended target => some target
  | _ => none

theorem target_of_registration {phase : MountPhase} {target : SyntheticMountTarget}
    (h : phase.registration = some target) : phase.target = some target := by
  cases phase with
  | registered | running | ended => exact h
  | _ => cases h

end MountPhase

/-! ## Markers -/

section

variable {processes : Finset Nat} {dir : MarkerDir} {pid other : Nat} {contents new : Text}

theorem mem_write_self : (pid, contents) ∈ dir.write pid new ↔ contents = new := by
  unfold MarkerDir.write
  rw [mem_append, mem_singleton, mem_filter]
  constructor
  · rintro (⟨-, hne⟩ | heq)
    · exact absurd rfl (of_decide_eq_true hne)
    · exact congrArg Prod.snd heq
  · exact fun h => .inr (congrArg _ h)

theorem mem_write_of_ne (h : other ≠ pid) : (other, contents) ∈ dir.write pid new ↔ (other, contents) ∈ dir := by
  unfold MarkerDir.write
  rw [mem_append, mem_singleton, mem_filter]
  constructor
  · rintro (⟨hmem, -⟩ | heq)
    · exact hmem
    · exact absurd (congrArg Prod.fst heq) h
  · exact fun hmem => .inl ⟨hmem, decide_eq_true h⟩

theorem write_ne_nil : dir.write pid new ≠ [] := append_ne_nil_of_right_ne_nil _ (cons_ne_nil _ _)

theorem mem_remove : (other, contents) ∈ dir.remove pid ↔ (other, contents) ∈ dir ∧ other ≠ pid := by
  unfold MarkerDir.remove
  rw [mem_filter, decide_eq_true_iff]

theorem markerDirHasActiveProcessMatching_eq (matchesMarker : Text → Bool) (h : ∀ entry ∈ dir, entry.1 ∈ processes) :
    markerDirHasActiveProcessMatching processes matchesMarker dir = (dir, dir.any (matchesMarker ·.2)) := by
  induction dir with
  | nil => rfl
  | cons entry dir ih =>
      obtain ⟨hent, hdir⟩ := forall_mem_cons.mp h
      unfold markerDirHasActiveProcessMatching
      rw [if_neg (not_not_intro hent), ih hdir, any_cons]
      cases matchesMarker entry.2 <;> rfl

end

/-! ## Registration and clean-up -/

section

variable {ws : MountWorkspace} {pid : Nat} {target : SyntheticMountTarget}

/-- An active run regards the directory as its own. -/
def MountWorkspace.HasSyntheticOwner (ws : MountWorkspace) : Prop :=
  ∃ pid, (pid, SYNTHETIC_MOUNT_MARKER_SYNTHETIC) ∈ ws.markerDir

inductive Registers (ws : MountWorkspace) (target : SyntheticMountTarget) : SyntheticMountTarget → Prop where
  | same : (target.preExistingPath ≠ none → ¬ws.HasSyntheticOwner) → Registers ws target target
  | corrected : ws.HasSyntheticOwner → Registers ws target (.missingEmptyDirectory target.path)

theorem register_eq (pid : Nat) (h : ∀ entry ∈ ws.markerDir, entry.1 ∈ ws.processes) (hkind : target.kind = .emptyDirectory) :
    (ws.register pid target).1 = { ws with
        markerDir := ws.markerDir.write pid (syntheticMountMarkerContents (ws.register pid target).2) } ∧
      Registers ws target (ws.register pid target).2 := by
  have hscan := markerDirHasActiveProcessMatching_eq (· == SYNTHETIC_MOUNT_MARKER_SYNTHETIC) h
  have hown : (ws.markerDir.any fun entry => entry.2 == SYNTHETIC_MOUNT_MARKER_SYNTHETIC) = true ↔
      ws.HasSyntheticOwner := by
    rw [any_eq_true]
    constructor
    · rintro ⟨entry, hent, hconts⟩
      exact ⟨entry.1, (eq_of_beq hconts) ▸ hent⟩
    · rintro ⟨pid, hent⟩
      exact ⟨_, hent, beq_self_eq_true _⟩
  unfold register markerDirHasActiveSyntheticOwner
  rw [hscan, hkind]
  cases hpreserves : target.preservesPreExistingPath with
  | false =>
      refine ⟨rfl, .same fun hsome => ?_⟩
      exact absurd (Option.isSome_eq_false_iff.mp hpreserves) (by simpa using hsome)
  | true =>
      cases hany : ws.markerDir.any fun entry => entry.2 == SYNTHETIC_MOUNT_MARKER_SYNTHETIC with
      | false =>
          refine ⟨rfl, .same fun _ hsynthetic => ?_⟩
          rw [hown.mpr hsynthetic] at hany
          cases hany
      | true => exact ⟨rfl, .corrected (hown.mp hany)⟩

theorem cleanUp_eq (pid : Nat) (h : ∀ entry ∈ ws.markerDir, entry.1 ∈ ws.processes) (hkind : target.kind = .emptyDirectory) :
    ws.cleanUp pid target =
      { ws with
        markerDir := ws.markerDir.remove pid
        directory :=
          if ws.markerDir.remove pid = [] ∧ target.preExistingPath ≠ ws.directory then none else ws.directory } := by
  have hleft : ∀ entry ∈ ws.markerDir.remove pid, entry.1 ∈ ws.processes := fun entry hent =>
    h entry (mem_of_mem_filter hent)
  unfold cleanUp markerDirHasActiveProcess
  rw [markerDirHasActiveProcessMatching_eq _ hleft]
  cases hdir : ws.markerDir.remove pid with
  | cons entry entries => rw [if_neg fun hnil => by cases hnil.1]; rfl
  | nil =>
      unfold removeSyntheticMountTarget
      dsimp only [any_nil]
      rw [if_neg Bool.false_ne_true]
      cases hdirectory : ws.directory with
      | none => rw [ite_self]
      | some identity =>
          have hremove : target.shouldRemoveAfterBwrap identity.ofDirectory = true ↔
              target.preExistingPath ≠ some identity := by
            unfold SyntheticMountTarget.shouldRemoveAfterBwrap
            rw [hkind]
            exact bne_iff_ne
          by_cases hpre : target.preExistingPath = some identity
          · rw [if_neg fun hboth => hboth.2 hpre]
            exact if_neg fun hrem => hremove.mp hrem hpre
          · rw [if_pos ⟨rfl, hpre⟩]
            exact if_pos (hremove.mpr hpre)

inductive MountTakes (path : AbsolutePath) (pid : Nat) (ws : MountWorkspace) :
    MountPhase → MountStep → MountWorkspace → MountPhase → Prop where
  | inspect : MountTakes path pid ws .notStarted .inspect { ws with processes := insert pid ws.processes }
      (.inspected (ws.inspect path))
  | register (target : SyntheticMountTarget) : MountTakes path pid ws (.inspected target) .register
      (ws.register pid target).1 (.registered (ws.register pid target).2)
  | startBwrap (target : SyntheticMountTarget) : MountTakes path pid ws (.registered target) .startBwrap
      ws.startBwrap (.running target)
  | endBwrap (target : SyntheticMountTarget) : MountTakes path pid ws (.running target) .endBwrap ws (.ended target)
  | cleanUp (target : SyntheticMountTarget) : MountTakes path pid ws (.ended target) .cleanUp
      { ws.cleanUp pid target with processes := (ws.cleanUp pid target).processes.erase pid } .finished

theorem takes_of_step {path : AbsolutePath} {ws' : MountWorkspace} {p phase : MountPhase} {a : MountStep}
    (h : ws.step path pid p a = some (ws', phase)) : MountTakes path pid ws p a ws' phase := by
  unfold step at h
  cases a with
  | inspect =>
      dsimp only at h
      split at h
      next =>
        cases h
        exact .inspect
      next => cases h
  | register =>
      dsimp only at h
      split at h
      next target =>
        cases h
        exact .register target
      next => cases h
  | startBwrap =>
      dsimp only at h
      split at h
      next target =>
        cases h
        exact .startBwrap target
      next => cases h
  | endBwrap =>
      dsimp only at h
      split at h
      next target =>
        cases h
        exact .endBwrap target
      next => cases h
  | cleanUp =>
      dsimp only at h
      split at h
      next target =>
        cases h
        exact .cleanUp target
      next => cases h

end

/-! ## The invariant -/

structure WorkspaceSound (original : Option FileIdentity) (ws : MountWorkspace) : Prop where
  fresh : ∀ identity, ws.directory = some identity → identity.ino < ws.nextInode
  same : ∀ identity, original = some identity → ws.directory = some identity

structure RunSound (original : Option FileIdentity) (pid : Nat) (ws : MountWorkspace) (phase : MountPhase) : Prop where
  active : ∀ target, phase.target = some target → pid ∈ ws.processes
  marker : ∀ contents, (pid, contents) ∈ ws.markerDir ↔
    ∃ target, phase.registration = some target ∧ contents = syntheticMountMarkerContents target
  kind : ∀ target, phase.target = some target → target.kind = .emptyDirectory
  fresh : ∀ target identity, phase.target = some target → target.preExistingPath = some identity →
    identity.ino < ws.nextInode
  same : ∀ target identity, phase.target = some target → original = some identity →
    target.preExistingPath = some identity

abbrev MountsSound (original : Option FileIdentity) (s : MountSystem) : Prop :=
  Tasks.Keeps (WorkspaceSound original) (RunSound original) (fun _ _ => True) s

theorem mountsSound_new (original : Option FileIdentity) : MountsSound original (.new original) := by
  constructor
  · constructor
    · intro identity h
      have h' : original = some identity := h
      subst h'
      exact lt_succ_self _
    · exact fun identity h => h
  · intro pid
    refine ⟨fun _ h => (by cases h), fun contents => ⟨fun h => absurd h not_mem_nil, ?_⟩,
      fun _ h => (by cases h), fun _ _ h => (by cases h), fun _ _ h => (by cases h)⟩
    rintro ⟨target, h, -⟩
    cases h
  · exact fun _ _ _ => trivial

section

variable {original : Option FileIdentity} {path : AbsolutePath} {s s' : MountSystem} {pid : Nat}
  {ws : MountWorkspace} {phase : MountPhase} {target : SyntheticMountTarget}

variable (h : MountsSound original s)

include h in
theorem active_of_mem : ∀ entry ∈ s.shared.markerDir, entry.1 ∈ s.shared.processes := by
  intro entry hent
  obtain ⟨target, htgt, -⟩ := ((h.own entry.1).marker entry.2).mp hent
  exact (h.own entry.1).active target (MountPhase.target_of_registration htgt)

theorem RunSound.of_other {u : Nat} {old : MountWorkspace} (h : RunSound original u old phase)
    (hprocesses : u ∈ old.processes → u ∈ ws.processes)
    (hmks : ∀ contents, (u, contents) ∈ ws.markerDir ↔ (u, contents) ∈ old.markerDir)
    (hinode : old.nextInode ≤ ws.nextInode) : RunSound original u ws phase where
  active target ht := hprocesses (h.active target ht)
  marker contents := (hmks contents).trans (h.marker contents)
  kind := h.kind
  fresh target identity ht hpre := lt_of_lt_of_le (h.fresh target identity ht hpre) hinode
  same := h.same

include h in
theorem not_hasSyntheticOwner {identity : FileIdentity} (ho : original = some identity) :
    ¬s.shared.HasSyntheticOwner := by
  rintro ⟨u, hmk⟩
  obtain ⟨target, htgt, hconts⟩ := ((h.own u).marker _).mp hmk
  have hpre := (h.own u).same target identity (MountPhase.target_of_registration htgt) ho
  unfold syntheticMountMarkerContents SyntheticMountTarget.preservesPreExistingPath at hconts
  rw [hpre, if_pos Option.isSome_some] at hconts
  exact absurd hconts (by decide)

/-- What is known holds again when the run has moved. -/
def Kept (original : Option FileIdentity) (s : MountSystem) (pid : Nat) (ws : MountWorkspace) (phase : MountPhase) :
    Prop :=
  WorkspaceSound original ws ∧ RunSound original pid ws phase ∧
    ∀ u, u ≠ pid → RunSound original u ws (s.task u) ∧ True

include h in
theorem kept_inspect (hp : s.task pid = .notStarted) :
    Kept original s pid { s.shared with processes := insert pid s.shared.processes }
      (.inspected (s.shared.inspect path)) := by
  have hinspect : (s.shared.inspect path).kind = .emptyDirectory ∧
      (s.shared.inspect path).preExistingPath = s.shared.directory := by
    unfold inspect
    cases s.shared.directory with
    | none => exact ⟨rfl, rfl⟩
    | some identity => exact ⟨rfl, rfl⟩
  refine ⟨⟨h.shared.fresh, h.shared.same⟩, ?_, fun u hu => ⟨(h.own u).of_other ?_ (fun _ => Iff.rfl) ?_, trivial⟩⟩
  · have hown := h.own pid
    rw [hp] at hown
    refine ⟨fun _ _ => Finset.mem_insert_self _ _, fun contents => ?_, ?_, ?_, ?_⟩
    · refine (hown.marker contents).trans ⟨?_, ?_⟩
      · rintro ⟨target, htgt, -⟩
        cases htgt
      · rintro ⟨target, htgt, -⟩
        cases htgt
    · rintro target ht
      cases ht
      exact hinspect.1
    · rintro target identity ht hpre
      cases ht
      exact h.shared.fresh identity (hinspect.2.symm.trans hpre)
    · rintro target identity ht ho
      cases ht
      exact hinspect.2.trans (h.shared.same identity ho)
  · exact fun hmem => Finset.mem_insert_of_mem hmem
  · exact le_refl _

include h in
theorem kept_register (hp : s.task pid = .inspected target) :
    Kept original s pid (s.shared.register pid target).1 (.registered (s.shared.register pid target).2) := by
  have hown := h.own pid
  rw [hp] at hown
  obtain ⟨hws, hreg⟩ := register_eq pid (active_of_mem h) (hown.kind target rfl)
  rw [hws]
  generalize (s.shared.register pid target).2 = new at hreg
  refine ⟨⟨h.shared.fresh, h.shared.same⟩, ?_, fun u hu => ⟨(h.own u).of_other ?_ (fun _ => ?_) ?_, trivial⟩⟩
  · constructor
    · exact fun _ _ => hown.active target rfl
    · intro contents
      refine mem_write_self.trans ⟨fun h => ⟨new, rfl, h⟩, ?_⟩
      rintro ⟨new', hnew, hconts⟩
      cases hnew
      exact hconts
    · rintro new' hnew
      cases hnew
      cases hreg with
      | same => exact hown.kind target rfl
      | corrected => rfl
    · rintro new' identity hnew hpre
      cases hnew
      cases hreg with
      | same => exact hown.fresh target identity rfl hpre
      | corrected => cases hpre
    · rintro new' identity hnew ho
      cases hnew
      cases hreg with
      | same => exact hown.same target identity rfl ho
      | corrected hsynthetic => exact absurd hsynthetic (not_hasSyntheticOwner h ho)
  · exact id
  · exact mem_write_of_ne hu
  · exact le_refl _

theorem RunSound.next {phase' : MountPhase} (h : RunSound original pid ws phase)
    (htgt : phase'.target = phase.target) (hreg : phase'.registration = phase.registration)
    {ws' : MountWorkspace} (hprocesses : ws'.processes = ws.processes) (hmks : ws'.markerDir = ws.markerDir)
    (hinode : ws.nextInode ≤ ws'.nextInode) : RunSound original pid ws' phase' where
  active target ht := hprocesses ▸ h.active target (htgt ▸ ht)
  marker contents := by
    rw [hmks, hreg]
    exact h.marker contents
  kind target ht := h.kind target (htgt ▸ ht)
  fresh target identity ht hpre := lt_of_lt_of_le (h.fresh target identity (htgt ▸ ht) hpre) hinode
  same target identity ht := h.same target identity (htgt ▸ ht)

theorem startBwrap_frame (ws : MountWorkspace) :
    ws.startBwrap.processes = ws.processes ∧ ws.startBwrap.markerDir = ws.markerDir ∧
      ws.nextInode ≤ ws.startBwrap.nextInode := by
  unfold startBwrap
  split
  next => exact ⟨rfl, rfl, le_succ _⟩
  next => exact ⟨rfl, rfl, le_refl _⟩

theorem startBwrap_directory (ws : MountWorkspace) : ws.startBwrap.directory = ws.directory ∧ ws.directory ≠ none ∨
      ws.directory = none ∧ ws.startBwrap.directory = some ⟨ws.dev, ws.nextInode⟩ ∧
        ws.startBwrap.nextInode = ws.nextInode + 1 := by
  unfold startBwrap
  split
  next hnone => exact .inr ⟨hnone, rfl, rfl⟩
  next identity hsome => exact .inl ⟨rfl, by rw [hsome]; exact Option.some_ne_none _⟩

include h in
theorem kept_startBwrap (hp : s.task pid = .registered target) :
    Kept original s pid s.shared.startBwrap (.running target) := by
  obtain ⟨hprocesses, hmks, hinode⟩ := startBwrap_frame s.shared
  refine ⟨⟨fun identity hid => ?_, fun identity ho => ?_⟩, ?_, fun u hu => ⟨(h.own u).of_other ?_ (fun _ => ?_) hinode,
    trivial⟩⟩
  · rcases startBwrap_directory s.shared with ⟨hsame, -⟩ | ⟨-, hnew, hnext⟩
    · exact lt_of_lt_of_le (h.shared.fresh identity (hsame.symm.trans hid)) hinode
    · rw [hnew] at hid
      cases hid
      exact hnext ▸ lt_succ_self _
  · have hdir := h.shared.same identity ho
    rcases startBwrap_directory s.shared with ⟨hsame, -⟩ | ⟨hnone, -⟩
    · exact hsame.trans hdir
    · rw [hnone] at hdir
      cases hdir
  · exact (h.own pid).next (by rw [hp]; rfl) (by rw [hp]; rfl) hprocesses hmks hinode
  · exact fun hmem => hprocesses ▸ hmem
  · rw [hmks]

include h in
theorem kept_cleanUp (hp : s.task pid = .ended target) : Kept original s pid
      { s.shared.cleanUp pid target with processes := (s.shared.cleanUp pid target).processes.erase pid } .finished := by
  have hown := h.own pid
  rw [hp] at hown
  rw [cleanUp_eq pid (active_of_mem h) (hown.kind target rfl)]
  refine ⟨⟨fun identity hid => ?_, fun identity ho => ?_⟩, ?_, fun u hu => ⟨(h.own u).of_other ?_ (fun _ => ?_) ?_,
    trivial⟩⟩
  · dsimp only at hid
    split at hid
    next => cases hid
    next => exact h.shared.fresh identity hid
  · have hdir := h.shared.same identity ho
    have hpre := hown.same target identity rfl ho
    refine (if_neg fun hboth => hboth.2 ?_).trans hdir
    rw [hpre, hdir]
  · refine ⟨fun _ h => (by cases h), fun contents => ⟨fun hmem => ?_, ?_⟩,
      fun _ h => (by cases h), fun _ _ h => (by cases h), fun _ _ h => (by cases h)⟩
    · exact absurd rfl (mem_remove.mp hmem).2
    · rintro ⟨target, h, -⟩
      cases h
  · exact fun hmem => Finset.mem_erase.mpr ⟨hu, hmem⟩
  · exact mem_remove.trans ⟨And.left, fun hmem => ⟨hmem, hu⟩⟩
  · exact le_refl _

theorem kept_mountStep {a : MountStep} (h : MountsSound original s)
    (hstep : s.shared.step path pid (s.task pid) a = some (ws, phase)) : Kept original s pid ws phase := by
  generalize hp : s.task pid = p at hstep
  cases takes_of_step hstep with
  | inspect => exact kept_inspect h hp
  | register target => exact kept_register h hp
  | startBwrap target => exact kept_startBwrap h hp
  | endBwrap target =>
      exact ⟨h.shared, (h.own pid).next (by rw [hp]; rfl) (by rw [hp]; rfl) rfl rfl (le_refl _),
        fun u _ => ⟨h.own u, trivial⟩⟩
  | cleanUp target => exact kept_cleanUp h hp

theorem sound_mountMove {a : Nat × MountStep} (h : MountsSound original s) (hmove : MountMove path s a s') :
    MountsSound original s' :=
  h.of_move (fun _ _ _ => trivial) hmove fun _ _ hstep => kept_mountStep h hstep

end

end CodexStudy.Sandbox
