import CodexStudy.Sandbox.Theorems.SyntheticMounts

/-!
# What a call leaves of the protected paths

The clean-up leaves no target and no marker.
-/

namespace CodexStudy.Sandbox

open CodexStudy.Lib List CreateWorkspace CreateSystem
open CodexStudy.ApplyPatch (AbsolutePath)

/-- After the call no target and no marker of the process is there. -/
structure LeavesNothing (pid : Nat) (targets : List AbsolutePath) (s : CreateSystem) : Prop where
  entries : ∀ exit, s.call = .exited exit → ∀ target ∈ targets, s.ws.entries target = none
  markers : ∀ exit, s.call = .exited exit → ∀ hash contents, (pid, contents) ∉ s.ws.markerDirs hash

/-- A call that has removed or found a target does not exit with 0. -/
def FailsWhenFound (s : CreateSystem) : Prop :=
  ∀ exit, s.call = .exited exit → s.ws.found ≠ [] → exit ≠ .code 0

/-- When the final clean-up begins, the monitor has not removed a target. -/
def NothingRemoved (s : CreateSystem) (a : CreateStep) : Prop := a = .finish → s.ws.found = []

/-! ## The clean-up -/

section

variable {pid : Nat} {targets : List AbsolutePath} {target : AbsolutePath} {ws : CreateWorkspace}

def Marked (pid : Nat) (targets : List AbsolutePath) (ws : CreateWorkspace) : Prop :=
  ∀ hash, ws.markerDirs hash = if hash ∈ targets.map hashPath then [(pid, PROTECTED_CREATE_MARKER)] else []

theorem setMarkerDir_markerDirs (dir : MarkerDir) (hash : UInt64) :
    (ws.setMarkerDir target dir).markerDirs hash = if hash = hashPath target then dir else ws.markerDirs hash :=
  Function.update_apply ..

theorem register_markerDirs
    (h : ∀ hash, ws.markerDirs hash = [] ∨ ws.markerDirs hash = [(pid, PROTECTED_CREATE_MARKER)]) (hash : UInt64) :
    (ws.registerProtectedCreateTargets pid targets).markerDirs hash =
      if hash ∈ targets.map hashPath then [(pid, PROTECTED_CREATE_MARKER)] else ws.markerDirs hash := by
  unfold registerProtectedCreateTargets
  induction targets generalizing ws with
  | nil => rw [map_nil, if_neg not_mem_nil, foldl_nil]
  | cons target targets ih =>
      have hwr : (ws.markerDirs (hashPath target)).write pid PROTECTED_CREATE_MARKER =
          [(pid, PROTECTED_CREATE_MARKER)] := by
        rcases h (hashPath target) with hdir | hdir
        · rw [hdir]
          rfl
        · rw [hdir]
          simp [MarkerDir.write]
      rw [foldl_cons, hwr, ih, setMarkerDir_markerDirs, map_cons]
      · by_cases hhead : hash = hashPath target
        · rw [if_pos hhead, ite_self, if_pos (mem_cons.mpr (.inl hhead))]
        · rw [if_neg hhead]
          congr 1
          rw [mem_cons, eq_iff_iff]
          exact ⟨.inr, fun hmem => hmem.resolve_left hhead⟩
      · intro other
        rw [setMarkerDir_markerDirs]
        split
        next => exact .inr rfl
        next => exact h other

variable (h : ∀ hash, ws.markerDirs hash = [])

include h in
theorem marked_register :
    Marked pid targets (ws.registerProtectedCreateTargets pid targets) := by
  intro hash
  rw [register_markerDirs fun hash => .inl (h hash), h hash]

theorem register_frame : (ws.registerProtectedCreateTargets pid targets).entries = ws.entries ∧
      (ws.registerProtectedCreateTargets pid targets).found = ws.found := by
  unfold registerProtectedCreateTargets
  induction targets generalizing ws with
  | nil => exact ⟨rfl, rfl⟩
  | cons target targets ih => exact ih

theorem unregister_frame :
    (ws.unregister pid targets).entries = ws.entries ∧ (ws.unregister pid targets).found = ws.found := by
  unfold unregister
  induction targets with
  | nil => exact ⟨rfl, rfl⟩
  | cons target targets ih => exact ih

theorem remove_remove (dir : MarkerDir) : (dir.remove pid).remove pid = dir.remove pid := by
  unfold MarkerDir.remove
  rw [filter_filter]
  simp only [Bool.and_self]

theorem unregister_markerDirs (hash : UInt64) :
    (ws.unregister pid targets).markerDirs hash =
      if hash ∈ targets.map hashPath then (ws.markerDirs hash).remove pid else ws.markerDirs hash := by
  induction targets with
  | nil => rw [map_nil, if_neg not_mem_nil]; rfl
  | cons target targets ih =>
      have hcons : ws.unregister pid (target :: targets) =
          (ws.unregister pid targets).setMarkerDir target
            (((ws.unregister pid targets).markerDirs (hashPath target)).remove pid) := rfl
      rw [hcons, setMarkerDir_markerDirs, map_cons]
      by_cases hhead : hash = hashPath target
      · subst hhead
        rw [if_pos rfl, if_pos (mem_cons_self ..), ih]
        split
        next => exact remove_remove _
        next => rfl
      · rw [if_neg hhead, ih]
        congr 1
        rw [mem_cons, eq_iff_iff]
        exact ⟨.inr, fun hmem => hmem.resolve_left hhead⟩

theorem unregister_marked (h : Marked pid targets ws) (hash : UInt64) :
    (ws.unregister pid targets).markerDirs hash = [] := by
  rw [unregister_markerDirs, h hash]
  split
  next => simp [MarkerDir.remove]
  next => rfl

theorem tryRemove_entries (path : AbsolutePath) :
    (ws.tryRemoveProtectedCreateTarget target).1.entries path = if path = target then none else ws.entries path := by
  unfold tryRemoveProtectedCreateTarget
  split
  next hnone =>
    split
    next heq => rw [heq, hnone]
    next => rfl
  next => exact Function.update_apply ..

theorem tryRemove_found (h : (ws.tryRemoveProtectedCreateTarget target).2 = none) :
    (ws.tryRemoveProtectedCreateTarget target).1.found = ws.found := by
  unfold tryRemoveProtectedCreateTarget at h ⊢
  split
  next => rfl
  next hsome =>
    rw [hsome] at h
    cases h

theorem tryRemove_ne_nil {removal : ProtectedCreateRemoval}
    (h : (ws.tryRemoveProtectedCreateTarget target).2 = some removal) :
    (ws.tryRemoveProtectedCreateTarget target).1.found ≠ [] := by
  unfold tryRemoveProtectedCreateTarget at h ⊢
  split
  next hnone =>
    rw [hnone] at h
    cases h
  next => exact append_ne_nil_of_right_ne_nil _ (cons_ne_nil _ _)

theorem tryRemove_markerDirs : (ws.tryRemoveProtectedCreateTarget target).1.markerDirs = ws.markerDirs := by
  unfold tryRemoveProtectedCreateTarget
  split <;> rfl

structure CleanedUp (targets : List AbsolutePath) (ws ws' : CreateWorkspace) (violation : Bool) : Prop where
  markers : ∀ hash, ws'.markerDirs hash = []
  entries : ∀ path, ws'.entries path = if path ∈ targets then none else ws.entries path
  found : violation = false → ws'.found = ws.found

include h in
theorem cleanUpTarget_eq :
    CleanedUp [target] ws (ws.cleanUpTarget target).1 (ws.cleanUpTarget target).2 := by
  have hsame : ws.setMarkerDir target [] = ws := by
    unfold setMarkerDir
    rw [Function.update_eq_self_iff.mpr (h _).symm]
  have hclean : ws.cleanUpTarget target =
      ((ws.tryRemoveProtectedCreateTarget target).1, (ws.tryRemoveProtectedCreateTarget target).2.isSome) := by
    unfold cleanUpTarget
    rw [h]
    unfold markerDirHasActiveProcess markerDirHasActiveProcessMatching
    dsimp only
    rw [hsame]
    rfl
  rw [hclean]
  constructor
  · intro hash
    rw [tryRemove_markerDirs]
    exact h hash
  · intro path
    rw [tryRemove_entries]
    simp only [mem_singleton]
  · intro hnone
    exact tryRemove_found (by simpa using hnone)

include h in
theorem cleanUpTargets_eq :
    CleanedUp targets ws (ws.cleanUpTargets targets).1 (ws.cleanUpTargets targets).2 := by
  induction targets with
  | nil => exact ⟨h, fun path => (if_neg not_mem_nil).symm, fun _ => rfl⟩
  | cons target targets ih =>
      obtain ⟨hmks, hents, hfnd⟩ := ih
      have hone : CleanedUp [target] (ws.cleanUpTargets targets).1 _ _ := cleanUpTarget_eq hmks
      obtain ⟨hmks', hents', hfnd'⟩ := hone
      have hcons : ws.cleanUpTargets (target :: targets) =
          (((ws.cleanUpTargets targets).1.cleanUpTarget target).1,
            (ws.cleanUpTargets targets).2 || ((ws.cleanUpTargets targets).1.cleanUpTarget target).2) := rfl
      rw [hcons]
      constructor
      · exact hmks'
      · intro path
        rw [hents', hents]
        by_cases hhead : path = target
        · rw [if_pos (mem_singleton.mpr hhead), if_pos (mem_cons.mpr (.inl hhead))]
        · rw [if_neg fun hmem => hhead (mem_singleton.mp hmem)]
          congr 1
          rw [mem_cons, eq_iff_iff]
          exact ⟨.inr, fun hmem => hmem.resolve_left hhead⟩
      · intro hnone
        obtain ⟨hfst, hsecond⟩ := Bool.or_eq_false_iff.mp hnone
        exact (hfnd' hsecond).trans (hfnd hfst)

theorem cleanup_eq (h : Marked pid targets ws) : CleanedUp targets ws (ws.cleanupProtectedCreateTargets pid targets).1
      (ws.cleanupProtectedCreateTargets pid targets).2 := by
  have hall : CleanedUp targets (ws.unregister pid targets) _ _ := cleanUpTargets_eq (unregister_marked h)
  obtain ⟨hmks, hents, hfnd⟩ := hall
  refine ⟨hmks, fun path => ?_, fun hnone => ?_⟩
  · exact (hents path).trans (by rw [unregister_frame.1])
  · exact (hfnd hnone).trans unregister_frame.2

end

/-! ## The call -/

namespace CallPhase

def isRegistered : CallPhase → Bool
  | registered | running | waited _ | stopping _ | stopped _ _ => true
  | _ => false

def afterChild : CallPhase → Bool
  | waited _ | stopping _ | stopped _ _ | exited _ => true
  | _ => false

def afterMonitor : CallPhase → Bool
  | stopped _ _ | exited _ => true
  | _ => false

def beforeMonitor : CallPhase → Bool
  | start | registered => true
  | _ => false

end CallPhase

structure CreateSound (pid : Nat) (targets : List AbsolutePath) (s : CreateSystem) : Prop where
  unmarked : s.call = .start → ∀ hash, s.ws.markerDirs hash = []
  marked : s.call.isRegistered = true → Marked pid targets s.ws
  recorded : (∀ exit, s.call ≠ .exited exit) →
    (s.ws.found ≠ [] ↔ s.violation = true ∨ ∃ rest, s.monitor = .records rest)
  monitored : s.violation = true → s.monitor ≠ .notStarted
  protects : s.monitor ≠ .notStarted → targets ≠ []
  idle : s.call.beforeMonitor = true → s.monitor = .notStarted
  child : s.call.afterChild = true → ∃ status, s.child = .exited status
  joined : s.call.afterMonitor = true → s.monitor = .ended ∨ s.monitor = .notStarted
  reported : ∀ status violation, s.call = .stopped status violation → violation = s.violation

section

variable {pid : Nat} {targets : List AbsolutePath} {s s' : CreateSystem} {a : CreateStep}

theorem createSound_new : CreateSound pid targets (.new pid) := by
  constructor
  · exact fun _ _ => rfl
  · exact fun h => by cases h
  · refine fun _ => ⟨fun h => absurd rfl h, ?_⟩
    rintro (h | ⟨rest, h⟩)
    · cases h
    · cases h
  · exact fun h => by cases h
  · exact fun h => absurd rfl h
  · exact fun _ => rfl
  · exact fun h => by cases h
  · exact fun h => by cases h
  · exact fun _ _ h => by cases h

variable (h : CreateSound pid targets s) (hmove : CreateMove pid targets s a s')

include h in
theorem sound_register (hcall : s.call = .start) : CreateSound pid targets
      { s with ws := s.ws.registerProtectedCreateTargets pid targets, call := .registered } := by
  obtain ⟨hunmarked, -, hrec, hmonitored, hprotects, hidle, -, -, -⟩ := h
  constructor
  · exact fun h' => by cases h'
  · exact fun _ => marked_register (hunmarked hcall)
  · intro _
    have hlive : ∀ exit, s.call ≠ .exited exit := fun exit h' => by
      rw [hcall] at h'
      cases h'
    have hfnd : (s.ws.registerProtectedCreateTargets pid targets).found = s.ws.found := register_frame.2
    rw [← hfnd] at hrec
    exact hrec hlive
  · exact hmonitored
  · exact hprotects
  · exact fun _ => hidle (by rw [hcall]; rfl)
  · exact fun h' => by cases h'
  · exact fun h' => by cases h'
  · exact fun _ _ h' => by cases h'

include h in
theorem sound_start (hcall : s.call = .registered) :
    CreateSound pid targets
      { s with monitor := if targets.isEmpty then .notStarted else .checks, child := .running, call := .running } := by
  have hidle := h.idle (by rw [hcall]; rfl)
  have hviolation : s.violation ≠ true := fun hset => h.monitored hset hidle
  constructor
  · exact fun h' => by cases h'
  · exact fun _ => h.marked (by rw [hcall]; rfl)
  · refine fun _ => (h.recorded fun exit h' => by rw [hcall] at h'; cases h').trans (or_congr_right ?_)
    refine ⟨fun hrecords => ?_, fun hrecords => ?_⟩
    · obtain ⟨rest, hrecords⟩ := hrecords
      rw [hidle] at hrecords
      cases hrecords
    · obtain ⟨rest, hrecords⟩ := hrecords
      dsimp only at hrecords
      split at hrecords
      all_goals cases hrecords
  · exact fun hset => absurd hset hviolation
  · rintro hmonitor rfl
    exact hmonitor rfl
  · exact fun h' => by cases h'
  · exact fun h' => by cases h'
  · exact fun h' => by cases h'
  · exact fun _ _ h' => by cases h'

variable {violation : Bool} {status : WaitStatus}

include h in
theorem sound_of_monitor (hstarted : s.monitor ≠ .notStarted)
    (hend : s.monitor ≠ .ended) {ws : CreateWorkspace} {monitor : MonitorPhase}
    (hmks : ws.markerDirs = s.ws.markerDirs) (hmonitor : monitor ≠ .notStarted)
    (hrec : ws.found ≠ [] ↔ violation = true ∨ ∃ rest, monitor = .records rest) :
    CreateSound pid targets { s with ws, violation, monitor } := by
  have hbef : s.call.afterMonitor ≠ true := by
    intro haft
    rcases h.joined haft with h' | h'
    · exact hend h'
    · exact hstarted h'
  constructor
  · intro hcall hash
    exact (congrFun hmks hash).trans (h.unmarked hcall hash)
  · intro hcall hash
    exact (congrFun hmks hash).trans (h.marked hcall hash)
  · exact fun _ => hrec
  · exact fun _ => hmonitor
  · exact fun _ => h.protects hstarted
  · exact fun hcall => absurd (h.idle hcall) hstarted
  · exact h.child
  · exact fun hcall => absurd hcall hbef
  · intro status reported hcall
    have hcall' : s.call = .stopped status reported := hcall
    exact absurd (by rw [hcall']; rfl) hbef

include h in
theorem call_ne_exited (hstarted : s.monitor ≠ .notStarted)
    (hend : s.monitor ≠ .ended) (exit : ProcessExit) : s.call ≠ .exited exit := by
  intro hcall
  rcases h.joined (by rw [hcall]; rfl) with h' | h'
  · exact hend h'
  · exact hstarted h'

include h in
theorem sound_monitor (hmove : s.advanceMonitor targets = some s') :
    CreateSound pid targets s' ∧ ∀ exit, s'.call ≠ .exited exit := by
  have hact : s.monitor ≠ .notStarted ∧ s.monitor ≠ .ended := by
    unfold advanceMonitor at hmove
    constructor
    all_goals
      intro hph
      rw [hph] at hmove
      cases hmove
  have hcall := call_ne_exited h hact.1 hact.2
  have hrec := h.recorded hcall
  have hsil : (∀ rest, s.monitor ≠ .records rest) → (s.ws.found ≠ [] ↔ s.violation = true) := by
    intro hnot
    refine hrec.trans ⟨fun h' => h'.resolve_right ?_, .inl⟩
    rintro ⟨rest, h'⟩
    exact hnot rest h'
  have hsame : ∀ phase : MonitorPhase, (∀ rest, phase ≠ .records rest) →
      (s.violation = true ↔ s.violation = true ∨ ∃ rest, phase = .records rest) := by
    intro phase hnot
    refine ⟨.inl, fun h' => h'.resolve_right ?_⟩
    rintro ⟨rest, h'⟩
    exact hnot rest h'
  unfold advanceMonitor at hmove
  cases hph : s.monitor with
  | notStarted => exact absurd hph hact.1
  | ended => exact absurd hph hact.2
  | checks =>
      rw [hph] at hmove hsil
      cases hmove
      refine ⟨sound_of_monitor h hact.1 hact.2 rfl ?_ ?_, hcall⟩
      · split
        all_goals
          intro h'
          cases h'
      · refine (hsil fun rest h' => by cases h').trans (hsame _ fun rest h' => ?_)
        split at h'
        all_goals cases h'
  | removes remaining =>
      rw [hph] at hmove hsil
      have hviolation := hsil fun rest h' => by cases h'
      cases remaining with
      | nil =>
          cases hmove
          exact ⟨sound_of_monitor h hact.1 hact.2 rfl (by intro h'; cases h')
            (hviolation.trans (hsame _ fun rest h' => by cases h')), hcall⟩
      | cons target rest =>
          obtain rfl : { s with
              ws := (s.ws.tryRemoveProtectedCreateTarget target).1
              monitor := if (s.ws.tryRemoveProtectedCreateTarget target).2.isSome then .records rest
                else .removes rest } = s' := Option.some.inj hmove
          refine ⟨sound_of_monitor h hact.1 hact.2 tryRemove_markerDirs ?_ ?_, hcall⟩
          · split
            all_goals
              intro h'
              cases h'
          · cases hremoval : (s.ws.tryRemoveProtectedCreateTarget target).2 with
            | none =>
                rw [tryRemove_found hremoval]
                exact hviolation.trans (hsame _ fun rest h' => by cases h')
            | some removal => exact ⟨fun _ => .inr ⟨rest, rfl⟩, fun _ => tryRemove_ne_nil hremoval⟩
  | records rest =>
      have hfnd := hrec.mpr (.inr ⟨rest, hph⟩)
      rw [hph] at hmove
      cases hmove
      exact ⟨sound_of_monitor h hact.1 hact.2 rfl (by intro h'; cases h') ⟨fun _ => .inl rfl, fun _ => hfnd⟩,
        hcall⟩

include h in
theorem sound_of_call {call : CallPhase} (stop : Bool)
    (hregistered : s.call.isRegistered = true) (hcall : call.isRegistered = true) (hidle : call.beforeMonitor = false)
    (hch : ∃ status, s.child = .exited status)
    (hjoined : call.afterMonitor = true → s.monitor = .ended ∨ s.monitor = .notStarted)
    (hrepd : ∀ status violation, call = .stopped status violation → violation = s.violation) :
    CreateSound pid targets { s with stop, call } := by
  have hlive : ∀ exit, s.call ≠ .exited exit := by
    intro exit h'
    rw [h'] at hregistered
    cases hregistered
  constructor
  · rintro rfl
    cases hcall
  · exact fun _ => h.marked hregistered
  · exact fun _ => h.recorded hlive
  · exact h.monitored
  · exact h.protects
  · intro h'
    rw [hidle] at h'
    cases h'
  · exact fun _ => hch
  · exact hjoined
  · exact hrepd

include h hmove in
theorem sound_createMove (ha : a ≠ .finish) :
    CreateSound pid targets s' ∧ ∀ exit, s'.call ≠ .exited exit := by
  unfold CreateMove advance at hmove
  cases a with
  | finish => exact absurd rfl ha
  | register =>
      dsimp only at hmove
      split at hmove
      next hcall =>
        cases hmove
        exact ⟨sound_register h hcall, fun _ h' => by cases h'⟩
      next => cases hmove
  | start =>
      dsimp only at hmove
      split at hmove
      next hcall =>
        cases hmove
        exact ⟨sound_start h hcall, fun _ h' => by cases h'⟩
      next => cases hmove
  | monitor => exact sound_monitor h hmove
  | create path kind =>
      dsimp only at hmove
      split at hmove
      next hch _ =>
        cases hmove
        obtain ⟨hunmarked, hmkd, hrec, hmonitored, hprotects, hidle, haft, hjoined, hrepd⟩ := h
        refine ⟨⟨hunmarked, hmkd, hrec, hmonitored, hprotects, hidle, haft, hjoined, hrepd⟩,
          ?_⟩
        intro exit hcall
        obtain ⟨status, hexited⟩ := haft (by rw [show s.call = .exited exit from hcall]; rfl)
        rw [hch] at hexited
        cases hexited
      next => cases hmove
  | exitChild status =>
      dsimp only at hmove
      split at hmove
      next hch =>
        cases hmove
        obtain ⟨hunmarked, hmkd, hrec, hmonitored, hprotects, hidle, haft, hjoined, hrepd⟩ := h
        refine ⟨⟨hunmarked, hmkd, hrec, hmonitored, hprotects, hidle, fun _ => ⟨status, rfl⟩, hjoined,
          hrepd⟩, ?_⟩
        intro exit hcall
        obtain ⟨status, hexited⟩ := haft (by rw [show s.call = .exited exit from hcall]; rfl)
        rw [hch] at hexited
        cases hexited
      next => cases hmove
  | wait =>
      dsimp only at hmove
      split at hmove
      next status hcall hch =>
        cases hmove
        exact ⟨sound_of_call h s.stop (by rw [hcall]; rfl) rfl rfl ⟨status, hch⟩ (fun h' => (by cases h'))
          fun _ _ h' => (by cases h'), fun _ h' => (by cases h')⟩
      next => cases hmove
  | stop =>
      dsimp only at hmove
      split at hmove
      next status hcall =>
        cases hmove
        exact ⟨sound_of_call h true (by rw [hcall]; rfl) rfl rfl (h.child (by rw [hcall]; rfl))
          (fun h' => (by cases h')) fun _ _ h' => (by cases h'), fun _ h' => (by cases h')⟩
      next => cases hmove
  | join =>
      dsimp only at hmove
      split at hmove
      next status hcall hmonitor =>
        cases hmove
        refine ⟨sound_of_call h s.stop (by rw [hcall]; rfl) rfl rfl (h.child (by rw [hcall]; rfl))
          (fun _ => .inr hmonitor) fun _ _ h' => ?_, fun _ h' => by cases h'⟩
        cases h'
        by_contra hviolation
        exact h.monitored (by simpa using Ne.symm hviolation) hmonitor
      next status hcall hmonitor =>
        cases hmove
        refine ⟨sound_of_call h s.stop (by rw [hcall]; rfl) rfl rfl (h.child (by rw [hcall]; rfl))
          (fun _ => .inl hmonitor) fun _ _ h' => ?_, fun _ h' => by cases h'⟩
        cases h'
        rfl
      next => cases hmove

theorem finish_of_move (hmove : CreateMove pid targets s .finish s') :
    ∃ status violation, s.call = .stopped status violation ∧ s' = s.finish pid targets status violation := by
  unfold CreateMove advance at hmove
  dsimp only at hmove
  split at hmove
  next status violation hcall => exact ⟨status, violation, hcall, (Option.some.inj hmove).symm⟩
  next => cases hmove

include h in
theorem sound_finish (hmove : CreateMove pid targets s .finish s') :
    CreateSound pid targets s' := by
  obtain ⟨status, violation, hcall, rfl⟩ := finish_of_move hmove
  constructor
  · exact fun h' => by cases h'
  · exact fun h' => by cases h'
  · exact fun h' => absurd rfl (h' _)
  · exact h.monitored
  · exact h.protects
  · exact fun h' => by cases h'
  · exact fun _ => h.child (by rw [hcall]; rfl)
  · exact fun _ => h.joined (by rw [hcall]; rfl)
  · exact fun _ _ h' => by cases h'

include h hmove in
theorem sound_of_move :
    CreateSound pid targets s' := by
  by_cases ha : a = .finish
  · subst ha
    exact sound_finish h hmove
  · exact (sound_createMove h hmove ha).1

theorem exit_ne_zero (status : WaitStatus) : exitWithWaitStatusOrPolicyViolation status true ≠ .code 0 := by
  unfold exitWithWaitStatusOrPolicyViolation
  split
  next =>
    intro h
    cases h
  next hzero =>
    cases status with
    | exited code =>
        intro h
        cases h
        exact hzero rfl
    | signaled signal => intro h; cases h
    | other => intro h; cases h

include h in
theorem found_iff (hcall : s.call = .stopped status violation) : s.ws.found ≠ [] ↔ violation = true := by
  have hrec := h.recorded fun exit h' => by rw [hcall] at h'; cases h'
  rw [h.reported status violation hcall]
  refine hrec.trans ⟨fun h' => h'.resolve_right ?_, .inl⟩
  rintro ⟨rest, hrecords⟩
  rcases h.joined (by rw [hcall]; rfl) with hmonitor | hmonitor
  · rw [hmonitor] at hrecords
    cases hrecords
  · rw [hmonitor] at hrecords
    cases hrecords

include h in
theorem cleared_finish
    (hcall : s.call = .stopped status false) : LeavesNothing pid targets (s.finish pid targets status false) := by
  obtain ⟨hmks, hents, -⟩ := cleanup_eq (h.marked (by rw [hcall]; rfl))
  constructor
  · exact fun _ _ target htgt => (hents target).trans (if_pos htgt)
  · intro _ _ hash contents hmem
    have hmem' : (pid, contents) ∈ (s.ws.cleanupProtectedCreateTargets pid targets).1.markerDirs hash := hmem
    rw [hmks hash] at hmem'
    exact not_mem_nil hmem'

include h in
theorem not_cleared_finish
    (hcall : s.call = .stopped status true) : ¬LeavesNothing pid targets (s.finish pid targets status true) := by
  intro hleaves
  have htargets := h.protects (h.monitored (h.reported status true hcall).symm)
  obtain ⟨target, htgt⟩ := exists_mem_of_ne_nil _ htargets
  refine hleaves.markers _ rfl (hashPath target) PROTECTED_CREATE_MARKER ?_
  have hmkd := h.marked (by rw [hcall]; rfl) (hashPath target)
  rw [if_pos (mem_map_of_mem htgt)] at hmkd
  exact hmkd ▸ mem_singleton_self _

include h in
theorem fails_finish
    (hcall : s.call = .stopped status violation) : FailsWhenFound (s.finish pid targets status violation) := by
  intro exit hexit hne
  cases hexit
  cases violation with
  | true => exact exit_ne_zero status
  | false =>
      have hqt : s.ws.found = [] := by
        by_contra hfnd
        cases (found_iff h hcall).mp hfnd
      have hcleaned := (cleanup_eq (h.marked (by rw [hcall]; rfl))).found
      cases hviolation : (s.ws.cleanupProtectedCreateTargets pid targets).2 with
      | false => exact absurd ((hcleaned hviolation).trans hqt) hne
      | true =>
          have hzero := exit_ne_zero status
          rw [← hviolation] at hzero
          exact hzero

include h hmove in
theorem leavesNothing_move :
    LeavesNothing pid targets s' ↔ NothingRemoved s a := by
  by_cases ha : a = .finish
  · subst ha
    obtain ⟨status, violation, hcall, rfl⟩ := finish_of_move hmove
    have hfnd := found_iff h hcall
    unfold NothingRemoved
    cases violation with
    | true => exact iff_of_false (not_cleared_finish h hcall) fun hnil => hfnd.mpr rfl (hnil rfl)
    | false => exact iff_of_true (cleared_finish h hcall) fun _ => by_contra fun hne => by cases hfnd.mp hne
  · have hlive := (sound_createMove h hmove ha).2
    exact iff_of_true ⟨fun exit hcall => absurd hcall (hlive exit), fun exit hcall => absurd hcall (hlive exit)⟩
      fun hfinish => absurd hfinish ha

include h hmove in
theorem fails_move : FailsWhenFound s' := by
  by_cases ha : a = .finish
  · subst ha
    obtain ⟨status, violation, hcall, rfl⟩ := finish_of_move hmove
    exact fails_finish h hcall
  · exact fun exit hcall => absurd hcall ((sound_createMove h hmove ha).2 exit)

end

/-- In a run of a call no target and no marker outlives it exactly when the monitor removed no target before the
clean-up begins. In every run the call fails when a target was removed or found. -/
theorem leavesNothing_iff (pid : Nat) (targets : List AbsolutePath) (steps : List CreateStep) :
    (StatesMeet (CreateMove pid targets) (LeavesNothing pid targets) (.new pid) steps ↔
      StepsMeet (CreateMove pid targets) NothingRemoved (.new pid) steps) ∧
    StatesMeet (CreateMove pid targets) FailsWhenFound (.new pid) steps := by
  constructor
  · have hnew : CreateSound pid targets (.new pid) ∧ LeavesNothing pid targets (.new pid) :=
      ⟨createSound_new, fun _ h => (by cases h), fun _ h => (by cases h)⟩
    refine statesMeet_iff_stepsMeet (I := fun s => CreateSound pid targets s ∧ LeavesNothing pid targets s)
      (J := CreateSound pid targets) steps hnew ?_ (fun _ hs => hs.2) createSound_new
      (fun _ _ _ hs hmove => sound_of_move hs hmove)
      fun _ _ _ hs _ hmove hleaves => (leavesNothing_move hs hmove).mp hleaves
    intro s a s' hs hgd hmove
    exact ⟨sound_of_move hs.1 hmove, (leavesNothing_move hs.1 hmove).mpr hgd⟩
  · intro past s _ hrun
    have hnew : CreateSound pid targets (.new pid) ∧ FailsWhenFound (.new pid) :=
      ⟨createSound_new, fun _ h => (by cases h)⟩
    have hlast : CreateSound pid targets s ∧ FailsWhenFound s :=
      hrun.invariant (I := fun s => CreateSound pid targets s ∧ FailsWhenFound s) hnew fun _ _ _ hs hmove =>
        ⟨sound_of_move hs.1 hmove, fails_move hs.1 hmove⟩
    exact hlast.2

/-! ## A target that is created twice -/

def createdTwice : List CreateStep :=
  [.register, .start, .monitor, .create examplePath .directory, .monitor, .monitor, .create examplePath .directory,
    .exitChild (.exited 0), .wait, .stop, .monitor, .monitor, .join, .finish]

theorem created_outlives : ¬∀ pid targets steps, StatesMeet (CreateMove pid targets)
      (fun s => LeavesNothing pid targets s ∧ FailsWhenFound s) (.new pid) steps := by
  intro h
  have hstt : ∃ s, createdTwice.foldlM (advance 7 [examplePath]) (new 7) = some s ∧
      s.call = .exited (.code 1) ∧ s.ws.entries examplePath = some .directory := ⟨_, rfl, rfl, rfl⟩
  obtain ⟨s, hsts, hcall, hent⟩ := hstt
  have hrun : Run (CreateMove 7 [examplePath]) (.new 7) createdTwice s := .of_foldlM hsts
  have hnone := (h 7 [examplePath] createdTwice createdTwice s prefix_rfl hrun).1.entries _ hcall examplePath
    (mem_singleton_self _)
  rw [hent] at hnone
  cases hnone

end CodexStudy.Sandbox
