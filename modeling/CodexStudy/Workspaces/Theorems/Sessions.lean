import CodexStudy.Workspaces.Sessions

/-!
# Sessions and their processes

Each process that is alive belongs to a workspace, and no workspace has a session that was killed, exactly when no
call drops a live session that it does not kill.
-/

namespace CodexStudy.Workspaces

open CodexStudy.Lib List SessionStore HashMap Option SessionSystem

/-! ## What is asked of the sessions -/

/-- The session that the running call has spawned and not yet given to a workspace. -/
def SessionPhase.spawned : SessionPhase → Option Nat
  | addWrites _ session true => some session.ptr
  | _ => none

/-- Each live process is that of a workspace, or of the call that has just spawned it. -/
structure ProcessesHeld (s : SessionSystem) : Prop where
  live : ∀ ptr, s.store.processes[ptr]? = some .alive →
    (∃ id session, s.store.sessions.lookup id = some session ∧ session.ptr = ptr) ∨ s.phase.spawned = some ptr
  kept : ∀ id session, s.store.sessions.lookup id = some session → s.store.processes[session.ptr]? ≠ some .killed

/-- A workspace connected again has no live session of another home; replaced sessions are dead or the killed one. -/
def KeepsProcesses (s : SessionSystem) (a : SessionStep) : Prop :=
  match s.phase, a with
  | .connects request, .go => ∀ existing, s.store.sessions.lookup request.id = some existing →
      s.store.sessionProcessIsAlive existing = true → existing.matchesCodexHome request.codexHome = true
  | .setsSpawns _ currentSession, .go => ∀ id session, s.store.sessions.lookup id = some session →
      s.store.sessionProcessIsAlive session = true → session.ptr = currentSession.ptr
  | _, _ => True

/-! ## The invariant -/

structure SessionsSound (store : SessionStore) (spawned : Option Nat) : Prop where
  live : ∀ ptr, store.processes[ptr]? = some .alive →
    (∃ id session, store.sessions.lookup id = some session ∧ session.ptr = ptr) ∨ spawned = some ptr
  kept : ∀ id session, store.sessions.lookup id = some session → store.processes[session.ptr]? ≠ some .killed
  bounded : ∀ id session, store.sessions.lookup id = some session → session.ptr < store.processes.length

def PhaseSound (store : SessionStore) : SessionPhase → Prop
  | .connectTakesShared request | .connectSpawns request | .addTakesShared request | .addSpawns request =>
      store.sessions.lookup request.id = none
  | .addWrites id session spawnedNewSession =>
      store.sessions.lookup id = none ∧ session.ptr < store.processes.length ∧
        store.processes[session.ptr]? ≠ some .killed ∧
        (spawnedNewSession = true → ∀ id other, store.sessions.lookup id = some other → other.ptr ≠ session.ptr)
  | .setsSpawns _ currentSession => ∃ id, store.sessions.lookup id = some currentSession
  | _ => True

structure SystemSound (s : SessionSystem) : Prop where
  store : SessionsSound s.store s.phase.spawned
  phase : PhaseSound s.store s.phase

theorem systemSound_new : SystemSound .new where
  store := by constructor <;> simp [new]
  phase := trivial

theorem SystemSound.held {s : SessionSystem} (h : SystemSound s) : ProcessesHeld s := ⟨h.store.live, h.store.kept⟩

/-! ## Operations on the sessions -/

section

variable {store : SessionStore} {spawned : Option Nat} {session : WorkspaceSession} {id id' : Text}

theorem sessionProcessIsAlive_iff :
    store.sessionProcessIsAlive session = true ↔ store.processes[session.ptr]? = some .alive := beq_iff_eq

theorem lookup_removeSessionReferences {other : WorkspaceSession} :
    (store.removeSessionReferences session).sessions.lookup id = some other ↔
      store.sessions.lookup id = some other ∧ other.ptr ≠ session.ptr := by
  rw [removeSessionReferences, lookup_retainValues_eq_some, bne_iff_ne]

variable (h : SessionsSound store spawned)

include h in
theorem SessionsSound.removeReferences
    (hdead : store.sessionProcessIsAlive session = false) :
    SessionsSound (store.removeSessionReferences session) spawned where
  live ptr hlive := by
    have hprocess : store.processes[ptr]? = some .alive := hlive
    refine (h.live ptr hprocess).imp_left ?_
    rintro ⟨id, other, hoth, rfl⟩
    refine ⟨id, other, lookup_removeSessionReferences.mpr ⟨hoth, fun hptr => ?_⟩, rfl⟩
    rw [hptr, ← sessionProcessIsAlive_iff, hdead] at hprocess
    cases hprocess
  kept id other hoth := h.kept id other (lookup_removeSessionReferences.mp hoth).1
  bounded id other hoth := h.bounded id other (lookup_removeSessionReferences.mp hoth).1

theorem lookup_removeSessionReferences_eq_none (h : store.sessions.lookup id = none) :
    (store.removeSessionReferences session).sessions.lookup id = none := by
  rw [eq_none_iff_forall_not_mem] at h ⊢
  exact fun other hoth => h other (lookup_removeSessionReferences.mp hoth).1

theorem getElem?_set_killed {processes : List ProcessState} {ptr ptr' : Nat} (hne : ptr' ≠ ptr) :
    (processes.set ptr .killed)[ptr']? = processes[ptr']? := getElem?_set_ne hne.symm

include h in
theorem SessionsSound.killChild
    (hspawned : spawned = none ∨ spawned = some session.ptr)
    (hunused : ∀ id other, store.sessions.lookup id = some other → other.ptr ≠ session.ptr) :
    SessionsSound (store.killChildProcessTree session) none where
  live ptr hlive := by
    have hne : ptr ≠ session.ptr := by
      rintro rfl
      simp only [killChildProcessTree, getElem?_set, ↓reduceIte] at hlive
      split at hlive <;> cases hlive
    simp only [killChildProcessTree, getElem?_set_killed hne] at hlive
    rcases h.live ptr hlive with hused | hnew
    · exact .inl hused
    · rcases hspawned with rfl | rfl
      · cases hnew
      · exact absurd (some.inj hnew).symm hne
  kept id other hoth := by
    simp only [killChildProcessTree, getElem?_set_killed (hunused id other hoth)]
    exact h.kept id other hoth
  bounded id other hoth := by
    simp only [killChildProcessTree, length_set]
    exact h.bounded id other hoth

include h in
theorem SessionsSound.insert (hspawned : spawned = none ∨ spawned = some session.ptr)
    (hvac : store.sessions.lookup id = none) (hkept : store.processes[session.ptr]? ≠ some .killed)
    (hbd : session.ptr < store.processes.length) : SessionsSound (store.insertSession id session) none where
  live ptr hlive := by
    rcases h.live ptr hlive with ⟨other, found, hfnd, rfl⟩ | hnew
    · have hne : other ≠ id := by
        rintro rfl
        rw [hvac] at hfnd
        cases hfnd
      exact .inl ⟨other, found, (AList.lookup_insert_ne hne).trans hfnd, rfl⟩
    · rcases hspawned with rfl | rfl
      · cases hnew
      · exact .inl ⟨id, session, AList.lookup_insert _, some.inj hnew⟩
  kept other found hfnd := by
    rw [insertSession, lookup_insert_eq] at hfnd
    split at hfnd
    next => cases hfnd; exact hkept
    next => exact h.kept other found hfnd
  bounded other found hfnd := by
    rw [insertSession, lookup_insert_eq] at hfnd
    split at hfnd
    next => cases hfnd; exact hbd
    next => exact h.bounded other found hfnd

theorem lookup_killSessionById {other : WorkspaceSession}
    (h : (store.killSessionById id).sessions.lookup id' = some other) : store.sessions.lookup id' = some other := by
  unfold killSessionById at h
  cases hfnd : store.sessions.lookup id with
  | none =>
      rw [hfnd] at h
      exact h
  | some found =>
      simp only [hfnd] at h
      split at h
      next => exact lookup_of_lookup_erase h
      next => exact lookup_of_lookup_erase h

theorem lookup_killSessionById_eq_none (h : store.sessions.lookup id' = none) :
    (store.killSessionById id).sessions.lookup id' = none := by
  rw [eq_none_iff_forall_not_mem] at h ⊢
  exact fun other hoth => h other (lookup_killSessionById hoth)

theorem SessionsSound.killById (h : SessionsSound store none) (id : Text) :
    SessionsSound (store.killSessionById id) none := by
  unfold killSessionById
  cases hfnd : store.sessions.lookup id with
  | none => exact h
  | some found =>
      dsimp only
      have hrem (ptr : Nat) (hptr : ptr ≠ found.ptr) (hlive : store.processes[ptr]? = some .alive) :
          ∃ id' other, (store.sessions.erase id).lookup id' = some other ∧ other.ptr = ptr := by
        obtain ⟨id', other, hoth, rfl⟩ := (h.live ptr hlive).resolve_right nofun
        have hne : id' ≠ id := by
          rintro rfl
          rw [hfnd] at hoth
          exact hptr (congrArg WorkspaceSession.ptr (some.inj hoth)).symm
        exact ⟨id', other, (AList.lookup_erase_ne hne).trans hoth, rfl⟩
      split
      next hused =>
        obtain ⟨⟨id', other⟩, hmem, hptr⟩ := any_eq_true.mp hused
        have hoth : (store.sessions.erase id).lookup id' = some other := AList.mem_lookup_iff.mpr hmem
        refine ⟨fun ptr hlive => .inl ?_, fun id' other hoth => ?_, fun id' other hoth => ?_⟩
        · by_cases hsame : ptr = found.ptr
          · exact ⟨id', other, hoth, (beq_iff_eq.mp hptr).trans hsame.symm⟩
          · exact hrem ptr hsame hlive
        · exact h.kept id' other (lookup_of_lookup_erase hoth)
        · exact h.bounded id' other (lookup_of_lookup_erase hoth)
      next hunused =>
        have hunusedBy : ∀ id' other, (store.sessions.erase id).lookup id' = some other → other.ptr ≠ found.ptr := by
          intro id' other hoth hptr
          exact hunused (any_eq_true.mpr ⟨⟨id', other⟩, AList.mem_lookup_iff.mp hoth, beq_iff_eq.mpr hptr⟩)
        have herased : SessionsSound { store with sessions := store.sessions.erase id } (some found.ptr) := by
          refine ⟨fun ptr hlive => ?_, fun id' other hoth => ?_, fun id' other hoth => ?_⟩
          · by_cases hsame : ptr = found.ptr
            · exact .inr (congrArg some hsame.symm)
            · exact .inl (hrem ptr hsame hlive)
          · exact h.kept id' other (lookup_of_lookup_erase hoth)
          · exact h.bounded id' other (lookup_of_lookup_erase hoth)
        exact herased.killChild (.inr rfl) hunusedBy

theorem SessionsSound.spawn (h : SessionsSound store none) (request : SpawnRequest) :
    SessionsSound (store.spawnSession request).1 (some (store.spawnSession request).2.ptr) where
  live ptr hlive := by
    by_cases hptr : ptr < store.processes.length
    · have hold : store.processes[ptr]? = some .alive := by
        rwa [← getElem?_append_left hptr]
      exact .inl ((h.live ptr hold).resolve_right nofun)
    · have hlen := (List.getElem?_eq_some_iff.mp hlive).1
      simp only [spawnSession, length_append, length_singleton] at hlen
      exact .inr (congrArg some (show store.processes.length = ptr by omega))
  kept id other hoth := by
    have hold := h.kept id other hoth
    rwa [← getElem?_append_left (h.bounded id other hoth)] at hold
  bounded id other hoth := by
    have hold := h.bounded id other hoth
    simp only [spawnSession, length_append, length_singleton]
    omega

theorem spawnSession_new (h : SessionsSound store none) (request : SpawnRequest) :
    (store.spawnSession request).2.ptr < (store.spawnSession request).1.processes.length ∧
      (store.spawnSession request).1.processes[(store.spawnSession request).2.ptr]? ≠ some .killed ∧
      ∀ id other, store.sessions.lookup id = some other → other.ptr ≠ (store.spawnSession request).2.ptr := by
  refine ⟨by simp [spawnSession], by simp [spawnSession], fun id other hoth => ?_⟩
  exact (h.bounded id other hoth).ne

include h in
theorem SessionsSound.exits (ptr : Nat) :
    SessionsSound (store.exits ptr) spawned := by
  unfold SessionStore.exits
  split
  next hrunning =>
    refine ⟨fun ptr' hlive => ?_, fun id other hoth hkilled => ?_, fun id other hoth => ?_⟩
    · rw [getElem?_set] at hlive
      split at hlive
      next => split at hlive <;> cases hlive
      next => exact h.live ptr' hlive
    · rw [getElem?_set] at hkilled
      split at hkilled
      next => split at hkilled <;> cases hkilled
      next => exact h.kept id other hoth hkilled
    · rw [length_set]
      exact h.bounded id other hoth
  next => exact h

theorem SessionsSound.replace (h : SessionsSound store none) (request : SpawnRequest)
    (hused : store.sessions.lookup id = some session)
    (honly : ∀ id other, store.sessions.lookup id = some other → store.sessionProcessIsAlive other = true →
      other.ptr = session.ptr) : SessionsSound ({ (store.spawnSession request).1 with
      sessions := store.sessions.setAll (store.spawnSession request).2 }.killChildProcessTree session) none := by
  have hspawned := h.spawn request
  obtain ⟨hbd, hkept, hnew⟩ := spawnSession_new h request
  have hreplaced : SessionsSound { (store.spawnSession request).1 with
      sessions := store.sessions.setAll (store.spawnSession request).2 } (some session.ptr) := by
    refine ⟨fun ptr hlive => ?_, fun id' other hoth => ?_, fun id' other hoth => ?_⟩
    · rcases hspawned.live ptr hlive with ⟨id', other, hoth, rfl⟩ | hptr
      · have hold : store.sessionProcessIsAlive other = true := by
          rw [sessionProcessIsAlive_iff, ← getElem?_append_left (h.bounded id' other hoth)]
          exact hlive
        exact .inr (congrArg some (honly id' other hoth hold).symm)
      · exact .inl ⟨id, _, by rw [lookup_setAll, hused]; rfl, some.inj hptr⟩
    · rw [lookup_setAll, map_eq_some_iff] at hoth
      obtain ⟨-, -, rfl⟩ := hoth
      exact hkept
    · rw [lookup_setAll, map_eq_some_iff] at hoth
      obtain ⟨-, -, rfl⟩ := hoth
      exact hbd
  refine hreplaced.killChild (.inr rfl) fun id' other hoth => ?_
  rw [lookup_setAll, map_eq_some_iff] at hoth
  obtain ⟨-, -, rfl⟩ := hoth
  exact (hnew id session hused).symm

end

/-! ## Steps -/

section

variable {s s' : SessionSystem} {a : SessionStep}

theorem SystemSound.call (h : SystemSound s) {call : SessionCall} (hidle : s.phase = .idle)
    (hfr : call.idIsFresh s.store = true) : SystemSound ⟨s.store, call.phase⟩ := by
  have hsto := h.store
  rw [hidle] at hsto
  cases call with
  | addWorkspace request => exact ⟨hsto, isNone_iff_eq_none.mp hfr⟩
  | connectWorkspace request | setWorkspaceRuntimeCodexArgs codexArgsOverride request | killSessionById id =>
      exact ⟨hsto, trivial⟩

variable {phase : SessionPhase} {store : SessionStore} {next : SessionStore × SessionPhase}

theorem SystemSound.goFirst {session : WorkspaceSession} {key : Text} (h : SystemSound ⟨store, phase⟩)
    (hfst : store.sessions.lookup key = some session) (hgo : store.goFirst session phase = some next) :
    SystemSound ⟨next.1, next.2⟩ := by
  have hsto := h.store
  have hph := h.phase
  have hkept := hsto.kept key session hfst
  have hbd := hsto.bounded key session hfst
  cases phase with
  | connectTakesShared request =>
      simp only [goFirst] at hgo
      split at hgo
      next =>
        split at hgo
        next =>
          cases hgo
          exact ⟨hsto.insert (.inl rfl) hph hkept hbd, trivial⟩
        next =>
          cases hgo
          exact ⟨hsto.killById _, lookup_killSessionById_eq_none hph⟩
      next hdead =>
        cases hgo
        exact ⟨hsto.removeReferences (by simpa using hdead), lookup_removeSessionReferences_eq_none hph⟩
  | addTakesShared request =>
      simp only [goFirst] at hgo
      split at hgo
      next =>
        cases hgo
        exact ⟨hsto, hph, hbd, hkept, nofun⟩
      next hdead =>
        cases hgo
        exact ⟨hsto.removeReferences (by simpa using hdead), lookup_removeSessionReferences_eq_none hph⟩
  | setsArgs request =>
      simp only [goFirst] at hgo
      split at hgo
      next =>
        cases hgo
        exact ⟨hsto, trivial⟩
      next =>
        split at hgo
        next =>
          cases hgo
          exact ⟨hsto, trivial⟩
        next =>
          cases hgo
          exact ⟨hsto, key, hfst⟩
  | _ => cases hgo

theorem SystemSound.goNoSession (h : SystemSound ⟨store, phase⟩)
    (hgo : store.goNoSession phase = some next) : SystemSound ⟨next.1, next.2⟩ := by
  have hsto := h.store
  have hph := h.phase
  cases phase with
  | connectTakesShared request | addTakesShared request =>
      cases hgo
      exact ⟨hsto, hph⟩
  | setsArgs request =>
      cases hgo
      exact ⟨hsto, trivial⟩
  | _ => cases hgo

theorem SystemSound.go (h : SystemSound ⟨store, phase⟩) (hkps : KeepsProcesses ⟨store, phase⟩ .go)
    (hgo : store.go phase = some next) : SystemSound ⟨next.1, next.2⟩ := by
  have hsto := h.store
  have hph := h.phase
  cases phase with
  | connects request =>
      simp only [go] at hgo
      cases hfnd : store.sessions.lookup request.id with
      | none =>
          rw [hfnd] at hgo
          cases hgo
          exact ⟨hsto, hfnd⟩
      | some existing =>
          simp only [hfnd] at hgo
          split at hgo
          next =>
            cases hgo
            exact ⟨hsto, trivial⟩
          next hdropped =>
            cases hgo
            have hdead : store.sessionProcessIsAlive existing = false := by
              by_contra hlive
              rw [Bool.not_eq_false] at hlive
              exact hdropped (Bool.and_eq_true_iff.mpr ⟨hlive, hkps existing hfnd hlive⟩)
            refine ⟨hsto.removeReferences hdead, eq_none_iff_forall_not_mem.mpr fun other hoth => ?_⟩
            obtain ⟨hsame, hne⟩ := lookup_removeSessionReferences.mp hoth
            rw [hfnd] at hsame
            exact hne (congrArg WorkspaceSession.ptr (some.inj hsame)).symm
  | connectSpawns request =>
      cases hgo
      obtain ⟨hbd, hkept, -⟩ := spawnSession_new hsto request
      exact ⟨(hsto.spawn request).insert (.inr rfl) hph hkept hbd, trivial⟩
  | addSpawns request =>
      cases hgo
      obtain ⟨hbd, hkept, hnew⟩ := spawnSession_new hsto request
      exact ⟨hsto.spawn request, hph, hbd, hkept, fun _ => hnew⟩
  | addWrites id session spawnedNewSession =>
      cases hgo
      obtain ⟨hvac, hbd, hkept, -⟩ := hph
      refine ⟨hsto.insert ?_ hvac hkept hbd, trivial⟩
      cases spawnedNewSession with
      | false => exact .inl rfl
      | true => exact .inr rfl
  | setsSpawns request currentSession =>
      cases hgo
      obtain ⟨id, hused⟩ := hph
      exact ⟨hsto.replace request hused hkps, trivial⟩
  | kills id =>
      cases hgo
      exact ⟨hsto.killById id, trivial⟩
  | _ => cases hgo

theorem SystemSound.fail (h : SystemSound ⟨store, phase⟩)
    (hfail : store.fail phase = some next) : SystemSound ⟨next.1, next.2⟩ := by
  have hsto := h.store
  have hph := h.phase
  cases phase with
  | addWrites id session spawnedNewSession =>
      cases hfail
      obtain ⟨-, -, -, hnew⟩ := hph
      cases spawnedNewSession with
      | false => exact ⟨hsto, trivial⟩
      | true => exact ⟨hsto.killChild (.inr rfl) (hnew rfl), trivial⟩
  | connects request | connectSpawns request | addSpawns request | setsArgs request
  | setsSpawns request currentSession =>
      cases hfail
      exact ⟨hsto, trivial⟩
  | _ => cases hfail

theorem phaseSound_exits (h : PhaseSound store phase) (ptr : Nat) : PhaseSound (store.exits ptr) phase := by
  unfold exits
  split
  next =>
    cases phase with
    | addWrites id session spawnedNewSession =>
        obtain ⟨hvac, hbd, hkept, hnew⟩ := h
        refine ⟨hvac, by rwa [length_set], fun hkilled => ?_, hnew⟩
        rw [getElem?_set] at hkilled
        split at hkilled
        next => split at hkilled <;> cases hkilled
        next => exact hkept hkilled
    | _ => exact h
  next => exact h

theorem SystemSound.of_move (h : SystemSound s) (hkps : KeepsProcesses s a) (hmove : s.Move a s') : SystemSound s' := by
  obtain ⟨next, hstep, rfl⟩ := map_eq_some_iff.mp hmove
  obtain ⟨store, phase⟩ := s
  cases a with
  | call call =>
      obtain ⟨⟨hidle, hfr⟩, heq⟩ := ite_none_right_eq_some.mp hstep
      cases heq
      exact h.call hidle hfr
  | go => exact h.go hkps hstep
  | first key =>
      obtain ⟨session, hfst, hgo⟩ := bind_eq_some_iff.mp hstep
      exact h.goFirst hfst hgo
  | noSession =>
      obtain ⟨-, hgo⟩ := ite_none_right_eq_some.mp hstep
      exact h.goNoSession hgo
  | fail => exact h.fail hstep
  | exits ptr =>
      cases hstep
      exact ⟨h.store.exits ptr, phaseSound_exits h.phase ptr⟩

/-- What drops a live session leaves a process that nobody has. -/
theorem keepsProcesses_of_held (hmove : s.Move a s') (hheld : ProcessesHeld s') : KeepsProcesses s a := by
  obtain ⟨next, hstep, rfl⟩ := Option.map_eq_some_iff.mp hmove
  obtain ⟨store, phase⟩ := s
  cases a with
  | go =>
      cases phase with
      | connects request =>
          intro existing hfnd hlive
          by_contra hoth
          have hhome : existing.matchesCodexHome request.codexHome = false := by simpa using hoth
          have hdropped : next = (store.removeSessionReferences existing, .connectTakesShared request) := by
            simp only [SessionSystem.step, go, hfnd, hhome, Bool.and_false] at hstep
            exact (Option.some.inj hstep).symm
          subst hdropped
          rcases hheld.live existing.ptr (sessionProcessIsAlive_iff.mp hlive) with ⟨id, other, hused, hptr⟩ | hnew
          · exact (lookup_removeSessionReferences.mp hused).2 hptr
          · cases hnew
      | setsSpawns request currentSession =>
          cases hstep
          intro id session hfnd hlive
          by_contra hoth
          have hprocess := sessionProcessIsAlive_iff.mp hlive
          have hbd := (List.getElem?_eq_some_iff.mp hprocess).1
          have hstill : ((store.processes ++ [ProcessState.alive]).set currentSession.ptr .killed)[session.ptr]? =
              some .alive := by
            rw [getElem?_set_killed hoth, getElem?_append_left hbd, hprocess]
          rcases hheld.live session.ptr hstill with ⟨id', other, hused, hptr⟩ | hnew
          · have hreplaced : (store.sessions.setAll (store.spawnSession request).2).lookup id' = some other := hused
            rw [HashMap.lookup_setAll, Option.map_eq_some_iff] at hreplaced
            obtain ⟨-, -, rfl⟩ := hreplaced
            exact absurd hptr hbd.ne'
          · cases hnew
      | _ => trivial
  | _ => cases phase <;> trivial

end

/-! ## Runs -/

def connectedTwice : List SessionStep :=
  [.call (.connectWorkspace ⟨"ws", none, none⟩), .go, .noSession, .go,
   .call (.connectWorkspace ⟨"ws", some "/home/other", none⟩), .go, .noSession, .go]

end CodexStudy.Workspaces
