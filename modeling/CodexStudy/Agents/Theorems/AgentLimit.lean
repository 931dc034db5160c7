import CodexStudy.Agents.Lemmas.Registry

/-!
# The limit on the number of agents

Whatever the order of the steps, the count is the number of agents, of reservations and of releases between their
steps.
-/

namespace CodexStudy.Agents

open CodexStudy.Lib HashMap AgentPhase AgentMetadata AgentsShared Tasks UInt64 AgentSystem

/-! ## What is asked of the registry -/

structure AgentLimitHolds (maxThreads : UInt64) (s : AgentSystem) : Prop where
  counted : s.shared.registry.totalCount.toNat =
    count s.shared.agents.agentTree isCounted + s.count isActive +
      s.count isReleasing
  bounded : s.shared.registry.totalCount ≤ maxThreads
  /-- No two entries, live or reserved, have one path. -/
  paths : ∀ key key' metadata metadata' agentPath, s.shared.agents.agentTree.lookup key = some metadata →
    s.shared.agents.agentTree.lookup key' = some metadata' → metadata.agentPath = some agentPath →
      metadata'.agentPath = some agentPath → key = key'
  /-- The path of a reservation is that of an entry without an agent. -/
  reserved : ∀ t reservation agentPath, s.task t = .holds reservation →
    reservation.reservedAgentPath = some agentPath →
      s.shared.agents.agentTree.lookup agentPath.text = some { agentPath := some agentPath }
  reservations : ∀ t u reservation reservation' agentPath, t ≠ u → s.task t = .holds reservation →
    s.task u = .holds reservation' → reservation.reservedAgentPath = some agentPath →
      reservation'.reservedAgentPath ≠ some agentPath
  nicknames : ∀ key key' metadata metadata' nickname, s.shared.agents.agentTree.lookup key = some metadata →
    s.shared.agents.agentTree.lookup key' = some metadata' → metadata.agentNickname = some nickname →
      metadata'.agentNickname = some nickname → key = key'

/-- A subtraction lowers the count by one, and a drop removes the entry of the reserved path and no other one. -/
structure AgentStepSafe (maxThreads : UInt64) (s : AgentSystem) (a : Nat × RegistryStep) : Prop where
  subtracts : ∀ s', AgentMove maxThreads s a s' → s.task a.1 = .dropsSlot ∨ s.task a.1 = .releasesSlot →
    s'.shared.registry.totalCount.toNat + 1 = s.shared.registry.totalCount.toNat
  frees : ∀ s' reservation, AgentMove maxThreads s a s' → a.2 = .drop → s.task a.1 = .holds reservation →
    ∀ key, s'.shared.agents.agentTree.lookup key =
      if reservation.reservedAgentPath.map (·.text) = some key then none
      else s.shared.agents.agentTree.lookup key

/-! ## Paths and nicknames -/

def HeldSound (_ : Nat) (shared : AgentsShared) (phase : AgentPhase) : Prop :=
  ∀ reservation, phase = .holds reservation → ReservationSound shared reservation

def HeldApart (p q : AgentPhase) : Prop :=
  ∀ reservation reservation', p = .holds reservation → q = .holds reservation' →
    ReservationsApart reservation reservation'

abbrev AgentsKeep (s : AgentSystem) : Prop := Tasks.Keeps TreeSound HeldSound HeldApart s

theorem agentsKeep_new : AgentsKeep new where
  shared := by
    have hemp : ∀ key, new.shared.agents.agentTree.lookup key = none := fun key => AList.lookup_empty key
    constructor <;> simp [hemp]
  own t reservation h := by cases h
  apart t u _ reservation reservation' h := by cases h

section

variable {maxThreads : UInt64} {s s' : AgentSystem} {a : Nat × RegistryStep} {shared : AgentsShared}
  {phase : AgentPhase} {t : Nat}

theorem heldSound_of_not_holds (h : ∀ reservation, phase ≠ .holds reservation) : HeldSound t shared phase :=
  fun reservation hhld => absurd hhld (h reservation)

theorem heldApart_of_not_holds {other : AgentPhase} (h : ∀ reservation, phase ≠ .holds reservation) :
    HeldApart phase other := fun reservation _ hhld => absurd hhld (h reservation)

theorem AgentsKeep.same (h : AgentsKeep s) (hagents : shared.agents = s.shared.agents)
    (hids : s.shared.threadIds ⊆ shared.threadIds)
    (hph : ∀ reservation, phase = .holds reservation → s.task t = .holds reservation ∨ reservation = {}) :
    TreeSound shared ∧ HeldSound t shared phase ∧
      ∀ u, u ≠ t → HeldSound u shared (s.task u) ∧ HeldApart phase (s.task u) := by
  have hgiv : ∀ nickname, Given s.shared.agents nickname → Given shared.agents nickname := by
    rw [hagents]
    exact fun nickname h => h
  have hkept : ∀ {r : SpawnReservation}, ReservationSound s.shared r → ReservationSound shared r := by
    intro r hr
    apply hr.other hgiv
    · simp [hagents]
    · intro nickname key metadata _ hfnd hname
      exact ⟨metadata, hagents ▸ hfnd, hname⟩
  refine ⟨h.shared.shrink (by simp [hagents]) hids hgiv, fun r hr => ?_, fun u hu => ⟨fun r hr => ?_, ?_⟩⟩
  · rcases hph r hr with hold | rfl
    · exact hkept (h.own t r hold)
    · constructor <;> simp
  · exact hkept (h.own u r hr)
  · intro r r' hr hr'
    rcases hph r hr with hold | rfl
    · exact h.apart t u hu.symm r r' hold hr'
    · constructor <;> simp

variable {threadId : ThreadId} {metadata : AgentMetadata} {reservation : SpawnReservation}

/-- A new entry without a nickname takes nothing from a reservation. -/
theorem ReservationSound.insert {r : SpawnReservation} {key : Text} (hr : ReservationSound s.shared r)
    (hvac : s.shared.agents.agentTree.lookup key = none) (hname : metadata.agentNickname = none)
    (hagents : shared.agents = { s.shared.agents with agentTree := s.shared.agents.agentTree.insert key metadata }) :
    ReservationSound shared r := by
  have htree : shared.agents.agentTree = s.shared.agents.agentTree.insert key metadata := by rw [hagents]
  apply hr.other
  · intro nickname hnick
    rw [hagents]
    exact hnick.mono rfl (Finset.Subset.refl _)
  · intro agentPath hres
    have hfnd := hr.path agentPath hres
    rw [htree, lookup_insert_eq, if_neg]
    intro heq
    rw [heq, hvac] at hfnd
    cases hfnd
  · intro nickname key' metadata' _ hfnd hnick
    rw [htree, lookup_insert_eq] at hfnd
    split at hfnd
    next =>
      cases hfnd
      cases hname.symm.trans hnick
    next => exact ⟨metadata', hfnd, hnick⟩

theorem AgentsKeep.of_registersRoot (h : AgentsKeep s) (hvac : s.shared.agents.agentTree.lookup ROOT = none)
    (hagents : shared.agents = { s.shared.agents with
        agentTree := s.shared.agents.agentTree.insert ROOT { agentId := some threadId, agentPath := some .root } })
    (hids : shared.threadIds = insert threadId s.shared.threadIds) : TreeSound shared ∧ HeldSound t shared .idle ∧
      ∀ u, u ≠ t → HeldSound u shared (s.task u) ∧ HeldApart .idle (s.task u) := by
  have hgiv : ∀ nickname, Given s.shared.agents nickname → Given shared.agents nickname := by
    intro nickname hnick
    rw [hagents]
    exact hnick.mono rfl (Finset.Subset.refl _)
  have htree : shared.agents.agentTree =
      s.shared.agents.agentTree.insert ROOT { agentId := some threadId, agentPath := some .root } := by rw [hagents]
  refine ⟨?_, heldSound_of_not_holds (by simp), fun u hu => ⟨fun r hr => ?_, heldApart_of_not_holds (by simp)⟩⟩
  · apply h.shared.insert htree _ hgiv
    · exact .inl rfl
    · simp [hids]
    · simp
    · simp [hids]
  · exact (h.own u r hr).insert hvac rfl hagents

theorem AgentsKeep.of_releases (h : AgentsKeep s) {key : Text}
    (hfnd : s.shared.agents.agentTree.lookup key = some metadata) (hlive : metadata.agentId ≠ none)
    (hph : ∀ reservation, phase ≠ .holds reservation) :
    TreeSound (s.shared.withAgents (s.shared.agents.removeThread key)) ∧
      HeldSound t (s.shared.withAgents (s.shared.agents.removeThread key)) phase ∧
        ∀ u, u ≠ t → HeldSound u (s.shared.withAgents (s.shared.agents.removeThread key)) (s.task u) ∧
          HeldApart phase (s.task u) := by
  have hgiv : ∀ nickname, Given s.shared.agents nickname →
      Given (s.shared.withAgents (s.shared.agents.removeThread key)).agents nickname :=
    fun nickname hnick => hnick.mono rfl (Finset.Subset.refl _)
  refine ⟨?_, heldSound_of_not_holds hph, fun u hu => ⟨fun r hr => ?_, heldApart_of_not_holds hph⟩⟩
  · apply h.shared.shrink _ (by rfl) hgiv
    intro key' metadata' hfnd'
    exact lookup_of_lookup_erase hfnd'
  · have hr := h.own u r hr
    apply hr.other hgiv
    · -- The entry of a reservation has no agent, so it is not the one that is removed.
      intro agentPath hres
      have hkept := hr.path agentPath hres
      apply AList.lookup_erase_ne
      intro heq
      rw [heq, hfnd] at hkept
      cases hkept
      exact hlive rfl
    · intro nickname key' metadata' _ hfnd' hname
      exact ⟨metadata', lookup_of_lookup_erase hfnd', hname⟩

theorem AgentsKeep.of_names (h : AgentsKeep s) {nickname : Text} {agents : ActiveAgents}
    (hph : s.task t = .holds reservation) (hsame : agents.agentTree = s.shared.agents.agentTree)
    (hgiv : Given agents nickname)
    (hoth : ∀ other, Given s.shared.agents other → Given agents other ∧ nickname ≠ other) :
    TreeSound (s.shared.withAgents agents) ∧
      HeldSound t (s.shared.withAgents agents) (.holds { reservation with reservedAgentNickname := some nickname }) ∧
        ∀ u, u ≠ t → HeldSound u (s.shared.withAgents agents) (s.task u) ∧
          HeldApart (.holds { reservation with reservedAgentNickname := some nickname }) (s.task u) := by
  have hgivenOther : ∀ other, Given s.shared.agents other → Given (s.shared.withAgents agents).agents other :=
    fun other hold => (hoth other hold).1
  have hkept : ∀ {r : SpawnReservation}, ReservationSound s.shared r → ReservationSound (s.shared.withAgents agents) r := by
    intro r hr
    apply hr.other hgivenOther
    · simp [AgentsShared.withAgents, AgentsShared.agents, hsame]
    · intro nickname key metadata _ hfnd hname
      exact ⟨metadata, hsame ▸ hfnd, hname⟩
  refine ⟨?_, fun r hr => ?_, fun u hu => ⟨fun r hr => hkept (h.own u r hr), fun r r' hr hr' => ?_⟩⟩
  · apply h.shared.shrink _ (by rfl) hgivenOther
    intro key metadata hfnd
    exact hsame ▸ hfnd
  · cases hr
    refine ⟨(hkept (h.own t reservation hph)).path, fun other hname => ?_⟩
    cases hname
    refine ⟨hgiv, fun key metadata hfnd hname => ?_⟩
    exact (hoth nickname (h.shared.given key metadata nickname (hsame ▸ hfnd) hname)).2 rfl
  · cases hr
    refine ⟨(h.apart t u hu.symm reservation r' hph hr').path, fun other hname hname' => ?_⟩
    cases hname
    exact (hoth nickname ((h.own u r' hr').nickname nickname hname').1).2 rfl

theorem AgentsKeep.of_reservesPath (h : AgentsKeep s) {agentPath : AgentPath} (hph : s.task t = .holds reservation)
    (hvac : s.shared.agents.agentTree.lookup agentPath.text = none) (hagents : shared.agents = { s.shared.agents with
        agentTree := s.shared.agents.agentTree.insert agentPath.text { agentPath := some agentPath } })
    (hids : shared.threadIds = s.shared.threadIds) :
    TreeSound shared ∧ HeldSound t shared (.holds { reservation with reservedAgentPath := some agentPath }) ∧
      ∀ u, u ≠ t → HeldSound u shared (s.task u) ∧
        HeldApart (.holds { reservation with reservedAgentPath := some agentPath }) (s.task u) := by
  have hgiv : ∀ nickname, Given s.shared.agents nickname → Given shared.agents nickname := by
    intro nickname hnick
    rw [hagents]
    exact hnick.mono rfl (Finset.Subset.refl _)
  have htree : shared.agents.agentTree =
      s.shared.agents.agentTree.insert agentPath.text { agentPath := some agentPath } := by rw [hagents]
  have hkept : ∀ {r : SpawnReservation}, ReservationSound s.shared r → ReservationSound shared r :=
    fun hr => hr.insert hvac rfl hagents
  refine ⟨?_, fun r hr => ?_, fun u hu => ⟨fun r hr => hkept (h.own u r hr), fun r r' hr hr' => ?_⟩⟩
  · apply h.shared.insert htree (by rw [hids]) hgiv
    · exact .inl rfl
    · simp
    · simp
  · cases hr
    refine ⟨fun other hres => ?_, (hkept (h.own t reservation hph)).nickname⟩
    cases hres
    rw [htree, lookup_insert_eq, if_pos rfl]
  · cases hr
    refine ⟨fun other hres hres' => ?_, (h.apart t u hu.symm reservation r' hph hr').nickname⟩
    cases hres
    have hfnd := (h.own u r' hr').path agentPath hres'
    rw [hvac] at hfnd
    cases hfnd

theorem AgentsKeep.of_commits (h : AgentsKeep s) (hph : s.task t = .holds reservation)
    (hmay : s.shared.MayCommit reservation metadata threadId) :
    TreeSound (s.shared.commit metadata threadId) ∧ HeldSound t (s.shared.commit metadata threadId) .idle ∧
      ∀ u, u ≠ t → HeldSound u (s.shared.commit metadata threadId) (s.task u) ∧ HeldApart .idle (s.task u) := by
  have hown := h.own t reservation hph
  have hkey := commit_key h.shared hown hmay
  obtain ⟨hid, -, -, hnick⟩ := hmay
  have htree := @agentTree_commit threadId metadata s.shared hid
  have hgiv : ∀ nickname, Given s.shared.agents nickname → Given (s.shared.commit metadata threadId).agents nickname :=
    fun nickname hold => given_registerSpawnedThread metadata hold
  have hres : ∀ nickname, metadata.agentNickname = some nickname →
      reservation.reservedAgentNickname = some nickname := by
    intro nickname hname
    rcases hnick with hnone | hsame
    · rw [hnone] at hname
      cases hname
    · rw [← hsame, hname]
  refine ⟨?_, heldSound_of_not_holds (by simp), fun u hu => ⟨fun r hr => ?_, heldApart_of_not_holds (by simp)⟩⟩
  · apply h.shared.insert htree (Finset.subset_insert threadId _) hgiv (keyOf_commit hid)
    · intro other hoth
      rw [hid] at hoth
      cases hoth
      exact Finset.mem_insert_self threadId _
    · exact fun nickname hname => hown.nickname nickname (hres nickname hname)
  · have hap := h.apart t u hu.symm reservation r hph hr
    have hr := h.own u r hr
    apply hr.other hgiv
    · intro agentPath hpath
      rw [htree, lookup_insert_eq, if_neg]
      intro heq
      rcases hkey with ⟨ownPath, hownPath, htext, -⟩ | hvac
      · obtain rfl := AgentPath.text_injective (heq.trans htext)
        exact hap.path agentPath hownPath hpath
      · have hfnd := hr.path agentPath hpath
        rw [heq, hvac] at hfnd
        cases hfnd
    · intro nickname key found hname hfnd hfoundName
      rw [htree, lookup_insert_eq] at hfnd
      split at hfnd
      next =>
        cases hfnd
        exact absurd hname (hap.nickname nickname (hres nickname hfoundName))
      next => exact ⟨found, hfnd, hfoundName⟩

theorem AgentsKeep.of_drops (h : AgentsKeep s) (hph : s.task t = .holds reservation) :
    TreeSound (s.shared.drop reservation) ∧ HeldSound t (s.shared.drop reservation) .dropsSlot ∧
      ∀ u, u ≠ t → HeldSound u (s.shared.drop reservation) (s.task u) ∧ HeldApart .dropsSlot (s.task u) := by
  have hown := h.own t reservation hph
  have hsub : ∀ key metadata, (s.shared.drop reservation).agents.agentTree.lookup key = some metadata →
      s.shared.agents.agentTree.lookup key = some metadata := by
    intro key metadata hfnd
    rw [lookup_drop hown] at hfnd
    split at hfnd
    next => cases hfnd
    next => exact hfnd
  refine ⟨?_, heldSound_of_not_holds (by simp), fun u hu => ⟨fun r hr => ?_, heldApart_of_not_holds (by simp)⟩⟩
  · apply h.shared.shrink hsub _ fun nickname => given_drop hown
    unfold drop
    split <;> exact Finset.Subset.refl _
  · have hap := h.apart t u hu.symm reservation r hph hr
    apply (h.own u r hr).other fun nickname => given_drop hown
    · intro agentPath hpath
      rw [lookup_drop hown, if_neg]
      intro heq
      obtain ⟨ownPath, hownPath, htext⟩ := Option.map_eq_some_iff.mp heq
      obtain rfl := AgentPath.text_injective htext
      exact hap.path ownPath hownPath hpath
    · exact fun nickname key metadata _ hfnd hname => ⟨metadata, hsub key metadata hfnd, hname⟩

theorem AgentsKeep.of_effect (h : AgentsKeep s) (heff : AgentEffect maxThreads s.shared (s.task t) shared phase) :
    TreeSound shared ∧ HeldSound t shared phase ∧
      ∀ u, u ≠ t → HeldSound u shared (s.task u) ∧ HeldApart phase (s.task u) := by
  generalize hph : s.task t = before at heff
  cases heff with
  | passes _ hidle =>
      apply h.same (by rfl) (by rfl)
      rintro reservation rfl
      exact absurd hidle.1 (by simp [isActive])
  | takesSlot =>
      apply h.same (by rfl) (by rfl)
      rintro reservation ⟨⟩
      exact .inr rfl
  | givesSlot => exact h.same (by rfl) (by rfl) (by simp)
  | registersRoot threadId hvac => exact h.of_registersRoot hvac rfl rfl
  | hasRoot threadId => exact h.same (by rfl) (by simp) (by simp)
  | releases hfnd hlive => exact h.of_releases hfnd hlive (by split <;> simp)
  | refuses reservation =>
      apply h.same (by rfl) (by rfl)
      rintro reservation' ⟨⟩
      exact .inl hph
  | names hsame hgiv hoth => exact h.of_names hph hsame hgiv hoth
  | reservesPath hvac => exact h.of_reservesPath hph hvac rfl rfl
  | commits hmay => exact h.of_commits hph hmay
  | drops reservation => exact h.of_drops hph

theorem AgentsKeep.of_move (h : AgentsKeep s) (hmove : AgentMove maxThreads s a s') : AgentsKeep s' := by
  apply Tasks.Keeps.of_move h (fun p q hpq r r' hr hr' => (hpq r' r hr' hr).symm) hmove
  intro shared phase hstep
  exact h.of_effect (effect_of_step hstep)

/-! ## The count -/

structure AgentsCounted (maxThreads : UInt64) (s : AgentSystem) : Prop where
  few : s.FewBusy .idle
  counted : s.shared.registry.totalCount.toNat =
    count s.shared.agents.agentTree isCounted + s.count isActive +
      s.count isReleasing
  bounded : s.shared.registry.totalCount ≤ maxThreads

theorem agentsCounted_new : AgentsCounted maxThreads AgentSystem.new where
  few := fewBusy_of_idle fun _ => rfl
  counted := by
    have hact : AgentSystem.new.count isActive = 0 := count_of_idle (fun _ => rfl) rfl
    have hreleasing : AgentSystem.new.count isReleasing = 0 := count_of_idle (fun _ => rfl) rfl
    rw [hact, hreleasing]
    rfl
  bounded := UInt64.zero_le

theorem toNat_add_one {n maxThreads : UInt64} (h : n < maxThreads) : (n + 1).toNat = n.toNat + 1 := by
  have hlt : n.toNat < maxThreads.toNat := UInt64.lt_iff_toNat_lt.mp h
  have hmax := maxThreads.toNat_lt
  rw [UInt64.toNat_add]
  exact Nat.mod_eq_of_lt (by simp; omega)

theorem toNat_sub_one {n : UInt64} (h : 0 < n.toNat) : (n - 1).toNat = n.toNat - 1 :=
  UInt64.toNat_sub_of_le n 1 (UInt64.le_iff_toNat_le.mpr h)

theorem AgentsCounted.pos (h : AgentsCounted maxThreads s) (hph : s.task t = .dropsSlot ∨ s.task t = .releasesSlot) :
    0 < s.shared.registry.totalCount.toNat := by
  have hact := count_eq h.few (p := isActive) rfl t
  have hreleasing := count_eq h.few (p := isReleasing) rfl t
  rw [h.counted]
  rcases hph with hph | hph
  · rw [hph] at hact
    simp [hact, isActive]
  · rw [hph] at hreleasing
    simp [hreleasing, isReleasing]

theorem isCounted_of_mayCommit (h : s.shared.MayCommit reservation metadata threadId) : metadata.isCounted = true := by
  obtain ⟨hid, -, hpath, -⟩ := h
  have hroot : metadata.isRoot = false := by
    rcases hpath with hnone | ⟨-, hroot⟩
    · simp [isRoot, hnone]
    · exact hroot
  simp [isCounted, hid, hroot]

theorem AgentEffect.balance (heff : AgentEffect maxThreads s.shared (s.task t) shared phase)
    (hkps : AgentsKeep s) (h : AgentsCounted maxThreads s) : shared.registry.totalCount.toNat +
        (count s.shared.agents.agentTree isCounted + (s.task t).isActive.toNat + (s.task t).isReleasing.toNat) =
      s.shared.registry.totalCount.toNat + (count shared.agents.agentTree isCounted + phase.isActive.toNat +
          phase.isReleasing.toNat) ∧ shared.registry.totalCount ≤ maxThreads := by
  have hbd := h.bounded
  generalize hph : s.task t = before at heff
  cases heff with
  | passes hidle hidle' => simp [hidle, hidle', hbd]
  | takesSlot hfree =>
      have hadd := toNat_add_one hfree
      refine ⟨?_, ?_⟩
      · simp [hadd, isActive, isReleasing, agents]
        omega
      · rw [le_iff_toNat_le]
        have hlt := lt_iff_toNat_lt.mp hfree
        simp only [hadd]
        omega
  | givesSlot hgives =>
      have hpos := h.pos (t := t) (hph ▸ hgives)
      have hsub := toNat_sub_one hpos
      refine ⟨?_, ?_⟩
      · rcases hgives with rfl | rfl
        · simp [hsub, isActive, isReleasing, agents]
          omega
        · simp [hsub, isActive, isReleasing, agents]
          omega
      · rw [le_iff_toNat_le] at hbd ⊢
        simp only [hsub]
        omega
  | registersRoot threadId hvac =>
      refine ⟨?_, hbd⟩
      have htree := count_insert s.shared.agents.agentTree isCounted ROOT
        { agentId := some threadId, agentPath := some .root }
      rw [erase_of_lookup_eq_none hvac] at htree
      have hroot : isCounted { agentId := some threadId, agentPath := some .root } = false := rfl
      rw [hroot] at htree
      simpa [withAgents, agents] using htree.symm
  | hasRoot threadId => exact ⟨rfl, hbd⟩
  | @releases key metadata hfnd hlive =>
      refine ⟨?_, hbd⟩
      have htree := count_erase isCounted hfnd
      have hsome : metadata.agentId.isSome = true := Option.isSome_iff_ne_none.mpr hlive
      simp only [withAgents, agents, ActiveAgents.removeThread] at htree ⊢
      cases hroot : metadata.isRoot with
      | true | false =>
          simp [isCounted, hsome, hroot] at htree
          simp [isActive, isReleasing]
          omega
  | refuses reservation => exact ⟨rfl, hbd⟩
  | names hsame hgiv hoth =>
      refine ⟨?_, hbd⟩
      have htree : count (s.shared.withAgents _).agents.agentTree isCounted =
          count s.shared.agents.agentTree isCounted :=
        congrArg (count · isCounted) hsame
      rw [htree]
      rfl
  | @reservesPath reservation agentPath hvac =>
      refine ⟨?_, hbd⟩
      have htree := count_insert s.shared.agents.agentTree isCounted agentPath.text
        { agentPath := some agentPath }
      rw [erase_of_lookup_eq_none hvac] at htree
      have hres : isCounted { agentPath := some agentPath } = false := rfl
      rw [hres] at htree
      simpa [withAgents, agents, isActive, isReleasing] using htree.symm
  | @commits reservation metadata threadId hmay =>
      refine ⟨?_, hbd⟩
      have herased : count (s.shared.agents.agentTree.erase (metadata.key threadId)) isCounted =
          count s.shared.agents.agentTree isCounted := by
        rcases commit_key hkps.shared (hkps.own t reservation hph) hmay with ⟨agentPath, -, -, hfnd⟩ | hvac
        · exact count_erase isCounted hfnd
        · rw [erase_of_lookup_eq_none hvac]
      have hcounted := isCounted_of_mayCommit hmay
      obtain ⟨hid, -⟩ := hmay
      rw [agentTree_commit hid, count_insert, herased, hcounted]
      simp [commit, isActive, isReleasing]
  | drops reservation =>
      have hown := hkps.own t reservation hph
      have htot : (s.shared.drop reservation).registry.totalCount = s.shared.registry.totalCount := by
        unfold drop
        split <;> rfl
      have htree : count (s.shared.drop reservation).agents.agentTree isCounted =
          count s.shared.agents.agentTree isCounted := by
        cases hpath : reservation.reservedAgentPath with
        | none => rw [agents_drop_none hpath]
        | some agentPath =>
            rw [agents_drop_some hown hpath]
            exact count_erase isCounted (hown.path agentPath hpath)
      rw [htree, htot]
      exact ⟨rfl, hbd⟩

theorem AgentsCounted.of_move (h : AgentsCounted maxThreads s) (hkps : AgentsKeep s)
    (hmove : AgentMove maxThreads s a s') : AgentsCounted maxThreads s' := by
  obtain ⟨shared, phase, hstep, rfl⟩ := move_iff.mp hmove
  obtain ⟨hbalance, hbd⟩ := (effect_of_step hstep).balance hkps h
  have hact := count_update h.few (p := isActive) rfl shared a.1 phase
  have hreleasing := count_update h.few (p := isReleasing) rfl shared a.1 phase
  have hcounted := h.counted
  constructor
  · exact h.few.update shared a.1 phase
  · simp only at hbalance ⊢
    omega
  · exact hbd

end

/-! ## Runs -/

theorem agentLimitHolds_of_keeps {maxThreads : UInt64} {s : AgentSystem} (hkps : AgentsKeep s)
    (h : AgentsCounted maxThreads s) : AgentLimitHolds maxThreads s where
  counted := h.counted
  bounded := h.bounded
  paths key key' metadata metadata' agentPath hfnd hfnd' hpath hpath' := by
    have hkey : ∀ key metadata, s.shared.agents.agentTree.lookup key = some metadata →
        metadata.agentPath = some agentPath → agentPath.text = key := by
      intro key metadata hfnd hpath
      rcases hkps.shared.keyed key metadata hfnd with hkey | ⟨hnone, -⟩
      · simpa [hpath] using hkey
      · rw [hpath] at hnone
        cases hnone
    exact (hkey key metadata hfnd hpath).symm.trans (hkey key' metadata' hfnd' hpath')
  reserved t reservation agentPath hph := (hkps.own t reservation hph).path agentPath
  reservations t u reservation reservation' agentPath hne hph hph' :=
    (hkps.apart t u hne reservation reservation' hph hph').path agentPath
  nicknames := hkps.shared.nicknames

theorem agentStepSafe_of_keeps {maxThreads : UInt64} {s : AgentSystem} {a : Nat × RegistryStep} (hkps : AgentsKeep s)
    (h : AgentsCounted maxThreads s) : AgentStepSafe maxThreads s a where
  subtracts s' hmove hph := by
    obtain ⟨shared, phase, hstep, rfl⟩ := move_iff.mp hmove
    have hpos := h.pos hph
    have hsub : shared.registry.totalCount = s.shared.registry.totalCount - 1 := by
      rcases hph with hph | hph
      · rw [hph] at hstep
        cases ha : a.2 <;> rw [ha] at hstep <;> cases hstep
        rfl
      · rw [hph] at hstep
        cases ha : a.2 <;> rw [ha] at hstep <;> cases hstep
        rfl
    simp only [hsub, toNat_sub_one hpos]
    omega
  frees s' reservation hmove hdrop hph key := by
    obtain ⟨shared, phase, hstep, rfl⟩ := move_iff.mp hmove
    rw [hph, hdrop] at hstep
    cases hstep
    exact lookup_drop (hkps.own a.1 reservation hph) key

/-- In every run the count is exact and within the limit, no subtraction goes below zero, paths and nicknames are not
shared, and a drop frees its own path. -/
theorem agent_limit_holds (maxThreads : UInt64) (steps : List (Nat × RegistryStep)) :
    StatesMeet (AgentMove maxThreads) (AgentLimitHolds maxThreads) .new steps ∧
      StepsMeet (AgentMove maxThreads) (AgentStepSafe maxThreads) .new steps := by
  have hsnd : ∀ as s, Run (AgentMove maxThreads) new as s → AgentsKeep s ∧ AgentsCounted maxThreads s := by
    intro as s hrun
    apply hrun.invariant ⟨agentsKeep_new, agentsCounted_new⟩
    intro s a s' h hmove
    exact ⟨h.1.of_move hmove, h.2.of_move h.1 hmove⟩
  constructor
  · intro as s _ hrun
    obtain ⟨hkps, hcounted⟩ := hsnd as s hrun
    exact agentLimitHolds_of_keeps hkps hcounted
  · intro as a s s' _ hrun _
    obtain ⟨hkps, hcounted⟩ := hsnd as s hrun
    exact agentStepSafe_of_keeps hkps hcounted

end CodexStudy.Agents
