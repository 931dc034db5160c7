import CodexStudy.Agents.Registry

/-!
# What one step does to the registry
-/

namespace CodexStudy.Agents

open CodexStudy.Lib AgentsShared ActiveAgents Nat Option AgentMetadata

/-! ## The ordinal of a nickname -/

theorem length_ordinalSuffix (value : Nat) : (ordinalSuffix value).length = 2 := by
  unfold ordinalSuffix
  split
  · rfl
  · split <;> rfl

theorem not_space_ordinalSuffix (value : Nat) : ' ' ∉ ordinalSuffix value := by
  unfold ordinalSuffix
  split
  · simp
  · split <;> simp

variable {m n random : Nat} {name : Text} {threadId : ThreadId} {metadata : AgentMetadata}

theorem toDigits_injective (h : toDigits 10 m = toDigits 10 n) : m = n := by
  have hm : ofDigitChars 10 (toDigits 10 m) 0 = m := ofDigitChars_toDigits (by simp) (by simp)
  have hn : ofDigitChars 10 (toDigits 10 n) 0 = n := ofDigitChars_toDigits (by simp) (by simp)
  rw [← hm, h, hn]

theorem not_space_ordinal (value : Nat) : ' ' ∉ toDigits 10 value ++ ordinalSuffix value := by
  rw [List.mem_append, not_or]
  constructor
  · intro hmem
    have hdigit : ' '.isDigit = true := isDigit_of_mem_toDigits (by simp) (by simp) hmem
    simp at hdigit
  · exact not_space_ordinalSuffix value

theorem ordinal_injective
    (h : toDigits 10 m ++ ordinalSuffix m = toDigits 10 n ++ ordinalSuffix n) : m = n := by
  have hlen : (ordinalSuffix m).length = (ordinalSuffix n).length := by simp [length_ordinalSuffix]
  exact toDigits_injective (List.append_inj_left' h hlen)

theorem rtakeWhile_space (s : Text) {word : Text} (h : ' ' ∉ word) :
    (s ++ ' ' :: word).rtakeWhile (· ≠ ' ') = word := by
  have hword : ∀ c ∈ word.reverse, decide (c ≠ ' ') = true := by
    intro c hc
    simp only [decide_eq_true_eq]
    rintro rfl
    exact h (List.mem_reverse.mp hc)
  have hreverse : (s ++ ' ' :: word).reverse = word.reverse ++ ' ' :: s.reverse := by simp
  rw [List.rtakeWhile, hreverse, List.takeWhile_append_of_pos hword]
  simp

theorem formatAgentNickname_injective {name' : Text} {resets resets' : Nat}
    (hname : ¬ " the " <:+: name) (hname' : ¬ " the " <:+: name')
    (h : formatAgentNickname name resets = formatAgentNickname name' resets') : resets = resets' := by
  cases resets with
  | zero =>
      cases resets' with
      | zero => rfl
      | succ n => exact absurd ⟨name', _, h.symm⟩ hname
  | succ m =>
      cases resets' with
      | zero => exact absurd ⟨name, _, h⟩ hname'
      | succ n =>
          have hlast : ∀ (base : Text) (k : Nat), (formatAgentNickname base (k + 1)).rtakeWhile (· ≠ ' ') =
              toDigits 10 (k + 1 + 1) ++ ordinalSuffix (k + 1 + 1) := by
            intro base k
            rw [← rtakeWhile_space (base ++ [' ', 't', 'h', 'e']) (not_space_ordinal (k + 1 + 1))]
            simp [formatAgentNickname]
          have hordinal := ordinal_injective ((hlast name m).symm.trans (h ▸ hlast name' n))
          omega

/-! ## Nicknames that were given out -/

def Given (agents : ActiveAgents) (nickname : Text) : Prop :=
  ∃ name resets, ¬ " the " <:+: name ∧ nickname = formatAgentNickname name resets ∧
    resets ≤ agents.nicknameResetCount ∧
      (resets = agents.nicknameResetCount → nickname ∈ agents.usedAgentNicknames)

section

variable {agents agents' : ActiveAgents} {nickname : Text}

theorem Given.mono (h : Given agents nickname) (hcnt : agents'.nicknameResetCount = agents.nicknameResetCount)
    (hused : agents.usedAgentNicknames ⊆ agents'.usedAgentNicknames) : Given agents' nickname := by
  obtain ⟨name, resets, hname, hnick, hle, huse⟩ := h
  rw [← hcnt] at hle huse
  exact ⟨name, resets, hname, hnick, hle, fun h => hused (huse h)⟩

theorem Given.reset (h : Given agents nickname) : Given agents.resetNicknames nickname := by
  obtain ⟨name, resets, hname, hnick, hle, -⟩ := h
  refine ⟨name, resets, hname, hnick, le_succ_of_le hle, fun heq => ?_⟩
  exact absurd hle (by rw [heq]; exact not_succ_le_self _)

theorem Given.use (h : Given agents nickname) (other : Text) : Given (agents.useNickname other) nickname :=
  h.mono rfl (Finset.subset_insert other agents.usedAgentNicknames)

theorem given_useNickname (hname : ¬ " the " <:+: name) (agents : ActiveAgents) :
    Given (agents.useNickname (formatAgentNickname name agents.nicknameResetCount))
      (formatAgentNickname name agents.nicknameResetCount) :=
  ⟨name, _, hname, rfl, le_refl _, fun _ => Finset.mem_insert_self _ _⟩

theorem Given.ne_of_unused (h : Given agents nickname) (hname : ¬ " the " <:+: name)
    (hunused : formatAgentNickname name agents.nicknameResetCount ∉ agents.usedAgentNicknames) :
    formatAgentNickname name agents.nicknameResetCount ≠ nickname := by
  obtain ⟨base, resets, hbase, rfl, -, huse⟩ := h
  intro heq
  exact hunused (heq ▸ huse (formatAgentNickname_injective hname hbase heq).symm)

theorem mem_of_choose {α : Type} {xs : List α} {x : α} (h : choose random xs = some x) : x ∈ xs :=
  List.mem_of_getElem? h

theorem reserveAgentNickname_spec {names : List Text} (hnms : PlainNames names)
    (h : agents.reserveAgentNickname names none random = some (nickname, agents')) :
    agents'.agentTree = agents.agentTree ∧ Given agents' nickname ∧
      ∀ other, Given agents other → Given agents' other ∧ nickname ≠ other := by
  simp only [reserveAgentNickname] at h
  cases havailable : choose random (agents.availableNames names) with
  | some chosen =>
      rw [havailable] at h
      cases h
      have hmem := mem_of_choose havailable
      simp only [availableNames, List.mem_filter, List.mem_map, decide_eq_true_eq] at hmem
      obtain ⟨⟨name, hname, rfl⟩, hunused⟩ := hmem
      refine ⟨rfl, given_useNickname (hnms name hname) agents, fun other hoth => ⟨hoth.use _, ?_⟩⟩
      exact hoth.ne_of_unused (hnms name hname) hunused
  | none =>
      rw [havailable] at h
      obtain ⟨name, hcho, heq⟩ := map_eq_some_iff.mp h
      cases heq
      have hname := hnms name (mem_of_choose hcho)
      refine ⟨rfl, given_useNickname hname agents.resetNicknames, fun other hoth => ⟨hoth.reset.use _, ?_⟩⟩
      exact hoth.reset.ne_of_unused hname (Finset.notMem_empty _)

end

/-! ## Effects -/

namespace AgentPhase

/-- A reservation, until its slot has been given back. -/
def isActive : AgentPhase → Bool
  | holds _ | dropsSlot => true
  | idle | loads | exchanges _ | releasesSlot => false

def isReleasing : AgentPhase → Bool
  | releasesSlot => true
  | idle | loads | exchanges _ | holds _ | dropsSlot => false

end AgentPhase

def AgentMetadata.isCounted (metadata : AgentMetadata) : Bool := metadata.agentId.isSome && !metadata.isRoot

inductive AgentEffect (maxThreads : UInt64) (shared : AgentsShared) : AgentPhase → AgentsShared → AgentPhase → Prop where
  | passes {phase phase'} (hphase : phase.isActive = false ∧ phase.isReleasing = false)
      (hphase' : phase'.isActive = false ∧ phase'.isReleasing = false) :
      AgentEffect maxThreads shared phase shared phase'
  | takesSlot (hfree : shared.registry.totalCount < maxThreads) :
      AgentEffect maxThreads shared (.exchanges shared.registry.totalCount)
        { shared with registry.totalCount := shared.registry.totalCount + 1 } (.holds {})
  | givesSlot {phase} (hphase : phase = .dropsSlot ∨ phase = .releasesSlot) :
      AgentEffect maxThreads shared phase
        { shared with registry.totalCount := shared.registry.totalCount - 1 } .idle
  | registersRoot (threadId : ThreadId) (hvacant : shared.agents.agentTree.lookup ROOT = none) :
      AgentEffect maxThreads shared .idle
        { shared.withAgents
            { shared.agents with
              agentTree := shared.agents.agentTree.insert ROOT { agentId := some threadId, agentPath := some .root } } with
          threadIds := insert threadId shared.threadIds } .idle
  | hasRoot (threadId : ThreadId) :
      AgentEffect maxThreads shared .idle { shared with threadIds := insert threadId shared.threadIds } .idle
  | releases {key metadata} (hfound : shared.agents.agentTree.lookup key = some metadata)
      (hlive : metadata.agentId ≠ none) :
      AgentEffect maxThreads shared .idle (shared.withAgents (shared.agents.removeThread key))
        (if metadata.isRoot then .idle else .releasesSlot)
  | refuses (reservation : SpawnReservation) : AgentEffect maxThreads shared (.holds reservation) shared (.holds reservation)
  | names {reservation : SpawnReservation} {nickname agents} (hsame : agents.agentTree = shared.agents.agentTree)
      (hgiven : Given agents nickname)
      (hother : ∀ other, Given shared.agents other → Given agents other ∧ nickname ≠ other) :
      AgentEffect maxThreads shared (.holds reservation) (shared.withAgents agents)
        (.holds { reservation with reservedAgentNickname := some nickname })
  | reservesPath {reservation : SpawnReservation} {agentPath : AgentPath}
      (hvacant : shared.agents.agentTree.lookup agentPath.text = none) :
      AgentEffect maxThreads shared (.holds reservation)
        (shared.withAgents
          { shared.agents with
            agentTree := shared.agents.agentTree.insert agentPath.text { agentPath := some agentPath } })
        (.holds { reservation with reservedAgentPath := some agentPath })
  | commits {reservation metadata threadId} (hmay : shared.MayCommit reservation metadata threadId) :
      AgentEffect maxThreads shared (.holds reservation) (shared.commit metadata threadId) .idle
  | drops (reservation : SpawnReservation) :
      AgentEffect maxThreads shared (.holds reservation) (shared.drop reservation) .dropsSlot

section

variable {maxThreads : UInt64} {shared shared' : AgentsShared} {phase phase' : AgentPhase} {step : RegistryStep}

theorem effect_of_go (h : shared.go maxThreads phase = some (shared', phase')) :
    AgentEffect maxThreads shared phase shared' phase' := by
  cases phase with
  | idle | holds reservation => cases h
  | loads =>
      cases h
      exact .passes ⟨rfl, rfl⟩ ⟨rfl, rfl⟩
  | exchanges current =>
      simp only [go] at h
      split at h
      next =>
        cases h
        exact .passes ⟨rfl, rfl⟩ ⟨rfl, rfl⟩
      next hfree =>
        split at h
        next heq =>
          subst heq
          cases h
          exact .takesSlot (UInt64.not_le.mp hfree)
        next =>
          cases h
          exact .passes ⟨rfl, rfl⟩ ⟨rfl, rfl⟩
  | dropsSlot =>
      cases h
      exact .givesSlot (.inl rfl)
  | releasesSlot =>
      cases h
      exact .givesSlot (.inr rfl)

theorem effect_of_release {key : Option Text}
    (h : shared.release threadId key = some (shared', phase')) : AgentEffect maxThreads shared .idle shared' phase' := by
  cases key with
  | none =>
      simp only [release, ite_none_right_eq_some] at h
      obtain ⟨-, ⟨⟩⟩ := h
      exact .passes ⟨rfl, rfl⟩ ⟨rfl, rfl⟩
  | some key =>
      simp only [release] at h
      split at h
      next metadata hfnd =>
        rw [ite_none_right_eq_some] at h
        obtain ⟨hid, ⟨⟩⟩ := h
        exact .releases hfnd (by simp [hid])
      next => cases h

theorem effect_of_registerRootThread (threadId : ThreadId) : AgentEffect maxThreads shared .idle
      { shared.withAgents (shared.agents.registerRootThread threadId) with
        threadIds := insert threadId shared.threadIds } .idle := by
  unfold registerRootThread
  split
  next => exact .hasRoot threadId
  next hvac => exact .registersRoot threadId hvac

theorem effect_of_use {reservation : SpawnReservation} (h : shared.use reservation step = some (shared', phase')) :
    AgentEffect maxThreads shared (.holds reservation) shared' phase' := by
  cases step with
  | reserveAgentNickname names random =>
      simp only [use, ite_none_right_eq_some] at h
      obtain ⟨hnms, h⟩ := h
      split at h
      next nickname agents hres =>
        cases h
        obtain ⟨hsame, hgiv, hoth⟩ := reserveAgentNickname_spec hnms hres
        exact .names hsame hgiv hoth
      next =>
        cases h
        exact .refuses reservation
  | reserveAgentPath agentPath =>
      simp only [use, reserveAgentPath] at h
      cases hvac : shared.agents.agentTree.lookup agentPath.text with
      | some metadata =>
          simp only [hvac] at h
          cases h
          exact .refuses reservation
      | none =>
          simp only [hvac] at h
          cases h
          exact .reservesPath hvac
  | commit metadata =>
      simp only [use] at h
      split at h
      next threadId hid =>
        rw [ite_none_right_eq_some] at h
        obtain ⟨hmay, ⟨⟩⟩ := h
        exact .commits hmay
      next => cases h
  | drop =>
      cases h
      exact .drops reservation
  | reserveSpawnSlot | go | failsWeakly | releaseSpawnedThread threadId key | registerRootThread threadId => cases h

theorem effect_of_step {t : Nat} (h : AgentsShared.step maxThreads t shared phase step = some (shared', phase')) :
    AgentEffect maxThreads shared phase shared' phase' := by
  unfold AgentsShared.step at h
  split at h
  next =>
    cases h
    exact .passes ⟨rfl, rfl⟩ ⟨rfl, rfl⟩
  next => exact effect_of_release h
  next threadId =>
    cases h
    exact effect_of_registerRootThread threadId
  next =>
    rw [ite_none_right_eq_some] at h
    obtain ⟨-, ⟨⟩⟩ := h
    exact .passes ⟨rfl, rfl⟩ ⟨rfl, rfl⟩
  next => exact effect_of_use h
  next => exact effect_of_go h
  next => cases h

end

/-! ## Changes of the tree -/

def KeyOf (metadata : AgentMetadata) (key : Text) : Prop :=
  metadata.agentPath.map (·.text) = some key ∨
    metadata.agentPath = none ∧ ∃ threadId, metadata.agentId = some threadId ∧ key = "thread:" ++ threadId

structure TreeSound (shared : AgentsShared) : Prop where
  keyed : ∀ key metadata, shared.agents.agentTree.lookup key = some metadata → KeyOf metadata key
  known : ∀ key metadata threadId, shared.agents.agentTree.lookup key = some metadata →
    metadata.agentId = some threadId → threadId ∈ shared.threadIds
  given : ∀ key metadata nickname, shared.agents.agentTree.lookup key = some metadata →
    metadata.agentNickname = some nickname → Given shared.agents nickname
  nicknames : ∀ key key' metadata metadata' nickname, shared.agents.agentTree.lookup key = some metadata →
    shared.agents.agentTree.lookup key' = some metadata' → metadata.agentNickname = some nickname →
      metadata'.agentNickname = some nickname → key = key'

structure ReservationSound (shared : AgentsShared) (reservation : SpawnReservation) : Prop where
  path : ∀ agentPath, reservation.reservedAgentPath = some agentPath →
    shared.agents.agentTree.lookup agentPath.text = some { agentPath := some agentPath }
  nickname : ∀ nickname, reservation.reservedAgentNickname = some nickname → Given shared.agents nickname ∧
    ∀ key metadata, shared.agents.agentTree.lookup key = some metadata → metadata.agentNickname ≠ some nickname

structure ReservationsApart (r r' : SpawnReservation) : Prop where
  path : ∀ agentPath, r.reservedAgentPath = some agentPath → r'.reservedAgentPath ≠ some agentPath
  nickname : ∀ nickname, r.reservedAgentNickname = some nickname → r'.reservedAgentNickname ≠ some nickname

theorem ReservationsApart.symm {r r' : SpawnReservation} (h : ReservationsApart r r') : ReservationsApart r' r where
  path agentPath h' h'' := h.path agentPath h'' h'
  nickname nickname h' h'' := h.nickname nickname h'' h'

section

variable {shared shared' : AgentsShared} {reservation : SpawnReservation}

theorem TreeSound.insert (h : TreeSound shared) {key : Text}
    (htree : shared'.agents.agentTree = shared.agents.agentTree.insert key metadata)
    (hids : shared.threadIds ⊆ shared'.threadIds)
    (hgiv : ∀ nickname, Given shared.agents nickname → Given shared'.agents nickname) (hkey : KeyOf metadata key)
    (hid : ∀ threadId, metadata.agentId = some threadId → threadId ∈ shared'.threadIds)
    (hnick : ∀ nickname, metadata.agentNickname = some nickname → Given shared.agents nickname ∧
      ∀ key metadata, shared.agents.agentTree.lookup key = some metadata → metadata.agentNickname ≠ some nickname) :
    TreeSound shared' := by
  have hlk : ∀ key' found, shared'.agents.agentTree.lookup key' = some found →
      (key' = key ∧ found = metadata) ∨ shared.agents.agentTree.lookup key' = some found := by
    intro key' found hfnd
    rw [htree, HashMap.lookup_insert_eq] at hfnd
    split at hfnd
    next heq => exact .inl ⟨heq, (some.inj hfnd).symm⟩
    next => exact .inr hfnd
  constructor
  · intro key' found hfnd
    rcases hlk key' found hfnd with ⟨rfl, rfl⟩ | hfnd
    · exact hkey
    · exact h.keyed key' found hfnd
  · intro key' found threadId hfnd hthread
    rcases hlk key' found hfnd with ⟨rfl, rfl⟩ | hfnd
    · exact hid threadId hthread
    · exact hids (h.known key' found threadId hfnd hthread)
  · intro key' found nickname hfnd hname
    rcases hlk key' found hfnd with ⟨rfl, rfl⟩ | hfnd
    · exact hgiv nickname (hnick nickname hname).1
    · exact hgiv nickname (h.given key' found nickname hfnd hname)
  · intro key₁ key₂ found₁ found₂ nickname hfnd₁ hfnd₂ hname₁ hname₂
    rcases hlk key₁ found₁ hfnd₁ with ⟨rfl, rfl⟩ | hfnd₁
    · rcases hlk key₂ found₂ hfnd₂ with ⟨rfl, rfl⟩ | hfnd₂
      · rfl
      · exact absurd hname₂ ((hnick nickname hname₁).2 key₂ found₂ hfnd₂)
    · rcases hlk key₂ found₂ hfnd₂ with ⟨rfl, rfl⟩ | hfnd₂
      · exact absurd hname₁ ((hnick nickname hname₂).2 key₁ found₁ hfnd₁)
      · exact h.nicknames key₁ key₂ found₁ found₂ nickname hfnd₁ hfnd₂ hname₁ hname₂

theorem TreeSound.shrink (h : TreeSound shared)
    (htree : ∀ key metadata, shared'.agents.agentTree.lookup key = some metadata →
      shared.agents.agentTree.lookup key = some metadata) (hids : shared.threadIds ⊆ shared'.threadIds)
    (hgiv : ∀ nickname, Given shared.agents nickname → Given shared'.agents nickname) : TreeSound shared' := by
  constructor
  · exact fun key metadata hfnd => h.keyed key metadata (htree key metadata hfnd)
  · exact fun key metadata threadId hfnd hid => hids (h.known key metadata threadId (htree key metadata hfnd) hid)
  · exact fun key metadata nickname hfnd hname =>
      hgiv nickname (h.given key metadata nickname (htree key metadata hfnd) hname)
  · exact fun key key' metadata metadata' nickname hfnd hfnd' =>
      h.nicknames key key' metadata metadata' nickname (htree key metadata hfnd) (htree key' metadata' hfnd')

theorem ReservationSound.other (h : ReservationSound shared reservation)
    (hgiv : ∀ nickname, Given shared.agents nickname → Given shared'.agents nickname)
    (hpath : ∀ agentPath, reservation.reservedAgentPath = some agentPath →
      shared'.agents.agentTree.lookup agentPath.text = shared.agents.agentTree.lookup agentPath.text)
    (hnick : ∀ nickname key metadata, reservation.reservedAgentNickname = some nickname →
      shared'.agents.agentTree.lookup key = some metadata → metadata.agentNickname = some nickname →
        ∃ metadata, shared.agents.agentTree.lookup key = some metadata ∧ metadata.agentNickname = some nickname) :
    ReservationSound shared' reservation := by
  constructor
  · intro agentPath hres
    rw [hpath agentPath hres]
    exact h.path agentPath hres
  · intro nickname hres
    obtain ⟨hold, hunused⟩ := h.nickname nickname hres
    refine ⟨hgiv nickname hold, fun key metadata hfnd hname => ?_⟩
    obtain ⟨metadata', hfnd', hname'⟩ := hnick nickname key metadata hres hfnd hname
    exact hunused key metadata' hfnd' hname'

theorem commit_key (h : TreeSound shared) (hrsv : ReservationSound shared reservation)
    (hmay : shared.MayCommit reservation metadata threadId) :
    (∃ agentPath, reservation.reservedAgentPath = some agentPath ∧ metadata.key threadId = agentPath.text ∧
      shared.agents.agentTree.lookup (metadata.key threadId) = some { agentPath := some agentPath }) ∨
    shared.agents.agentTree.lookup (metadata.key threadId) = none := by
  obtain ⟨hid, hfr, hpath, -⟩ := hmay
  cases hmetadata : metadata.agentPath with
  | some agentPath =>
      rw [hmetadata] at hpath
      rcases hpath with hnone | ⟨hres, -⟩
      · cases hnone
      · left
        have hkey : metadata.key threadId = agentPath.text := by simp [key, hmetadata]
        exact ⟨agentPath, hres.symm, hkey, hkey ▸ hrsv.path agentPath hres.symm⟩
  | none =>
      right
      have hkey : metadata.key threadId = "thread:" ++ threadId := by simp [key, hmetadata]
      rw [hkey]
      cases hfnd : shared.agents.agentTree.lookup ("thread:" ++ threadId) with
      | none => rfl
      | some found =>
          -- A path does not start like the key, and the thread id has not been given out.
          rcases h.keyed _ found hfnd with hpath | ⟨-, other, hoth, hsame⟩
          · obtain ⟨agentPath, -, htext⟩ := map_eq_some_iff.mp hpath
            have hhead := agentPath.head?_text
            rw [htext] at hhead
            simp at hhead
          · obtain rfl := List.append_cancel_left hsame
            exact absurd (h.known _ found threadId hfnd hoth) hfr

theorem keyOf_commit (hid : metadata.agentId = some threadId) :
    KeyOf metadata (metadata.key threadId) := by
  cases hpath : metadata.agentPath with
  | some agentPath => exact .inl (by simp [hpath, key])
  | none => exact .inr ⟨hpath, threadId, hid, by simp [hpath, key]⟩

theorem given_registerSpawnedThread (metadata : AgentMetadata) {agents : ActiveAgents} {nickname : Text}
    (h : Given agents nickname) : Given (agents.registerSpawnedThread metadata) nickname := by
  unfold registerSpawnedThread
  split
  next => exact h
  next => exact h.mono rfl Finset.subset_union_left

theorem agentTree_commit (hid : metadata.agentId = some threadId) :
    (shared.commit metadata threadId).agents.agentTree =
      shared.agents.agentTree.insert (metadata.key threadId) metadata := by
  simp [commit, agents, registerSpawnedThread, hid]

theorem agents_drop_none (h : reservation.reservedAgentPath = none) : (shared.drop reservation).agents = shared.agents := by
  simp [drop, h]

theorem agents_drop_some {agentPath : AgentPath} (hrsv : ReservationSound shared reservation)
    (h : reservation.reservedAgentPath = some agentPath) : (shared.drop reservation).agents =
      { shared.agents with agentTree := shared.agents.agentTree.erase agentPath.text } := by
  have hdrop : (shared.drop reservation).agents = shared.agents.releaseReservedAgentPath agentPath := by
    simp [drop, h, withAgents, agents]
  rw [hdrop, releaseReservedAgentPath, hrsv.path agentPath h]
  rfl

theorem lookup_drop (hrsv : ReservationSound shared reservation) (key : Text) :
    (shared.drop reservation).agents.agentTree.lookup key =
      if reservation.reservedAgentPath.map (·.text) = some key then none else shared.agents.agentTree.lookup key := by
  cases hpath : reservation.reservedAgentPath with
  | none => simp [agents_drop_none hpath]
  | some agentPath =>
      rw [agents_drop_some hrsv hpath, HashMap.lookup_erase_eq]
      simp [eq_comm]

theorem given_drop {nickname : Text} (hrsv : ReservationSound shared reservation)
    (h : Given shared.agents nickname) : Given (shared.drop reservation).agents nickname := by
  cases hpath : reservation.reservedAgentPath with
  | none => rwa [agents_drop_none hpath]
  | some agentPath =>
      rw [agents_drop_some hrsv hpath]
      exact h.mono rfl (Finset.Subset.refl _)

end

end CodexStudy.Agents
