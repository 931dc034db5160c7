import CodexStudy.RemoteControl.Segment
import Mathlib.Data.List.Perm.Subperm

/-!
# What an observation does to the assemblies
-/

namespace CodexStudy.RemoteControl

open CodexStudy.Lib ClientSegmentReassembler List HashMap

variable {r : ClientSegmentReassembler} {clientId : ClientId} {assembly : ClientSegmentAssembly}

/-! ## Removing -/

variable {client : ClientId} {stream : StreamId} {entries : List AssemblyEntry} {place : ClientId → Nat}
    {clients : List ClientId} {assemblies : HashMap ClientId ClientSegmentAssembly} {time : Nat}

theorem lookup_of_removeAssembly (h : (r.removeAssembly client stream).assemblies.lookup clientId = some assembly) :
    r.assemblies.lookup clientId = some assembly := by
  unfold removeAssembly at h
  split at h
  next => exact lookup_of_lookup_erase h
  next => exact h

theorem lookup_removeAssembly_of_ne (h : clientId ≠ client) :
    (r.removeAssembly client stream).assemblies.lookup clientId = r.assemblies.lookup clientId := by
  unfold removeAssembly
  split
  next => exact AList.lookup_erase_ne h
  next => rfl

theorem lookup_removeAssembly_of_stream_ne (h : r.assemblies.lookup clientId = some assembly)
    (hs : clientId = client → assembly.streamId ≠ stream) :
    (r.removeAssembly client stream).assemblies.lookup clientId = some assembly := by
  by_cases hc : clientId = client
  · subst hc
    unfold removeAssembly
    rw [if_neg (by rw [h]; simpa using hs rfl)]
    exact h
  · rw [lookup_removeAssembly_of_ne hc]
    exact h

theorem lookup_removeAssembly_self
    (h : ∀ assembly, r.assemblies.lookup client = some assembly → assembly.streamId = stream) :
    (r.removeAssembly client stream).assemblies.lookup client = none := by
  unfold removeAssembly
  cases hc : r.assemblies.lookup client with
  | none => simpa using hc
  | some assembly =>
      have hs : assembly.streamId = stream := h assembly hc
      rw [if_pos (by simpa using hs)]
      exact AList.lookup_erase _ _

/-! ## Eviction -/

variable {entry : AssemblyEntry} {rounds : Nat} {old : ClientSegmentAssembly} {envelope : ClientEnvelope}

theorem oldest_mem (h : oldest place entries = some entry) : entry ∈ entries := by
  induction entries generalizing entry with
  | nil => cases h
  | cons first entries ih =>
      rw [oldest] at h
      cases hrest : oldest place entries with
      | none =>
          rw [hrest] at h
          cases h
          exact mem_cons_self
      | some other =>
          rw [hrest] at h
          dsimp only at h
          split at h
          next => cases h; exact mem_cons_self
          next => cases h; exact mem_cons_of_mem _ (ih hrest)

theorem oldest_eq_none (h : oldest place entries = none) : entries = [] := by
  cases entries with
  | nil => rfl
  | cons first entries =>
      rw [oldest] at h
      cases hrest : oldest place entries with
      | none => rw [hrest] at h; cases h
      | some other =>
          rw [hrest] at h
          dsimp only at h
          split at h <;> cases h

theorem oldest_le {other : AssemblyEntry} (h : oldest place entries = some entry) (hoth : other ∈ entries) :
    entry.2.lastChunkSeenAt ≤ other.2.lastChunkSeenAt := by
  induction entries generalizing entry with
  | nil => cases h
  | cons first entries ih =>
      rw [oldest] at h
      cases hrest : oldest place entries with
      | none =>
          rw [hrest] at h
          cases h
          rw [oldest_eq_none hrest, mem_singleton] at hoth
          rw [hoth]
      | some least =>
          rw [hrest] at h
          dsimp only at h
          have hleast : other ∈ entries → least.2.lastChunkSeenAt ≤ other.2.lastChunkSeenAt := ih hrest
          have holder : isOlder place first least = true → first.2.lastChunkSeenAt ≤ least.2.lastChunkSeenAt := by
            intro ho
            simp only [isOlder, Bool.or_eq_true, decide_eq_true_eq, Bool.and_eq_true, beq_iff_eq] at ho
            omega
          have hnot : ¬ isOlder place first least = true → least.2.lastChunkSeenAt ≤ first.2.lastChunkSeenAt := by
            intro ho
            simp only [isOlder, Bool.or_eq_true, decide_eq_true_eq, Bool.and_eq_true, beq_iff_eq] at ho
            omega
          rcases mem_cons.mp hoth with rfl | hoth
          · split at h
            next => cases h; exact le_refl _
            next ho => cases h; exact hnot ho
          · split at h
            next ho => cases h; exact (holder ho).trans (hleast hoth)
            next => cases h; exact hleast hoth

def RecentAmong (clients : List ClientId) (time : Nat) (assemblies : HashMap ClientId ClientSegmentAssembly) : Prop :=
  ∀ client assembly, assemblies.lookup client = some assembly → time ≤ assembly.lastChunkSeenAt → client ∈ clients

theorem RecentAmong.erase (h : RecentAmong clients time assemblies) (client : ClientId) :
    RecentAmong clients time (assemblies.erase client) :=
  fun other assembly hoth => h other assembly (lookup_of_lookup_erase hoth)

theorem exists_old (h : RecentAmong clients time assemblies) (hlen : clients.length < assemblies.entries.length) :
    ∃ entry ∈ assemblies.entries, entry.2.lastChunkSeenAt < time := by
  by_contra hnone
  simp only [not_exists, not_and, Nat.not_lt] at hnone
  have hsub : assemblies.keys ⊆ clients := by
    intro client hcl
    obtain ⟨assembly, hassembly⟩ := Option.isSome_iff_exists.mp (AList.lookup_isSome.mpr hcl)
    exact h client assembly hassembly (hnone _ (AList.mem_lookup_iff.mp hassembly))
  have hle := (subperm_of_subset assemblies.keys_nodup hsub).length_le
  have hkeys : assemblies.keys.length = assemblies.entries.length := length_map _
  omega

theorem lookup_evictRounds (h : RecentAmong clients time assemblies)
    (hlen : clients.length < REMOTE_CONTROL_SEGMENT_ASSEMBLY_MAX_COUNT)
    (ha : assemblies.lookup clientId = some assembly) (htime : time ≤ assembly.lastChunkSeenAt) :
    (evictRounds place rounds assemblies).lookup clientId = some assembly := by
  induction rounds generalizing assemblies with
  | zero => exact ha
  | succ rounds ih =>
      rw [evictRounds]
      split
      next hfull =>
        cases ho : oldest place assemblies.entries with
        | none => exact ha
        | some entry =>
            apply ih (h.erase entry.1)
            -- The evicted assembly is older than that of the client.
            obtain ⟨old, hold, holdtime⟩ := exists_old h (by omega)
            have hle := oldest_le ho hold
            have hne : clientId ≠ entry.1 := by
              rintro rfl
              have hent := AList.mem_lookup_iff.mpr (oldest_mem ho)
              rw [Option.mem_def, ha] at hent
              cases hent
              omega
            rw [AList.lookup_erase_ne hne]
            exact ha
      next => exact ha

theorem lookup_of_evictRounds (h : (evictRounds place rounds assemblies).lookup clientId = some assembly) :
    assemblies.lookup clientId = some assembly := by
  induction rounds generalizing assemblies with
  | zero => exact h
  | succ rounds ih =>
      rw [evictRounds] at h
      split at h
      next =>
        cases ho : oldest place assemblies.entries with
        | none => rw [ho] at h; exact h
        | some entry =>
            rw [ho] at h
            exact lookup_of_lookup_erase (ih h)
      next => exact h

/-! ## Preparing -/

section

variable {chunk : Chunk} {place : ClientId → Nat} {now : Nat}

theorem lookup_prepare_self (hnone : ∀ old, r.assemblies.lookup chunk.clientId = some old →
      old.streamId ≠ chunk.streamId) :
    (chunk.prepare place now r).assemblies.lookup chunk.clientId = some (chunk.emptyAssembly now) := by
  unfold Chunk.prepare
  cases hc : r.assemblies.lookup chunk.clientId with
  | none => exact AList.lookup_insert _
  | some old =>
      dsimp only
      rw [if_pos (hnone old hc)]
      exact AList.lookup_insert _

theorem prepare_of_stream (h : r.assemblies.lookup chunk.clientId = some old)
    (hs : old.streamId = chunk.streamId) : chunk.prepare place now r = r := by
  unfold Chunk.prepare
  rw [h]
  dsimp only
  rw [if_neg (not_not_intro hs)]

theorem lookup_of_prepare (h : (chunk.prepare place now r).assemblies.lookup clientId = some assembly) :
    r.assemblies.lookup clientId = some assembly ∨ clientId = chunk.clientId ∧ assembly = chunk.emptyAssembly now := by
  have hinsert : ∀ m : HashMap ClientId ClientSegmentAssembly,
      (∀ a, m.lookup clientId = some a → r.assemblies.lookup clientId = some a) →
      (m.insert chunk.clientId (chunk.emptyAssembly now)).lookup clientId = some assembly →
      r.assemblies.lookup clientId = some assembly ∨
        clientId = chunk.clientId ∧ assembly = chunk.emptyAssembly now := by
    intro m hm hlk
    rw [lookup_insert_eq] at hlk
    split at hlk
    next hc => cases hlk; exact .inr ⟨hc, rfl⟩
    next => exact .inl (hm _ hlk)
  unfold Chunk.prepare at h
  cases hc : r.assemblies.lookup chunk.clientId with
  | none =>
      rw [hc] at h
      exact hinsert _ (fun _ => lookup_of_evictRounds) h
  | some old =>
      rw [hc] at h
      dsimp only at h
      split at h
      next => exact hinsert _ (fun _ ha => ha) h
      next => exact .inl h

theorem prepare_stream (h : (chunk.prepare place now r).assemblies.lookup chunk.clientId = some assembly) :
    assembly.streamId = chunk.streamId := by
  by_cases hs : ∀ old, r.assemblies.lookup chunk.clientId = some old → old.streamId ≠ chunk.streamId
  · rw [lookup_prepare_self hs] at h
    cases h
    rfl
  · simp only [not_forall, not_not] at hs
    obtain ⟨old, hold, hs⟩ := hs
    rw [prepare_of_stream hold hs, hold] at h
    cases h
    exact hs

theorem lookup_prepare_of_ne (hne : clientId ≠ chunk.clientId)
    (h : r.assemblies.lookup chunk.clientId = none → RecentAmong clients time r.assemblies)
    (hlen : clients.length < REMOTE_CONTROL_SEGMENT_ASSEMBLY_MAX_COUNT)
    (ha : r.assemblies.lookup clientId = some assembly) (htime : time ≤ assembly.lastChunkSeenAt) :
    (chunk.prepare place now r).assemblies.lookup clientId = some assembly := by
  unfold Chunk.prepare
  cases hc : r.assemblies.lookup chunk.clientId with
  | none =>
      dsimp only
      rw [AList.lookup_insert_ne hne]
      exact lookup_evictRounds (h hc) hlen ha htime
  | some old =>
      dsimp only
      split
      next => rw [AList.lookup_insert_ne hne]; exact ha
      next => exact ha

/-! ## Observing -/

variable {codec : Codec}

theorem update_pending (h : old.update codec now chunk = .pending assembly) :
    assembly.streamId = old.streamId ∧ assembly.metadata = old.metadata ∧ old.metadata = chunk.metadata ∧
      (assembly = old ∨ assembly.lastChunkSeenAt = now) := by
  unfold ClientSegmentAssembly.update at h
  split at h
  next => cases h
  next =>
    split at h
    next => cases h
    next hmeta =>
      rw [not_not] at hmeta
      split at h
      next => cases h; exact ⟨rfl, rfl, hmeta, .inl rfl⟩
      next =>
        split at h
        next => cases h
        next =>
          dsimp only at h
          cases hd : codec.decode chunk.messageChunkBase64 with
          | none => rw [hd] at h; cases h
          | some bytes =>
              rw [hd] at h
              dsimp only at h
              split at h
              next => cases h
              next =>
                split at h
                next => cases h; exact ⟨rfl, rfl, hmeta, .inr rfl⟩
                next =>
                  split at h
                  next => cases h
                  next =>
                    cases hp : codec.fromSlice (old.raw ++ bytes) with
                    | none => rw [hp] at h; cases h
                    | some message => rw [hp] at h; cases h

theorem lookup_of_observeChunk
    (h : (r.observeChunk codec place now envelope chunk).2.assemblies.lookup clientId = some assembly) :
    r.assemblies.lookup clientId = some assembly ∨
      clientId = chunk.clientId ∧ assembly.streamId = chunk.streamId ∧ assembly.metadata = chunk.metadata ∧
        assembly.lastChunkSeenAt = now := by
  have hprep : ∀ a, (chunk.prepare place now r).assemblies.lookup clientId = some a →
      r.assemblies.lookup clientId = some a ∨
        clientId = chunk.clientId ∧ a.streamId = chunk.streamId ∧ a.metadata = chunk.metadata ∧
          a.lastChunkSeenAt = now := by
    intro a ha
    rcases lookup_of_prepare ha with hold | ⟨hc, rfl⟩
    · exact .inl hold
    · exact .inr ⟨hc, rfl, rfl, rfl⟩
  unfold observeChunk at h
  split at h
  next => exact .inl h
  next =>
    split at h
    next => exact .inl (lookup_of_removeAssembly h)
    next =>
      dsimp only at h
      cases hc : (chunk.prepare place now r).assemblies.lookup chunk.clientId with
      | none => rw [hc] at h; exact hprep _ h
      | some old =>
          rw [hc] at h
          dsimp only at h
          cases hu : old.update codec now chunk with
          | ignore => rw [hu] at h; exact hprep _ h
          | drop => rw [hu] at h; exact hprep _ (lookup_of_removeAssembly h)
          | complete message => rw [hu] at h; exact hprep _ (lookup_of_removeAssembly h)
          | pending new =>
              rw [hu] at h
              dsimp only at h
              rw [lookup_insert_eq] at h
              split at h
              next hcl =>
                cases h
                obtain ⟨hs, hm, hck, rfl | hnow⟩ := update_pending hu
                · rw [← hcl] at hc
                  exact hprep _ hc
                · have hstr := prepare_stream hc
                  exact .inr ⟨hcl, hs.trans hstr, hm.trans hck, hnow⟩
              next => exact hprep _ h

theorem lookup_observeChunk_of_ne (hne : clientId ≠ chunk.clientId)
    (h : r.assemblies.lookup chunk.clientId = none → RecentAmong clients time r.assemblies)
    (hlen : clients.length < REMOTE_CONTROL_SEGMENT_ASSEMBLY_MAX_COUNT)
    (ha : r.assemblies.lookup clientId = some assembly) (htime : time ≤ assembly.lastChunkSeenAt) :
    (r.observeChunk codec place now envelope chunk).2.assemblies.lookup clientId = some assembly := by
  have hprep : (chunk.prepare place now r).assemblies.lookup clientId = some assembly :=
    lookup_prepare_of_ne hne h hlen ha htime
  unfold observeChunk
  split
  next => exact ha
  next =>
    split
    next => rw [lookup_removeAssembly_of_ne hne]; exact ha
    next =>
      dsimp only
      cases hc : (chunk.prepare place now r).assemblies.lookup chunk.clientId with
      | none => exact hprep
      | some old =>
          dsimp only
          cases hu : old.update codec now chunk with
          | ignore => exact hprep
          | drop => dsimp only; rw [lookup_removeAssembly_of_ne hne]; exact hprep
          | complete message => dsimp only; rw [lookup_removeAssembly_of_ne hne]; exact hprep
          | pending new => dsimp only; rw [AList.lookup_insert_ne hne]; exact hprep

end

end CodexStudy.RemoteControl
