import CodexStudy.MessageHistory.History

/-!
# Offsets into the message history

The identity of the history does not change when its first lines are dropped, so an offset names another entry then.
-/

namespace CodexStudy.MessageHistory

open CodexStudy.Lib List HistoryFile Nat

/-- A lookup with an offset below a count that was returned before finds the entry that was there, or nothing. -/
def OffsetsKept (host : Host) (log : List HistoryEvent) : Prop :=
  ∀ before logId offset entry after, log = before ++ .lookup logId offset entry :: after →
    ∀ count content, .metadata logId count content ∈ before → offset < count →
      entry = none ∨ entry = historyEntryAt host content offset

/-- A call of `history_metadata` has counted a line. -/
def Counted (s : HistorySystem) : Prop :=
  (∃ logId count content, .metadata logId count content ∈ s.shared.log ∧ 0 < count) ∨
    ∃ t position count, s.task t = .metadataReads position count ∧ 0 < count

/-- Where an append drops lines, nobody has counted a line. -/
def DropsUncounted (host : Host) (s : HistorySystem) (a : Nat × HistoryStep) : Prop :=
  a.2 = .go → ∀ maxBytes tail, s.task a.1 = .appendTrims maxBytes →
    historyTail host maxBytes s.shared.content = some tail → ¬Counted s

/-! ## Lines -/

variable {content tail : Text} {k count logId offset : Nat} {entry : Option HistoryEntry} {step : HistoryStep}

theorem getElem?_lines_append (more : Text) (h : k < content.count '\n') :
    (content ++ more).lines[k]? = content.lines[k]? := by
  induction k generalizing content with
  | zero =>
      obtain ⟨line, rest, rfl, hline⟩ := eq_append_cons_of_mem (count_pos_iff.mp h)
      rw [append_assoc, cons_append, Text.lines_append _ hline, Text.lines_append _ hline]
      rfl
  | succ k ih =>
      obtain ⟨line, rest, rfl, hline⟩ := eq_append_cons_of_mem (count_pos_iff.mp (zero_lt_of_lt h))
      have hrest : k < rest.count '\n' := by
        rw [count_append, count_eq_zero.mpr hline, count_cons_self] at h
        omega
      rw [append_assoc, cons_append, Text.lines_append _ hline, Text.lines_append _ hline,
        getElem?_cons_succ, getElem?_cons_succ]
      exact ih hrest

theorem historyEntryAt_of_prefix {host : Host} {content' : Text} (h : content <+: content')
    (hk : k < content.count '\n') : historyEntryAt host content' k = historyEntryAt host content k := by
  obtain ⟨more, rfl⟩ := h
  unfold historyEntryAt
  rw [getElem?_lines_append more hk]

/-! ## What is known in every state -/

def ProcessPhase.holdsLock : ProcessPhase → Bool
  | appendTrims _ | appendWrites _ => true
  | _ => false

structure FileSound (host : Host) (file : HistoryFile) : Prop where
  counted : ∀ logId count content, .metadata logId count content ∈ file.log →
    count ≤ content.count '\n' ∧ (0 < count → content <+: file.content)
  kept : OffsetsKept host file.log

structure PhaseSound (file : HistoryFile) (phase : ProcessPhase) : Prop where
  holds : phase.holdsLock = true → file.locked = true
  reads : ∀ position count, phase = .metadataReads position count → count ≤ (file.content.take position).count '\n'
  writes : ∀ tail, phase = .appendWrites tail → file.content = [] ∧
    ∀ logId count content, .metadata logId count content ∈ file.log → count = 0

def PhasesApart (p q : ProcessPhase) : Prop := p.holdsLock = true → q.holdsLock = false

theorem PhasesApart.symm {p q : ProcessPhase} (h : PhasesApart p q) : PhasesApart q p := by
  intro hq
  by_contra hp
  rw [h (eq_true_of_ne_false hp)] at hq
  cases hq

def HistorySound (host : Host) : HistorySystem → Prop :=
  Tasks.Keeps (FileSound host) (fun _ => PhaseSound) PhasesApart

theorem PhaseSound.plain {file : HistoryFile} {phase : ProcessPhase} (hlock : phase.holdsLock = false)
    (hrds : ∀ position count, phase ≠ .metadataReads position count) : PhaseSound file phase := by
  constructor
  · intro h
    rw [hlock] at h
    cases h
  · exact fun position count h => absurd h (hrds position count)
  · rintro tail rfl
    cases hlock

theorem PhaseSound.idle (file : HistoryFile) : PhaseSound file .idle :=
  .plain rfl fun _ _ h => (by cases h)

section

variable {host : Host} {file : HistoryFile}

/-! ## Noting what a call returns -/

theorem offsetsKept_note {log : List HistoryEvent} {event : HistoryEvent} (h : OffsetsKept host log)
    (hevent : ∀ logId offset entry, event = .lookup logId offset entry →
      ∀ count content, .metadata logId count content ∈ log → offset < count →
        entry = none ∨ entry = historyEntryAt host content offset) : OffsetsKept host (log ++ [event]) := by
  intro before logId offset entry after heq
  rcases eq_nil_or_concat' after with rfl | ⟨after, last, rfl⟩
  · obtain ⟨rfl, hlast⟩ := append_inj' heq rfl
    obtain ⟨rfl, -⟩ := cons.inj hlast
    exact hevent logId offset entry rfl
  · rw [← cons_append, ← append_assoc] at heq
    obtain ⟨rfl, -⟩ := append_inj' heq rfl
    exact h before logId offset entry after rfl

theorem fileSound_note_metadata (h : FileSound host file) (hcnt : count ≤ file.content.count '\n') :
    FileSound host (file.note (.metadata host.logIdentity count file.content)) := by
  constructor
  · intro logId count' content hmem
    rcases mem_append.mp hmem with hmem | hmem
    · exact h.counted logId count' content hmem
    · cases mem_singleton.mp hmem
      exact ⟨hcnt, fun _ => prefix_rfl⟩
  · exact offsetsKept_note h.kept fun _ _ _ heq => by cases heq

theorem fileSound_note_lookup (h : FileSound host file)
    (hent : entry = none ∨ entry = historyEntryAt host file.content offset) :
    FileSound host (file.note (.lookup logId offset entry)) := by
  constructor
  · intro logId count content hmem
    rcases mem_append.mp hmem with hmem | hmem
    · exact h.counted logId count content hmem
    · cases mem_singleton.mp hmem
  · refine offsetsKept_note h.kept fun logId' offset' entry' heq count content hmem hoffset => ?_
    cases heq
    obtain ⟨hcnt, hbeg⟩ := h.counted logId count content hmem
    refine hent.imp_right fun hent => hent.trans ?_
    exact historyEntryAt_of_prefix (hbeg (zero_lt_of_lt hoffset)) (lt_of_lt_of_le hoffset hcnt)

theorem lookupHistoryEntry_cases (content : Text) (logId offset : Nat) :
    lookupHistoryEntry host content logId offset = none ∨
      lookupHistoryEntry host content logId offset = historyEntryAt host content offset := by
  unfold lookupHistoryEntry
  split
  next => exact .inl rfl
  next => exact .inr rfl

end

/-! ## What a step keeps -/

section

variable {host : Host} {s s' : HistorySystem} {t : Nat} {file : HistoryFile} {phase : ProcessPhase}

/-- What is known holds again when the process `t` has moved. -/
structure Kept (host : Host) (s : HistorySystem) (t : Nat) (file : HistoryFile) (phase : ProcessPhase) : Prop where
  shared : FileSound host file
  own : PhaseSound file phase
  other : ∀ u, u ≠ t → PhaseSound file (s.task u) ∧ PhasesApart phase (s.task u)

variable (h : HistorySound host s)

include h in
theorem kept_phase (hlock : phase.holdsLock = false) (hown : PhaseSound s.shared phase) :
    Kept host s t s.shared phase := by
  refine ⟨h.shared, hown, fun u _ => ⟨h.own u, fun hp => ?_⟩⟩
  rw [hlock] at hp
  cases hp

include h in
theorem holdsLock_of_free (hfree : ¬s.shared.locked = true) (u : Nat) :
    (s.task u).holdsLock = false := by
  by_contra hhld
  exact hfree ((h.own u).holds (eq_true_of_ne_false hhld))

theorem not_writes {u : Nat} (hlock : (s.task u).holdsLock = false) : s.task u ≠ .appendWrites tail := by
  intro hws
  rw [hws] at hlock
  cases hlock

include h in
theorem kept_note_metadata (hcnt : count ≤ s.shared.content.count '\n') :
    Kept host s t (s.shared.note (.metadata host.logIdentity count s.shared.content)) .idle := by
  refine ⟨fileSound_note_metadata h.shared hcnt, .idle _, fun u _ => ⟨?_, ?_⟩⟩
  · obtain ⟨hhld, hrds, hws⟩ := h.own u
    refine ⟨hhld, hrds, fun tail hu => ?_⟩
    obtain ⟨hemp, hzero⟩ := hws tail hu
    refine ⟨hemp, fun logId count' content hmem => ?_⟩
    rcases mem_append.mp hmem with hmem | hmem
    · exact hzero logId count' content hmem
    · cases mem_singleton.mp hmem
      rw [hemp] at hcnt
      exact le_zero.mp hcnt
  · exact fun hp => by cases hp

include h in
theorem kept_note_lookup (hent : entry = none ∨ entry = historyEntryAt host s.shared.content offset) :
    Kept host s t (s.shared.note (.lookup logId offset entry)) .idle := by
  refine ⟨fileSound_note_lookup h.shared hent, .idle _, fun u _ => ⟨?_, ?_⟩⟩
  · obtain ⟨hhld, hrds, hws⟩ := h.own u
    refine ⟨hhld, hrds, fun tail hu => ?_⟩
    obtain ⟨hemp, hzero⟩ := hws tail hu
    refine ⟨hemp, fun logId' count content hmem => ?_⟩
    rcases mem_append.mp hmem with hmem | hmem
    · exact hzero logId' count content hmem
    · cases mem_singleton.mp hmem
  · exact fun hp => by cases hp

include h in
theorem kept_append (hfree : ¬s.shared.locked = true) (line : Text) (maxBytes : Option Nat) :
    Kept host s t { s.shared with content := s.shared.content ++ line, locked := true } (.appendTrims maxBytes) := by
  have hfree' := holdsLock_of_free h hfree
  refine ⟨⟨fun logId count content hmem => ?_, h.shared.kept⟩, ?_, fun u _ => ⟨⟨fun _ => rfl, ?_, ?_⟩, fun _ => hfree' u⟩⟩
  · obtain ⟨hcnt, hbeg⟩ := h.shared.counted logId count content hmem
    exact ⟨hcnt, fun hpos => (hbeg hpos).trans (prefix_append _ _)⟩
  · exact ⟨fun _ => rfl, fun _ _ hp => (by cases hp), fun _ hp => (by cases hp)⟩
  · intro position count hu
    have hgrow : (s.shared.content.take position).Sublist ((s.shared.content ++ line).take position) :=
      ((prefix_append _ _).take position).sublist
    exact ((h.own u).reads position count hu).trans (hgrow.count_le '\n')
  · exact fun tail hu => absurd hu (not_writes (hfree' u))

include h in
theorem kept_unlock (hhld : (s.task t).holdsLock = true) :
    Kept host s t { s.shared with locked := false } .idle := by
  refine ⟨⟨h.shared.counted, h.shared.kept⟩, .idle _, fun u hu => ⟨?_, ?_⟩⟩
  · have hoth := h.apart t u (Ne.symm hu) hhld
    obtain ⟨-, hrds, hws⟩ := h.own u
    refine ⟨fun hp => ?_, hrds, hws⟩
    rw [hoth] at hp
    cases hp
  · exact fun hp => by cases hp

include h in
theorem kept_empty (hhld : (s.task t).holdsLock = true) (huncounted : ¬Counted s)
    (tail : Text) : Kept host s t { s.shared with content := [] } (.appendWrites tail) := by
  have hzero : ∀ logId count content, .metadata logId count content ∈ s.shared.log → count = 0 := by
    intro logId count content hmem
    by_contra hcnt
    exact huncounted (.inl ⟨logId, count, content, hmem, pos_of_ne_zero hcnt⟩)
  refine ⟨⟨fun logId count content hmem => ?_, h.shared.kept⟩, ?_, fun u hu => ⟨⟨?_, ?_, ?_⟩, ?_⟩⟩
  · refine ⟨(h.shared.counted logId count content hmem).1, fun hpos => ?_⟩
    rw [hzero logId count content hmem] at hpos
    cases hpos
  · exact ⟨fun _ => (h.own t).holds hhld, fun _ _ hp => (by cases hp), fun _ _ => ⟨rfl, hzero⟩⟩
  · exact (h.own u).holds
  · intro position count hrds
    by_contra hcnt
    exact huncounted (.inr ⟨u, position, count, hrds, by omega⟩)
  · exact fun tail' hws => absurd hws (not_writes (h.apart t u (Ne.symm hu) hhld))
  · exact fun _ => h.apart t u (Ne.symm hu) hhld

include h in
theorem kept_restore (hph : s.task t = .appendWrites tail) :
    Kept host s t { s.shared with content := tail, locked := false } .idle := by
  obtain ⟨hemp, hzero⟩ := (h.own t).writes tail hph
  have hhld : (s.task t).holdsLock = true := by rw [hph]; rfl
  refine ⟨⟨fun logId count content hmem => ?_, h.shared.kept⟩, .idle _,
    fun u hu => ⟨⟨?_, ?_, ?_⟩, fun hp => (by cases hp)⟩⟩
  · refine ⟨(h.shared.counted logId count content hmem).1, fun hpos => ?_⟩
    rw [hzero logId count content hmem] at hpos
    cases hpos
  · intro hp
    rw [h.apart t u (Ne.symm hu) hhld] at hp
    cases hp
  · intro position count hrds
    have hcnt := (h.own u).reads position count hrds
    rw [hemp, take_nil, count_nil] at hcnt
    exact hcnt.trans (zero_le _)
  · exact fun tail' hws => absurd hws (not_writes (h.apart t u (Ne.symm hu) hhld))

include h in
theorem kept_read {position length : Nat} (hph : s.task t = .metadataReads position count) : Kept host s t s.shared
      (.metadataReads (position + ((s.shared.content.drop position).take length).length)
        (count + ((s.shared.content.drop position).take length).count '\n')) := by
  refine kept_phase h rfl ⟨fun hp => (by cases hp), fun position' count' heq => ?_, fun _ hp => (by cases hp)⟩
  cases heq
  have hspl : s.shared.content.take (position + ((s.shared.content.drop position).take length).length) =
      s.shared.content.take position ++ (s.shared.content.drop position).take length := by
    rw [take_add]
    congr 1
    exact take_eq_take_iff.mpr (by rw [length_take]; omega)
  rw [hspl, count_append]
  exact Nat.add_le_add_right ((h.own t).reads position count hph) _

include h in
theorem kept_of_go (hgd : DropsUncounted host s (t, .go))
    (hgo : s.shared.go host (s.task t) = some (file, phase)) : Kept host s t file phase := by
  cases hph : s.task t with
  | idle =>
      rw [hph] at hgo
      cases hgo
  | appendLocks line maxBytes =>
      rw [hph] at hgo
      unfold go at hgo
      dsimp only at hgo
      split at hgo
      next => cases hgo
      next hfree =>
        cases hgo
        exact kept_append h hfree line maxBytes
  | appendTrims maxBytes =>
      have hhld : (s.task t).holdsLock = true := by rw [hph]; rfl
      rw [hph] at hgo
      unfold go at hgo
      dsimp only at hgo
      split at hgo
      next =>
        cases hgo
        exact kept_unlock h hhld
      next tail htail =>
        cases hgo
        exact kept_empty h hhld (hgd rfl maxBytes tail hph htail) tail
  | appendWrites tail =>
      rw [hph] at hgo
      cases hgo
      exact kept_restore h hph
  | metadataReads position count =>
      rw [hph] at hgo
      unfold go at hgo
      dsimp only at hgo
      split at hgo
      next => cases hgo
      next =>
        cases hgo
        refine kept_note_metadata h (((h.own t).reads position count hph).trans ?_)
        exact (take_sublist _ _).count_le '\n'
  | lookupLocks logId offset =>
      rw [hph] at hgo
      unfold go at hgo
      dsimp only at hgo
      split at hgo
      next => cases hgo
      next =>
        cases hgo
        exact kept_note_lookup h (lookupHistoryEntry_cases _ logId offset)

include h in
theorem kept_of_step (hgd : DropsUncounted host s (t, step))
    (hstep : s.shared.step host (s.task t) step = some (file, phase)) : Kept host s t file phase := by
  unfold HistoryFile.step at hstep
  cases step with
  | appendEntry entry maxBytes =>
      obtain ⟨-, heq⟩ := Option.ite_none_right_eq_some.mp hstep
      cases heq
      exact kept_phase h rfl (.plain rfl fun _ _ hp => by cases hp)
  | historyMetadata =>
      obtain ⟨-, heq⟩ := Option.ite_none_right_eq_some.mp hstep
      cases heq
      refine kept_phase h rfl ⟨fun hp => (by cases hp), fun position count hp => ?_, fun _ hp => (by cases hp)⟩
      cases hp
      exact zero_le _
  | lookup logId offset =>
      obtain ⟨-, heq⟩ := Option.ite_none_right_eq_some.mp hstep
      cases heq
      exact kept_phase h rfl (.plain rfl fun _ _ hp => by cases hp)
  | read length =>
      cases hph : s.task t with
      | metadataReads position count =>
          rw [hph] at hstep
          unfold HistoryFile.read at hstep
          obtain ⟨-, heq⟩ := Option.ite_none_left_eq_some.mp hstep
          cases heq
          exact kept_read h hph
      | _ =>
          rw [hph] at hstep
          cases hstep
  | go => exact kept_of_go h hgd hstep
  | giveUp =>
      cases hph : s.task t with
      | appendLocks line maxBytes =>
          rw [hph] at hstep
          cases hstep
          exact kept_phase h rfl (.idle _)
      | lookupLocks logId offset =>
          rw [hph] at hstep
          cases hstep
          exact kept_note_lookup h (.inl rfl)
      | _ =>
          rw [hph] at hstep
          cases hstep

theorem sound_historyMove {a : Nat × HistoryStep} (h : HistorySound host s) (hgd : DropsUncounted host s a)
    (hmove : HistoryMove host s a s') : HistorySound host s' := by
  refine Tasks.Keeps.of_move h (fun _ _ hap => hap.symm) hmove fun file phase hstep => ?_
  obtain ⟨hshared, hown, hoth⟩ := kept_of_step h hgd hstep
  exact ⟨hshared, hown, hoth⟩

theorem historySound_start (host : Host) (content : Text) : HistorySound host (.start content) := by
  constructor
  · constructor
    · exact fun logId count content hmem => absurd hmem not_mem_nil
    · intro before logId offset entry after heq
      exact absurd heq.symm (append_ne_nil_of_right_ne_nil _ (cons_ne_nil _ _))
  · exact fun t => .idle _
  · exact fun t u _ hp => by cases hp

end

theorem move_of_step {host : Host} {s : HistorySystem} {t : Nat} {phase phase' : ProcessPhase}
    {file : HistoryFile} (hph : s.task t = phase) (hstep : s.shared.step host phase step = some (file, phase')) :
    HistoryMove host s (t, step) ⟨file, Function.update s.task t phase'⟩ := Tasks.move_of_eq hph hstep

theorem not_kept_of_drop {host : Host} {s : HistorySystem} {t : Nat} {maxBytes : Option Nat} {counted : Text}
    (hph : s.task t = .appendTrims maxBytes) (htail : historyTail host maxBytes s.shared.content = some tail)
    (hmem : .metadata host.logIdentity count counted ∈ s.shared.log) (hcnt : 0 < count)
    (hent : historyEntryAt host tail 0 ≠ none) (hoth : historyEntryAt host tail 0 ≠ historyEntryAt host counted 0) :
    ∃ more s', Run (HistoryMove host) s more s' ∧ ¬OffsetsKept host s'.shared.log := by
  have hgo : s.shared.step host (.appendTrims maxBytes) .go =
      some ({ s.shared with content := [] }, .appendWrites tail) := by
    unfold step go
    dsimp only
    rw [htail]
  have hlk : lookupHistoryEntry host tail host.logIdentity 0 = historyEntryAt host tail 0 :=
    if_neg fun h => h.2 rfl
  have hself : ∀ {task : Nat → ProcessPhase} {phase : ProcessPhase}, Function.update task t phase t = phase :=
    Function.update_self ..
  refine ⟨[(t, .go), (t, .go), (t, .lookup host.logIdentity 0), (t, .go)], _, .cons (move_of_step hph hgo)
    (.cons (move_of_step hself rfl) (.cons (move_of_step hself rfl) (.cons (move_of_step hself rfl) (.nil _)))), ?_⟩
  intro hkept
  rcases hkept s.shared.log host.logIdentity 0 _ [] rfl count counted hmem hcnt with h | h
  · exact hent (hlk.symm.trans h)
  · exact hoth (hlk.symm.trans h)

/-- In a run that drops lines only before anybody counted one, every lookup with an offset below a count finds the entry
that was there, or nothing. Where lines are dropped after a count, the run can be continued by a lookup that finds
another entry. -/
theorem offsetsKept_of_dropsUncounted (host : Host) (content : Text) (steps : List (Nat × HistoryStep)) :
    (StepsMeet (HistoryMove host) (DropsUncounted host) (.start content) steps →
      StatesMeet (HistoryMove host) (fun s => OffsetsKept host s.shared.log) (.start content) steps) ∧
    ∀ s t maxBytes tail count counted, Run (HistoryMove host) (.start content) steps s →
      s.task t = .appendTrims maxBytes → historyTail host maxBytes s.shared.content = some tail →
      .metadata host.logIdentity count counted ∈ s.shared.log → 0 < count → historyEntryAt host tail 0 ≠ none →
      historyEntryAt host tail 0 ≠ historyEntryAt host counted 0 →
      ∃ more s', Run (HistoryMove host) s more s' ∧ ¬OffsetsKept host s'.shared.log := by
  refine ⟨fun h past s hpast hrun => ?_, fun s t maxBytes tail count counted _ => not_kept_of_drop⟩
  have hsnd : StatesMeet (HistoryMove host) (HistorySound host) (.start content) steps :=
    statesMeet_of_stepsMeet (historySound_start host content) (fun _ _ _ hs hgd hmove =>
      sound_historyMove hs hgd hmove) h
  exact (hsnd past s hpast hrun).shared.kept

/-! ## Two entries -/

def oneEntry : HistoryEntry := ⟨"s", 1, "one"⟩

def twoEntry : HistoryEntry := ⟨"s", 2, "two"⟩

def twoEntriesHost : Host where
  toLine entry := "\x7b\"session_id\":\"" ++ entry.sessionId ++ "\",\"ts\":" ++
    (if entry.ts = 1 then ['1'] else ['2']) ++ ",\"text\":\"" ++ entry.text ++ "\"\x7d"
  fromLine line :=
    if line = "\x7b\"session_id\":\"s\",\"ts\":1,\"text\":\"one\"\x7d" then some oneEntry
    else if line = "\x7b\"session_id\":\"s\",\"ts\":2,\"text\":\"two\"\x7d" then some twoEntry
    else none
  softCapBytes maxBytes := maxBytes * 4 / 5
  logIdentity := 1

def countsOne : List (Nat × HistoryStep) :=
  [(0, .appendEntry oneEntry none), (0, .go), (0, .go), (1, .historyMetadata), (1, .read 8192), (1, .go)]

def writesTwo : List (Nat × HistoryStep) := [(0, .appendEntry twoEntry (some 60)), (0, .go)]

/-- The offset of the first entry names the second one after the first has been dropped. -/
theorem offset_names_other : ¬∀ host content steps,
    StatesMeet (HistoryMove host) (fun s => OffsetsKept host s.shared.log) (.start content) steps := by
  intro h
  have hstt : ∃ s, (countsOne ++ writesTwo).foldlM
      (Tasks.advance fun _ file phase step => HistoryFile.step twoEntriesHost file phase step)
      (HistorySystem.start []) = some s ∧
      s.task 0 = .appendTrims (some 60) ∧
      historyTail twoEntriesHost (some 60) s.shared.content = some (twoEntriesHost.toLine twoEntry ++ ['\n']) ∧
      s.shared.log = [.metadata 1 1 (twoEntriesHost.toLine oneEntry ++ ['\n'])] :=
    ⟨_, rfl, rfl, rfl, rfl⟩
  obtain ⟨s, hsts, hph, htail, hlog⟩ := hstt
  have hrun : Run (HistoryMove twoEntriesHost) (.start []) (countsOne ++ writesTwo) s := .of_foldlM hsts
  obtain ⟨more, s', hmore, hlost⟩ := not_kept_of_drop hph htail (by rw [hlog]; exact List.mem_singleton_self _)
    one_pos (by decide +kernel) (by decide +kernel)
  exact hlost (h _ _ _ _ s' List.prefix_rfl (hrun.append hmore))

def looksUpOne : List (Nat × HistoryStep) :=
  [(0, .appendEntry twoEntry none), (0, .go), (0, .go), (1, .lookup 1 0), (1, .go)]

theorem offset_kept_without_limit : StatesMeet (HistoryMove twoEntriesHost)
    (fun s => OffsetsKept twoEntriesHost s.shared.log) (.start []) (countsOne ++ looksUpOne) := by
  refine (offsetsKept_of_dropsUncounted twoEntriesHost [] (countsOne ++ looksUpOne)).1 ?_
  have hrun : ∃ s, (countsOne ++ looksUpOne).foldlM
      (fun s a => if decide (s.task a.1 = .appendTrims none) || !(s.task a.1).holdsLock then
        s.advance (fun _ file phase step => HistoryFile.step twoEntriesHost file phase step) a else none)
      (HistorySystem.start []) = some s := ⟨_, rfl⟩
  obtain ⟨s, hrun⟩ := hrun
  refine stepsMeet_of_foldlM (fun s a hck _ maxBytes tail hph htail => ?_) hrun
  rw [hph] at hck
  cases maxBytes with
  | none => cases htail
  | some maxBytes => cases hck

end CodexStudy.MessageHistory
