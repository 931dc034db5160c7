import CodexStudy.Agents.Mailbox

/-!
# Numbers and mails of a mailbox

No mail is lost and the order of the channel is kept, whatever the order of the steps.
-/

namespace CodexStudy.Agents

open CodexStudy.Lib MailboxEvent Mailbox Tasks MailPhase MailboxSystem Nat Function Option

/-! ## What is asked of the mailbox -/

variable (s : MailboxSystem)

/-- No send is under way. -/
def Quiet : Prop := ∀ t seq mail, s.task t ≠ .sendQueues seq mail ∧ s.task t ≠ .sendPublishes seq

/-- The watched number does not go down. -/
def WatchedKeeps (a : Nat × MailboxStep) : Prop :=
  ∀ s', MailboxMove s a s' → s.shared.seq ≤ s'.shared.seq

/-- Once all sends have completed, the watched number is their number. -/
def WatchedCounts : Prop := Quiet s → s.shared.seq = sendCount s.shared.log

/-- The drained mails, the pending ones and those in the channel are the queued ones in the order of the channel, those
of one sender in the order it sent them. A drain that runs on its own leaves nothing behind. -/
structure MailsDelivered (s : MailboxSystem) : Prop where
  delivered : drainedMails s.shared.log ++ s.shared.pendingMails ++ s.shared.channel = queuedMails s.shared.log
  inOrder : ∀ t, queuedBy t s.shared.log <+: sentBy t s.shared.log
  complete : Quiet s → ∀ t, queuedBy t s.shared.log = sentBy t s.shared.log
  drains : ∀ t, s.task t = .idle → s.shared.borrowed = false →
    ∃ steps s', (∀ a ∈ steps, a.1 = t) ∧ Run MailboxMove s steps s' ∧
      drainedMails s'.shared.log = queuedMails s.shared.log

/-- A send that publishes its number finds a smaller number. -/
def PublishesInOrder (a : Nat × MailboxStep) : Prop :=
  ∀ seq, s.task a.1 = .sendPublishes seq → s.shared.seq < seq

/-! ## The invariant -/

def MailPhase.seq? : MailPhase → Option Nat
  | sendQueues seq _ | sendPublishes seq => some seq
  | _ => none

def MailPhase.unqueued : MailPhase → List InterAgentCommunication
  | sendQueues _ mail => [mail]
  | _ => []

structure MailboxSound (m : Mailbox) : Prop where
  delivered : drainedMails m.log ++ m.pendingMails ++ m.channel = queuedMails m.log
  counted : sendCount m.log = m.nextSeq
  bounded : m.seq ≤ m.nextSeq

structure SendSound (t : Nat) (m : Mailbox) (phase : MailPhase) : Prop where
  inOrder : queuedBy t m.log ++ phase.unqueued = sentBy t m.log
  numbered : ∀ seq, phase.seq? = some seq → 0 < seq ∧ seq ≤ m.nextSeq ∧ m.seq ≠ seq

def NumbersApart (p q : MailPhase) : Prop := ∀ seq, p.seq? = some seq → q.seq? ≠ some seq

abbrev MailboxKeeps : Prop := Tasks.Keeps MailboxSound SendSound NumbersApart s

theorem mailboxKeeps_new : MailboxKeeps new where
  shared := ⟨rfl, rfl, le_refl 0⟩
  own _ := ⟨rfl, by simp [new, seq?]⟩
  apart _ _ _ := by simp [NumbersApart, new, seq?]

variable {m' : Mailbox} {phase' : MailPhase}

section

variable {s s' : MailboxSystem} {a : Nat × MailboxStep} {m : Mailbox} {t u : Nat} {phase : MailPhase}

theorem SendSound.other (h : SendSound u m phase) (hqueued : queuedBy u m'.log = queuedBy u m.log)
    (hsent : sentBy u m'.log = sentBy u m.log) (hnext : m.nextSeq ≤ m'.nextSeq)
    (hseq : m'.seq = m.seq ∨ phase.seq? ≠ some m'.seq) : SendSound u m' phase where
  inOrder := by rw [hqueued, hsent, h.inOrder]
  numbered seq hph := by
    obtain ⟨hpos, hle, hne⟩ := h.numbered seq hph
    refine ⟨hpos, hle.trans hnext, ?_⟩
    rcases hseq with heq | hoth
    · rwa [heq]
    · rintro rfl
      exact hoth hph

theorem MailboxKeeps.of_receive (h : MailboxKeeps s)
    (hold : (s.task t).seq? = none ∧ (s.task t).unqueued = []) (hnew : phase'.seq? = none ∧ phase'.unqueued = [])
    (hshared : MailboxSound m') (hqueued : ∀ u, queuedBy u m'.log = queuedBy u s.shared.log)
    (hsent : ∀ u, sentBy u m'.log = sentBy u s.shared.log) (hnext : m'.nextSeq = s.shared.nextSeq)
    (hseq : m'.seq = s.shared.seq) : MailboxSound m' ∧ SendSound t m' phase' ∧
      ∀ u, u ≠ t → SendSound u m' (s.task u) ∧ NumbersApart phase' (s.task u) := by
  refine ⟨hshared, ⟨?_, by simp [hnew.1]⟩, fun u _ => ⟨?_, by simp [NumbersApart, hnew.1]⟩⟩
  · rw [hnew.2, hqueued, hsent, ← (h.own t).inOrder, hold.2]
  · exact (h.own u).other (hqueued u) (hsent u) hnext.ge (.inl hseq)

theorem MailboxKeeps.of_call (h : MailboxKeeps s) (hidle : s.task t = .idle) (call : MailboxCall) :
    MailboxSound (s.shared.call t call).1 ∧ SendSound t (s.shared.call t call).1 (s.shared.call t call).2 ∧
      ∀ u, u ≠ t → SendSound u (s.shared.call t call).1 (s.task u) ∧
        NumbersApart (s.shared.call t call).2 (s.task u) := by
  have hsnd := h.shared
  have hown := (h.own t).inOrder
  rw [hidle] at hown
  cases call with
  | send mail =>
      refine ⟨⟨?_, ?_, ?_⟩, ⟨?_, ?_⟩, fun u hu => ⟨?_, ?_⟩⟩
      · simpa [call, mailsDrained, mailQueued] using hsnd.delivered
      · simpa [call, isSend] using hsnd.counted
      · exact hsnd.bounded.trans (le_succ _)
      · simpa [call, mailQueuedBy, mailSentBy, unqueued] using hown
      · rintro seq ⟨⟩
        exact ⟨succ_pos _, le_refl _, (lt_succ_of_le hsnd.bounded).ne⟩
      · refine (h.own u).other ?_ ?_ (le_succ _) (.inl rfl)
        · simp [call, mailQueuedBy]
        · simp [call, mailSentBy, hu.symm]
      · rintro seq ⟨⟩ hseq
        have hle := ((h.own u).numbered _ hseq).2.1
        omega
  | receive call | borrowSeq =>
      refine h.of_receive ?_ ⟨rfl, rfl⟩ hsnd (fun _ => rfl) (fun _ => rfl) rfl rfl
      rw [hidle]
      exact ⟨rfl, rfl⟩

theorem MailboxSound.answer (h : MailboxSound m) (call : ReceiverCall) : MailboxSound (m.answer call) := by
  cases call with
  | drain =>
      refine ⟨?_, ?_, h.bounded⟩
      · simpa [Mailbox.answer, mailsDrained, mailQueued] using h.delivered
      · simpa [Mailbox.answer, isSend] using h.counted
  | hasPending =>
      refine ⟨?_, ?_, h.bounded⟩
      · simpa [Mailbox.answer, mailsDrained, mailQueued] using h.delivered
      · simpa [Mailbox.answer, isSend] using h.counted
  | hasPendingTriggerTurn =>
      refine ⟨?_, ?_, h.bounded⟩
      · simpa [Mailbox.answer, mailsDrained, mailQueued] using h.delivered
      · simpa [Mailbox.answer, isSend] using h.counted

theorem MailboxKeeps.of_go (h : MailboxKeeps s)
    (hgo : s.shared.go t (s.task t) = some (m', phase')) : MailboxSound m' ∧ SendSound t m' phase' ∧
      ∀ u, u ≠ t → SendSound u m' (s.task u) ∧ NumbersApart phase' (s.task u) := by
  have hsnd := h.shared
  have hown := h.own t
  have hap := h.apart t
  cases hph : s.task t with
  | idle =>
      rw [hph] at hgo
      cases hgo
  | sendQueues seq mail =>
      rw [hph] at hgo hown hap
      cases hgo
      refine ⟨⟨?_, ?_, hsnd.bounded⟩, ⟨?_, hown.numbered⟩, fun u hu => ⟨?_, hap u hu.symm⟩⟩
      · simp [mailsDrained, mailQueued, ← hsnd.delivered]
      · simpa [isSend] using hsnd.counted
      · simpa [mailQueuedBy, mailSentBy, unqueued] using hown.inOrder
      · refine (h.own u).other ?_ ?_ (le_refl _) (.inl rfl)
        · simp [mailQueuedBy, hu.symm]
        · simp [mailSentBy]
  | sendPublishes seq =>
      rw [hph] at hgo hown hap
      cases hgo
      obtain ⟨-, hle, -⟩ := hown.numbered seq rfl
      refine ⟨⟨?_, ?_, hle⟩, ⟨?_, by simp [seq?]⟩, fun u hu => ⟨?_, by simp [NumbersApart, seq?]⟩⟩
      · simpa [mailsDrained, mailQueued] using hsnd.delivered
      · simpa [isSend] using hsnd.counted
      · simpa [mailQueuedBy, mailSentBy, unqueued] using hown.inOrder
      · refine (h.own u).other ?_ ?_ (le_refl _) (.inr (hap u hu.symm seq rfl))
        · simp [mailQueuedBy]
        · simp [mailSentBy]
  | borrows call =>
      rw [hph] at hgo
      simp only [go, ite_none_left_eq_some] at hgo
      obtain ⟨-, ⟨⟩⟩ := hgo
      exact h.of_receive (by rw [hph]; exact ⟨rfl, rfl⟩) ⟨rfl, rfl⟩
        ⟨hsnd.delivered, hsnd.counted, hsnd.bounded⟩ (fun _ => rfl) (fun _ => rfl) rfl rfl
  | syncs call =>
      rw [hph] at hgo
      cases hchannel : s.shared.channel with
      | nil =>
          simp only [go, hchannel] at hgo
          cases hgo
          exact h.of_receive (by rw [hph]; exact ⟨rfl, rfl⟩) ⟨rfl, rfl⟩ hsnd
            (fun _ => rfl) (fun _ => rfl) rfl rfl
      | cons mail rest =>
          simp only [go, hchannel] at hgo
          cases hgo
          refine h.of_receive (by rw [hph]; exact ⟨rfl, rfl⟩) ⟨rfl, rfl⟩
            ⟨?_, hsnd.counted, hsnd.bounded⟩ (fun _ => rfl) (fun _ => rfl) rfl rfl
          simpa [hchannel] using hsnd.delivered
  | answers call =>
      rw [hph] at hgo
      cases hgo
      refine h.of_receive (by rw [hph]; exact ⟨rfl, rfl⟩) ⟨rfl, rfl⟩ (hsnd.answer call)
        (fun u => ?_) (fun u => ?_) ?_ ?_
      · cases call <;> simp [answer, mailQueuedBy]
      · cases call <;> simp [answer, mailSentBy]
      · cases call <;> rfl
      · cases call <;> rfl
  | watches =>
      rw [hph] at hgo
      cases hgo
      refine h.of_receive (by rw [hph]; exact ⟨rfl, rfl⟩) ⟨rfl, rfl⟩
        ⟨?_, ?_, hsnd.bounded⟩ (fun u => ?_) (fun u => ?_) rfl rfl
      · simpa [mailsDrained, mailQueued] using hsnd.delivered
      · simpa [isSend] using hsnd.counted
      · simp [mailQueuedBy]
      · simp [mailSentBy]

theorem MailboxKeeps.of_move (h : MailboxKeeps s) (hmove : MailboxMove s a s') : MailboxKeeps s' := by
  refine Tasks.Keeps.of_move h (fun p q hpq seq hq hp => hpq seq hp hq) hmove fun m' phase' hstep => ?_
  cases ha : a.2 with
  | call call =>
      simp only [step, ha, ite_none_right_eq_some, some.injEq] at hstep
      obtain ⟨hidle, hcall⟩ := hstep
      have hkps := h.of_call hidle call
      rw [hcall] at hkps
      exact hkps
  | go =>
      simp only [step, ha] at hstep
      exact h.of_go hstep

/-! ## Numbers under way -/

theorem numbers_of_move (hmove : MailboxMove s a s') :
    (s'.shared.seq = s.shared.seq ∧ s'.shared.nextSeq = s.shared.nextSeq + 1 ∧
      (s.task a.1).seq? = none ∧ (s'.task a.1).seq? = some (s.shared.nextSeq + 1)) ∨
    (s.task a.1 = .sendPublishes s'.shared.seq ∧ s'.shared.nextSeq = s.shared.nextSeq) ∨
    (s'.shared.seq = s.shared.seq ∧ s'.shared.nextSeq = s.shared.nextSeq ∧ (s'.task a.1).seq? = (s.task a.1).seq?) := by
  obtain ⟨m', phase', hstep, rfl⟩ := move_iff.mp hmove
  simp only [update_self]
  cases ha : a.2 with
  | call call =>
      simp only [step, ha, ite_none_right_eq_some, some.injEq] at hstep
      obtain ⟨hidle, hcall⟩ := hstep
      rw [hidle]
      cases call with
      | send mail =>
          cases hcall
          exact .inl ⟨rfl, rfl, rfl, rfl⟩
      | receive call | borrowSeq =>
          cases hcall
          exact .inr (.inr ⟨rfl, rfl, rfl⟩)
  | go =>
      simp only [step, ha] at hstep
      cases hph : s.task a.1 with
      | idle =>
          rw [hph] at hstep
          cases hstep
      | sendPublishes seq =>
          rw [hph] at hstep
          cases hstep
          exact .inr (.inl ⟨rfl, rfl⟩)
      | sendQueues seq mail | watches =>
          rw [hph] at hstep
          cases hstep
          exact .inr (.inr ⟨rfl, rfl, rfl⟩)
      | borrows call =>
          rw [hph] at hstep
          simp only [go, ite_none_left_eq_some] at hstep
          obtain ⟨-, ⟨⟩⟩ := hstep
          exact .inr (.inr ⟨rfl, rfl, rfl⟩)
      | syncs call =>
          rw [hph] at hstep
          cases hchannel : s.shared.channel with
          | nil | cons mail rest =>
              simp only [go, hchannel] at hstep
              cases hstep
              exact .inr (.inr ⟨rfl, rfl, rfl⟩)
      | answers call =>
          rw [hph] at hstep
          cases hstep
          exact .inr (.inr ⟨by cases call <;> rfl, by cases call <;> rfl, rfl⟩)

theorem task_of_move (hmove : MailboxMove s a s') (hu : u ≠ a.1) : s'.task u = s.task u := by
  obtain ⟨m', phase', -, rfl⟩ := move_iff.mp hmove
  exact update_of_ne hu _ _

/-- The numbers above the watched one belong to sends that are under way. -/
def LaterUnderWay (s : MailboxSystem) : Prop :=
  ∀ seq, s.shared.seq < seq → seq ≤ s.shared.nextSeq → ∃ t, (s.task t).seq? = some seq

theorem LaterUnderWay.of_move (h : LaterUnderWay s) (horder : PublishesInOrder s a) (hmove : MailboxMove s a s') :
    LaterUnderWay s' := by
  intro seq hlt hle
  rcases numbers_of_move hmove with ⟨hseq, hnext, hold, hnew⟩ | ⟨hph, hnext⟩ | ⟨hseq, hnext, hsame⟩
  · rcases lt_or_eq_of_le (hnext ▸ hle) with hbel | rfl
    · obtain ⟨t, ht⟩ := h seq (hseq ▸ hlt) (le_of_lt_succ hbel)
      have hne : t ≠ a.1 := by
        rintro rfl
        rw [hold] at ht
        cases ht
      exact ⟨t, by rw [task_of_move hmove hne, ht]⟩
    · exact ⟨a.1, hnew⟩
  · -- The published number is above the watched one, so a number above it is held by another send.
    obtain ⟨t, ht⟩ := h seq ((horder _ hph).trans hlt) (hnext ▸ hle)
    have hne : t ≠ a.1 := by
      rintro rfl
      rw [hph] at ht
      cases ht
      exact lt_irrefl _ hlt
    exact ⟨t, by rw [task_of_move hmove hne, ht]⟩
  · obtain ⟨t, ht⟩ := h seq (hseq ▸ hlt) (hnext ▸ hle)
    by_cases hne : t = a.1
    · subst hne
      exact ⟨a.1, hsame.trans ht⟩
    · exact ⟨t, by rw [task_of_move hmove hne, ht]⟩

theorem seq?_of_quiet (h : Quiet s) (t : Nat) : (s.task t).seq? = none ∧ (s.task t).unqueued = [] := by
  cases hph : s.task t with
  | sendQueues seq mail => exact absurd hph (h t seq mail).1
  | sendPublishes seq => exact absurd hph (h t seq ⟨.root, .root, [], [], false⟩).2
  | idle | borrows | syncs | answers | watches => exact ⟨rfl, rfl⟩

theorem watchedCounts_of_laterUnderWay (hkps : MailboxKeeps s) (h : LaterUnderWay s) : WatchedCounts s := by
  intro hqt
  rw [hkps.shared.counted]
  refine Nat.le_antisymm hkps.shared.bounded (Nat.le_of_not_lt fun hlt => ?_)
  obtain ⟨t, ht⟩ := h s.shared.nextSeq hlt (Nat.le_refl _)
  rw [(seq?_of_quiet hqt t).1] at ht
  cases ht

theorem watchedKeeps_of_publishesInOrder (h : PublishesInOrder s a) : WatchedKeeps s a := by
  intro s' hmove
  rcases numbers_of_move hmove with ⟨hseq, -⟩ | ⟨hph, -⟩ | ⟨hseq, -⟩
  · exact hseq.ge
  · exact (h _ hph).le
  · exact hseq.ge

/-- A send publishes a number above the watched one if that does not go down, for it has a number of its own. -/
theorem publishesInOrder_of_watchedKeeps (hkps : MailboxKeeps s) (hmove : MailboxMove s a s')
    (h : WatchedKeeps s a) : PublishesInOrder s a := by
  intro seq hph
  have hnum := (hkps.own a.1).numbered seq (by rw [hph]; rfl)
  have hpublished : s'.shared.seq = seq := by
    rcases numbers_of_move hmove with ⟨-, -, hold, -⟩ | ⟨hph', -⟩ | ⟨hseq, hnext, hsame⟩
    · rw [hph] at hold
      cases hold
    · rw [hph] at hph'
      exact (sendPublishes.inj hph').symm
    · obtain ⟨m', phase', hstep, rfl⟩ := move_iff.mp hmove
      cases ha : a.2 with
      | call call => simp [step, ha, hph] at hstep
      | go =>
          simp only [step, ha, hph] at hstep
          cases hstep
          rfl
  exact lt_of_le_of_ne (hpublished ▸ h s' hmove) hnum.2.2

/-! ## A drain on its own -/

theorem run_syncs {call : ReceiverCall} {channel : List InterAgentCommunication} (hph : s.task t = .syncs call)
    (hchannel : s.shared.channel = channel) :
    ∃ steps s', (∀ a ∈ steps, a.1 = t) ∧ Run MailboxMove s steps s' ∧ s'.task t = .answers call ∧
      s'.shared = { s.shared with channel := [], pendingMails := s.shared.pendingMails ++ channel } := by
  induction channel generalizing s with
  | nil =>
      have hgo : step t s.shared (.syncs call) .go = some (s.shared, .answers call) := by
        simp [step, go, hchannel]
      refine ⟨[(t, .go)], _, by simp, .single (move_of_eq hph hgo), by simp, ?_⟩
      rw [List.append_nil, ← hchannel]
  | cons mail rest ih =>
      have hgo : step t s.shared (.syncs call) .go =
          some ({ s.shared with channel := rest, pendingMails := s.shared.pendingMails ++ [mail] }, .syncs call) := by
        simp [step, go, hchannel]
      obtain ⟨steps, s', hown, hrun, hanswers, hshared⟩ := @ih
        ⟨{ s.shared with channel := rest, pendingMails := s.shared.pendingMails ++ [mail] },
          update s.task t (.syncs call)⟩ (update_self ..) rfl
      refine ⟨(t, .go) :: steps, s', ?_, .cons (move_of_eq hph hgo) hrun, hanswers, ?_⟩
      · simpa using hown
      · rw [hshared]
        simp

theorem exists_drain (hsnd : MailboxSound s.shared) (hidle : s.task t = .idle) (hfree : s.shared.borrowed = false) :
    ∃ steps s', (∀ a ∈ steps, a.1 = t) ∧ Run MailboxMove s steps s' ∧
      drainedMails s'.shared.log = queuedMails s.shared.log := by
  have hcall : MailboxMove s (t, .call (.receive .drain)) ⟨s.shared, update s.task t (.borrows .drain)⟩ :=
    move_of_eq hidle (by simp [step, call])
  have hborrow : MailboxMove ⟨s.shared, update s.task t (.borrows .drain)⟩ (t, .go)
      ⟨{ s.shared with borrowed := true }, update (update s.task t (.borrows .drain)) t (.syncs .drain)⟩ :=
    move_of_eq (update_self ..) (by simp [step, go, hfree])
  obtain ⟨steps, s₁, hown, hrun, hanswers, hshared⟩ := @run_syncs
    ⟨{ s.shared with borrowed := true }, update (update s.task t (.borrows .drain)) t (.syncs .drain)⟩
    t .drain _ (update_self ..) rfl
  have hans : MailboxMove s₁ (t, .go) ⟨s₁.shared.answer .drain, update s₁.task t .idle⟩ :=
    move_of_eq hanswers rfl
  refine ⟨(t, .call (.receive .drain)) :: (t, .go) :: (steps ++ [(t, .go)]), _, ?_,
    .cons hcall (.cons hborrow (hrun.append (.single hans))), ?_⟩
  · simpa [or_imp, forall_and] using hown
  · rw [← hsnd.delivered, hshared]
    simp [answer, mailsDrained]

theorem mailsDelivered_of_keeps (h : MailboxKeeps s) : MailsDelivered s where
  delivered := h.shared.delivered
  inOrder t := ⟨_, (h.own t).inOrder⟩
  complete hqt t := by
    have horder := (h.own t).inOrder
    rwa [(seq?_of_quiet hqt t).2, List.append_nil] at horder
  drains _ hidle hfree := exists_drain h.shared hidle hfree

end

/-! ## Runs -/

theorem mailboxKeeps_of_run {s : MailboxSystem} {steps : List (Nat × MailboxStep)}
    (hrun : Run MailboxMove new steps s) : MailboxKeeps s :=
  hrun.invariant mailboxKeeps_new fun _ _ _ h hmove => h.of_move hmove

/-- In every run the watched number goes up and ends as the number of sends, and the mails are delivered, exactly when
each send publishes its number before a later one does. -/
theorem mailbox_monotone_iff (steps : List (Nat × MailboxStep)) :
    (StepsMeet MailboxMove WatchedKeeps .new steps ∧ StatesMeet MailboxMove WatchedCounts .new steps ∧
      StatesMeet MailboxMove MailsDelivered .new steps) ↔ StepsMeet MailboxMove PublishesInOrder .new steps := by
  constructor
  · rintro ⟨hwatched, -, -⟩ as a s s' hpre hrun hmove
    exact publishesInOrder_of_watchedKeeps (mailboxKeeps_of_run hrun) hmove (hwatched as a s s' hpre hrun hmove)
  · intro h
    refine ⟨fun as a s s' hpre hrun hmove => ?_, fun as s hpre hrun => ?_, fun as s hpre hrun => ?_⟩
    · exact watchedKeeps_of_publishesInOrder (h as a s s' hpre hrun hmove)
    · have hinit : LaterUnderWay new := fun seq hlt hle => absurd hle (not_le.mpr hlt)
      have hlater := statesMeet_of_stepsMeet hinit (fun _ _ _ hlater horder hmove => hlater.of_move horder hmove) h
      exact watchedCounts_of_laterUnderWay (mailboxKeeps_of_run hrun) (hlater as s hpre hrun)
    · exact mailsDelivered_of_keeps (mailboxKeeps_of_run hrun)

/-! ## Two senders -/

def sampleMail (content : String) : InterAgentCommunication where
  author := ⟨"/root/worker", by decide⟩
  recipient := .root
  otherRecipients := []
  content := content.toList
  triggerTurn := false

def secondPublishesFirst : List (Nat × MailboxStep) :=
  [(0, .call (.send (sampleMail "one"))), (1, .call (.send (sampleMail "two"))), (1, .go), (1, .go), (0, .go)]

/-- The first send then takes the watched number from 2 back to 1. -/
theorem watched_goes_back : ¬ ∀ steps,
    StepsMeet MailboxMove WatchedKeeps .new steps ∧ StatesMeet MailboxMove WatchedCounts .new steps ∧
      StatesMeet MailboxMove MailsDelivered .new steps := by
  intro h
  have hreached : ∃ s, secondPublishesFirst.foldlM (advance step) new = some s ∧
      s.shared.seq = 2 ∧ s.task 0 = .sendPublishes 1 := ⟨_, rfl, rfl, rfl⟩
  obtain ⟨s, hrun, hseq, hph⟩ := hreached
  have hmove : MailboxMove s (0, .go) _ := move_of_eq hph rfl
  have hkept := (h (secondPublishesFirst ++ [(0, .go)])).1 _ _ s _ List.prefix_rfl (Run.of_foldlM hrun) hmove _ hmove
  rw [hseq] at hkept
  exact not_succ_le_self 1 hkept

end CodexStudy.Agents
