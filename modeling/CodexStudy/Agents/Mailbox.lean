import CodexStudy.Lib.Text
import CodexStudy.Lib.Transition

/-!
# The mailbox of an agent (`agent/mailbox.rs`)

A send takes a number, queues the mail and publishes the number, in three steps.
-/

namespace CodexStudy.Agents

open CodexStudy.Lib

/-! ## Paths of agents (`agent_path.rs`) -/

def ROOT : Text := "/root"

def MORPHEUS : Text := "/morpheus"

def ROOT_SEGMENT : Text := "root"

def validateAgentName (agentName : Text) : Except Text Unit :=
  if agentName = [] then .error "agent_name must not be empty"
  else if agentName = ROOT_SEGMENT then .error "agent_name `root` is reserved"
  else if agentName = ['.'] ∨ agentName = ['.', '.'] then
    .error ("agent_name `" ++ agentName ++ "` is reserved")
  else if '/' ∈ agentName then .error "agent_name must not contain `/`"
  else if agentName.all fun ch => ch.isLower || ch.isDigit || ch == '_' then .ok ()
  else .error "agent_name must use only lowercase letters, digits, and underscores"

def validateAbsolutePath (path : Text) : Except Text Unit :=
  if path = MORPHEUS then .ok ()
  else
    match Text.stripPrefix? ['/'] path with
    | none => .error "absolute agent paths must start with `/root` or be `/morpheus`"
    | some stripped =>
        match stripped.splitOn '/' with
        | [] => .error "absolute agent path must not be empty"
        | root :: segments =>
            if root ≠ ROOT_SEGMENT then
              .error "absolute agent paths must start with `/root` or be `/morpheus`"
            else if ['/'] <:+ stripped then .error "absolute agent path must not end with `/`"
            else segments.forM validateAgentName

structure AgentPath where
  text : Text
  valid : validateAbsolutePath text = .ok ()
  deriving DecidableEq

namespace AgentPath

def root : AgentPath := ⟨ROOT, by decide⟩

def isRoot (path : AgentPath) : Bool := path.text == ROOT

theorem head?_text (path : AgentPath) : path.text.head? = some '/' := by
  have hvalid := path.valid
  unfold validateAbsolutePath at hvalid
  split at hvalid
  next h => rw [h]; rfl
  next =>
    split at hvalid
    next => cases hvalid
    next stripped h => rw [Text.stripPrefix?_eq_some.mp h]; rfl

theorem text_injective {p q : AgentPath} (h : p.text = q.text) : p = q := by
  cases p
  cases q
  cases h
  rfl

end AgentPath

structure InterAgentCommunication where
  author : AgentPath
  recipient : AgentPath
  otherRecipients : List AgentPath
  content : Text
  triggerTurn : Bool
  deriving DecidableEq

/-! ## State -/

inductive MailboxEvent where
  | sendCalled (sender : Nat) (mail : InterAgentCommunication)
  | queued (sender : Nat) (mail : InterAgentCommunication)
  | sendReturned (seq : Nat)
  | drained (mails : List InterAgentCommunication)
  | hadPending (answer : Bool)
  | hadPendingTriggerTurn (answer : Bool)
  | watched (seq : Nat)

/-- The mailbox with its receiver: `channel` was sent and not yet received, `seq` is the watched value, and `borrowed`
tells whether a task uses the receiver. -/
structure Mailbox where
  channel : List InterAgentCommunication := []
  nextSeq : Nat := 0
  seq : Nat := 0
  pendingMails : List InterAgentCommunication := []
  borrowed : Bool := false
  log : List MailboxEvent := []

inductive ReceiverCall where
  | drain
  | hasPending
  | hasPendingTriggerTurn
  deriving DecidableEq

inductive MailboxCall where
  | send (mail : InterAgentCommunication)
  | receive (call : ReceiverCall)
  | borrowSeq

/-- Where a task stands: the atomic step that comes next. -/
inductive MailPhase where
  | idle
  | sendQueues (seq : Nat) (mail : InterAgentCommunication)
  | sendPublishes (seq : Nat)
  | borrows (call : ReceiverCall)
  | syncs (call : ReceiverCall)
  | answers (call : ReceiverCall)
  | watches
  deriving DecidableEq

/-! ## Steps -/

namespace Mailbox

/-- What is left to do when the channel has been found empty. -/
def answer (m : Mailbox) : ReceiverCall → Mailbox
  | .drain => { m with pendingMails := [], borrowed := false, log := m.log ++ [.drained m.pendingMails] }
  | .hasPending => { m with borrowed := false, log := m.log ++ [.hadPending !m.pendingMails.isEmpty] }
  | .hasPendingTriggerTurn =>
      { m with borrowed := false, log := m.log ++ [.hadPendingTriggerTurn (m.pendingMails.any (·.triggerTurn))] }

/-- The next atomic step of the task `t`. -/
def go (t : Nat) (m : Mailbox) : MailPhase → Option (Mailbox × MailPhase)
  | .idle => none
  | .sendQueues seq mail =>
      some ({ m with channel := m.channel ++ [mail], log := m.log ++ [.queued t mail] }, .sendPublishes seq)
  | .sendPublishes seq => some ({ m with seq, log := m.log ++ [.sendReturned seq] }, .idle)
  | .borrows call => if m.borrowed then none else some ({ m with borrowed := true }, .syncs call)
  | .syncs call =>
      match m.channel with
      | mail :: rest => some ({ m with channel := rest, pendingMails := m.pendingMails ++ [mail] }, .syncs call)
      | [] => some (m, .answers call)
  | .answers call => some (m.answer call, .idle)
  | .watches => some ({ m with log := m.log ++ [.watched m.seq] }, .idle)

def call (t : Nat) (m : Mailbox) : MailboxCall → Mailbox × MailPhase
  | .send mail =>
      ({ m with nextSeq := m.nextSeq + 1, log := m.log ++ [.sendCalled t mail] }, .sendQueues (m.nextSeq + 1) mail)
  | .receive call => (m, .borrows call)
  | .borrowSeq => (m, .watches)

end Mailbox

inductive MailboxStep where
  | call (call : MailboxCall)
  | go

variable (t : Nat) (log : List MailboxEvent)

def Mailbox.step (m : Mailbox) (phase : MailPhase) : MailboxStep → Option (Mailbox × MailPhase)
  | .call call => if phase = .idle then some (m.call t call) else none
  | .go => m.go t phase

abbrev MailboxSystem := Tasks Mailbox MailPhase

def MailboxSystem.new : MailboxSystem := ⟨{}, fun _ => .idle⟩

abbrev MailboxMove (s : MailboxSystem) (a : Nat × MailboxStep) (s' : MailboxSystem) : Prop :=
  Tasks.Move Mailbox.step s a s'

/-! ## What the log tells -/

namespace MailboxEvent

def mailsDrained : MailboxEvent → List InterAgentCommunication
  | drained mails => mails
  | _ => []

def mailQueued : MailboxEvent → Option InterAgentCommunication
  | queued _ mail => some mail
  | _ => none

def mailQueuedBy (t : Nat) : MailboxEvent → Option InterAgentCommunication
  | queued sender mail => if sender = t then some mail else none
  | _ => none

def mailSentBy (t : Nat) : MailboxEvent → Option InterAgentCommunication
  | sendCalled sender mail => if sender = t then some mail else none
  | _ => none

def isSend : MailboxEvent → Bool
  | sendCalled _ _ => true
  | _ => false

end MailboxEvent

def drainedMails : List InterAgentCommunication := log.flatMap (·.mailsDrained)

def queuedMails : List InterAgentCommunication := log.filterMap (·.mailQueued)

def queuedBy : List InterAgentCommunication := log.filterMap (·.mailQueuedBy t)

def sentBy : List InterAgentCommunication := log.filterMap (·.mailSentBy t)

def sendCount : Nat := log.countP (·.isSend)

section

variable (t : Nat) (log : List MailboxEvent) (event : MailboxEvent)

@[simp] theorem drainedMails_concat : drainedMails (log ++ [event]) = drainedMails log ++ event.mailsDrained := by
  simp [drainedMails]

@[simp] theorem queuedMails_concat : queuedMails (log ++ [event]) = queuedMails log ++ event.mailQueued.toList := by
  unfold queuedMails
  cases event <;> simp [MailboxEvent.mailQueued]

@[simp] theorem queuedBy_concat : queuedBy t (log ++ [event]) = queuedBy t log ++ (event.mailQueuedBy t).toList := by
  unfold queuedBy
  cases h : event.mailQueuedBy t <;> simp [h]

@[simp] theorem sentBy_concat : sentBy t (log ++ [event]) = sentBy t log ++ (event.mailSentBy t).toList := by
  unfold sentBy
  cases h : event.mailSentBy t <;> simp [h]

@[simp] theorem sendCount_concat : sendCount (log ++ [event]) = sendCount log + event.isSend.toNat := by
  unfold sendCount
  cases h : event.isSend <;> simp [h]

end

end CodexStudy.Agents
