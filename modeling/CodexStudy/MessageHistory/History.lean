import CodexStudy.ChatAgent.Protocol
import CodexStudy.Lib.Transition

/-!
# The message history (`message-history/src/lib.rs`)

One file keeps the messages of all sessions, an entry on each line.
-/

namespace CodexStudy.MessageHistory

open CodexStudy.Lib
open CodexStudy.ChatAgent (byteLen)

structure HistoryEntry where
  sessionId : Text
  ts : Nat
  text : Text
  deriving DecidableEq

/-- What the history takes from serde_json, from the arithmetic of floats, and from the file system. -/
structure Host where
  toLine : HistoryEntry → Text
  fromLine : Text → Option HistoryEntry
  softCapBytes : Nat → Nat
  logIdentity : Nat

/-! ## Trimming -/

def linesToDrop (trimTarget : Nat) : (currentLen : Nat) → (lineLengths : List Nat) → Nat
  | _, [] => 0
  | currentLen, length :: lineLengths =>
      if trimTarget < currentLen then linesToDrop trimTarget (currentLen - length) lineLengths + 1 else 0

variable (host : Host) (file : HistoryFile)

def trimTargetBytes (maxBytes newestEntryLen : Nat) : Nat :=
  max (host.softCapBytes maxBytes) newestEntryLen

/-- What is written back when the history is too long, if lines are dropped. -/
def historyTail (maxBytes : Option Nat) (content : Text) : Option Text :=
  match maxBytes with
  | none | some 0 => none
  | some maxBytes =>
      if byteLen content ≤ maxBytes then none
      else
        let lines := content.splitInclusive
        match (lines.map byteLen).getLast? with
        | none => none
        | some newest =>
            let dropped := linesToDrop (trimTargetBytes host maxBytes newest) (byteLen content)
              (lines.map byteLen).dropLast
            if ((lines.map byteLen).take dropped).sum = 0 then none else some (lines.drop dropped).flatten

/-! ## Lookups -/

def historyEntryAt (content : Text) (offset : Nat) : Option HistoryEntry :=
  (content.lines[offset]?).bind host.fromLine

def lookupHistoryEntry (content : Text) (logId offset : Nat) : Option HistoryEntry :=
  if logId ≠ 0 ∧ host.logIdentity ≠ logId then none else historyEntryAt host content offset

/-! ## Processes -/

/-- What the calls have returned so far. What was in the file is noted with the answer of `history_metadata`. -/
inductive HistoryEvent where
  | metadata (logId count : Nat) (content : Text)
  | lookup (logId offset : Nat) (entry : Option HistoryEntry)

structure HistoryFile where
  content : Text
  locked : Bool := false
  log : List HistoryEvent := []

/-- Where a process stands: the next step of its call. -/
inductive ProcessPhase where
  | idle
  | appendLocks (line : Text) (maxBytes : Option Nat)
  | appendTrims (maxBytes : Option Nat)
  | appendWrites (tail : Text)
  | metadataReads (position count : Nat)
  | lookupLocks (logId offset : Nat)
  deriving DecidableEq

inductive HistoryStep where
  | appendEntry (entry : HistoryEntry) (maxBytes : Option Nat)
  | historyMetadata
  | lookup (logId offset : Nat)
  | read (length : Nat)
  | go
  | giveUp

namespace HistoryFile

def note (event : HistoryEvent) : HistoryFile := { file with log := file.log ++ [event] }

/-- The next step of a process. The file is locked from the write of an entry to the end of the trimming, which empties
it before it writes the tail. -/
def go : ProcessPhase → Option (HistoryFile × ProcessPhase)
  | .appendLocks line maxBytes =>
      if file.locked then none
      else some ({ file with content := file.content ++ line, locked := true }, .appendTrims maxBytes)
  | .appendTrims maxBytes =>
      match historyTail host maxBytes file.content with
      | none => some ({ file with locked := false }, .idle)
      | some tail => some ({ file with content := [] }, .appendWrites tail)
  | .appendWrites tail => some ({ file with content := tail, locked := false }, .idle)
  | .metadataReads position count =>
      if position < file.content.length then none
      else some (file.note (.metadata host.logIdentity count file.content), .idle)
  | .lookupLocks logId offset =>
      if file.locked then none
      else some (file.note (.lookup logId offset (lookupHistoryEntry host file.content logId offset)), .idle)
  | .idle => none

/-- The next bytes of the file are read, as many as the system gives. -/
def read (length : Nat) : ProcessPhase → Option (HistoryFile × ProcessPhase)
  | .metadataReads position count =>
      let chunk := (file.content.drop position).take length
      if chunk = [] then none else some (file, .metadataReads (position + chunk.length) (count + chunk.count '\n'))
  | _ => none

def giveUp : ProcessPhase → Option (HistoryFile × ProcessPhase)
  | .appendLocks _ _ => some (file, .idle)
  | .lookupLocks logId offset => some (file.note (.lookup logId offset none), .idle)
  | _ => none

def step (phase : ProcessPhase) : HistoryStep → Option (HistoryFile × ProcessPhase)
  | .appendEntry entry maxBytes =>
      if phase = .idle then some (file, .appendLocks (host.toLine entry ++ ['\n']) maxBytes) else none
  | .historyMetadata => if phase = .idle then some (file, .metadataReads 0 0) else none
  | .lookup logId offset => if phase = .idle then some (file, .lookupLocks logId offset) else none
  | .read length => file.read length phase
  | .go => file.go host phase
  | .giveUp => file.giveUp phase

end HistoryFile

abbrev HistorySystem := Tasks HistoryFile ProcessPhase

/-- The file has some content, and no process is in a call. -/
def HistorySystem.start (content : Text) : HistorySystem := ⟨{ content }, fun _ => .idle⟩

def HistoryMove : HistorySystem → Nat × HistoryStep → HistorySystem → Prop :=
  Tasks.Move fun _ file phase step => file.step host phase step

end CodexStudy.MessageHistory
