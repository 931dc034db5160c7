import CodexStudy.Lib.Transition
import Mathlib.Data.Finset.Basic

/-!
# The readiness flag (`utils/readiness/src/lib.rs`)

A flag is set once, by a task that has subscribed, or by the first one that asks when nobody has subscribed.
-/

namespace CodexStudy.Readiness

open CodexStudy.Lib

/-! ## The channel -/

/-- A `tokio::sync::watch` channel: the last value, how often it was sent, and the tasks with a receiver. -/
structure Watch where
  value : Bool := false
  version : Nat := 0
  receivers : Finset Nat := ∅

namespace Watch

variable (tx : Watch)

/-- Where nobody listens, the value is not stored. -/
def send (value : Bool) : Watch :=
  if tx.receivers = ∅ then tx else { tx with value, version := tx.version + 1 }

def subscribe (t : Nat) : Watch := { tx with receivers := insert t tx.receivers }

def close (t : Nat) : Watch := { tx with receivers := tx.receivers.erase t }

end Watch

/-! ## The flag -/

abbrev Token := Int32

inductive ReadinessEvent where
  | subscribed (token : Token)
  | marked (token : Token)

structure ReadinessFlag where
  ready : Bool := false
  nextId : Int32 := 1
  tokens : Finset Token := ∅
  locked : Bool := false
  tx : Watch := {}
  log : List ReadinessEvent := []

namespace ReadinessFlag

def lock (flag : ReadinessFlag) : ReadinessFlag := { flag with locked := true }

def unlock (flag : ReadinessFlag) : ReadinessFlag := { flag with locked := false }

end ReadinessFlag

inductive ReadinessCall where
  | subscribe
  | markReady (token : Token)
  | isReady
  | waitReady

/-- Where a task stands: the atomic step that comes next. `inWait` tells whether `wait_ready` asks. -/
inductive Phase where
  | idle
  | subscribeLoads
  | subscribeLocks
  | subscribeChecks
  | subscribeDraws
  | markLoads (token : Token)
  | markLocks (token : Token)
  | markRemoves (token : Token)
  | markSends (token : Token)
  | readyLoads (inWait : Bool)
  | readyTries (inWait : Bool)
  | readyLooks (inWait : Bool)
  | readySends (inWait : Bool)
  | readyReloads (inWait : Bool)
  | waitSubscribes
  | waitBorrows (seen : Nat)
  | waitChanges (seen : Nat)
  deriving DecidableEq

def ReadinessCall.phase : ReadinessCall → Phase
  | subscribe => .subscribeLoads
  | markReady token => .markLoads token
  | isReady => .readyLoads false
  | waitReady => .readyLoads true

def Phase.answered (inWait answer : Bool) : Phase := if inWait && !answer then .waitSubscribes else .idle

namespace ReadinessFlag

/-- The next atomic step of the task `t`. A task waits for the lock, and on the channel for a new version. -/
def go (t : Nat) (flag : ReadinessFlag) : Phase → Option (ReadinessFlag × Phase)
  | .idle => none
  | .subscribeLoads => some (flag, if flag.ready then .idle else .subscribeLocks)
  | .subscribeLocks => if flag.locked then none else some (flag.lock, .subscribeChecks)
  | .subscribeChecks => if flag.ready then some (flag.unlock, .idle) else some (flag, .subscribeDraws)
  | .subscribeDraws =>
      let token := flag.nextId
      let flag := { flag with nextId := token + 1 }
      if token ≠ 0 ∧ token ∉ flag.tokens then
        some ({ flag.unlock with tokens := insert token flag.tokens, log := flag.log ++ [.subscribed token] }, .idle)
      else some (flag, .subscribeDraws)
  | .markLoads token => some (flag, if flag.ready ∨ token = 0 then .idle else .markLocks token)
  | .markLocks token => if flag.locked then none else some (flag.lock, .markRemoves token)
  | .markRemoves token =>
      if token ∈ flag.tokens then some ({ flag.unlock with ready := true, tokens := ∅ }, .markSends token)
      else some (flag.unlock, .idle)
  | .markSends token => some ({ flag with tx := flag.tx.send true, log := flag.log ++ [.marked token] }, .idle)
  | .readyLoads inWait => some (flag, if flag.ready then .answered inWait true else .readyTries inWait)
  | .readyTries inWait =>
      if flag.locked then some (flag, .readyReloads inWait) else some (flag.lock, .readyLooks inWait)
  | .readyLooks inWait =>
      if flag.tokens = ∅ then
        some ({ flag.unlock with ready := true },
          if flag.ready then .answered inWait true else .readySends inWait)
      else some (flag.unlock, .readyReloads inWait)
  | .readySends inWait => some ({ flag with tx := flag.tx.send true }, .answered inWait true)
  | .readyReloads inWait => some (flag, .answered inWait flag.ready)
  | .waitSubscribes => some ({ flag with tx := flag.tx.subscribe t }, .waitBorrows flag.tx.version)
  | .waitBorrows seen =>
      if flag.tx.value then some ({ flag with tx := flag.tx.close t }, .idle) else some (flag, .waitChanges seen)
  | .waitChanges seen => if seen = flag.tx.version then none else some (flag, .waitBorrows flag.tx.version)

/-- A call is given up where it waits: the lock takes too long, or the future is dropped. -/
def leave (t : Nat) (flag : ReadinessFlag) : Phase → Option (ReadinessFlag × Phase)
  | .subscribeLocks | .markLocks _ => some (flag, .idle)
  | .waitChanges _ => some ({ flag with tx := flag.tx.close t }, .idle)
  | _ => none

end ReadinessFlag

inductive ReadinessStep where
  | call (call : ReadinessCall)
  | go
  | leave

def ReadinessFlag.step (t : Nat) (flag : ReadinessFlag) (phase : Phase) :
    ReadinessStep → Option (ReadinessFlag × Phase)
  | .call call => if phase = .idle then some (flag, call.phase) else none
  | .go => flag.go t phase
  | .leave => flag.leave t phase

abbrev ReadinessSystem := Tasks ReadinessFlag Phase

def ReadinessSystem.new : ReadinessSystem := ⟨{}, fun _ => .idle⟩

abbrev ReadinessMove (s : ReadinessSystem) (a : Nat × ReadinessStep) (s' : ReadinessSystem) : Prop :=
  Tasks.Move ReadinessFlag.step s a s'

end CodexStudy.Readiness
