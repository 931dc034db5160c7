import CodexStudy.Lib.Transition
import CodexStudy.Sandbox.Bwrap
import Mathlib.Data.Finset.Basic

/-!
# Targets of a run (`linux-sandbox/src/linux_run_main.rs`)

A run registers the paths that it mounts or protects. What the command creates at a protected path is removed, and the
last run at a path removes what was made there to mount on.
-/

namespace CodexStudy.Sandbox

open CodexStudy.Lib
open CodexStudy.ApplyPatch (AbsolutePath)

/-! ## Synthetic mounts -/

structure Metadata where
  isFile : Bool
  isDir : Bool
  len : Nat
  identity : FileIdentity

def FileIdentity.ofDirectory (identity : FileIdentity) : Metadata where
  isFile := false
  isDir := true
  len := 0
  identity := identity

namespace SyntheticMountTarget

def missing (path : AbsolutePath) : SyntheticMountTarget := ⟨path, .emptyFile, none⟩

def missingEmptyDirectory (path : AbsolutePath) : SyntheticMountTarget := ⟨path, .emptyDirectory, none⟩

def existingEmptyDirectory (path : AbsolutePath) (metadata : Metadata) : SyntheticMountTarget :=
  ⟨path, .emptyDirectory, some metadata.identity⟩

variable (target : SyntheticMountTarget)

def preservesPreExistingPath : Bool := target.preExistingPath.isSome

def shouldRemoveAfterBwrap (metadata : Metadata) : Bool :=
  match target.kind with
  | .emptyFile => metadata.isFile && metadata.len == 0 && target.preExistingPath != some metadata.identity
  | .emptyDirectory => metadata.isDir && target.preExistingPath != some metadata.identity

end SyntheticMountTarget

/-! ## Markers -/

def SYNTHETIC_MOUNT_MARKER_SYNTHETIC : Text := "synthetic\n"

def SYNTHETIC_MOUNT_MARKER_EXISTING : Text := "existing\n"

abbrev MarkerDir := List (Nat × Text)

def MarkerDir.write (dir : MarkerDir) (pid : Nat) (contents : Text) : MarkerDir :=
  dir.filter (·.1 ≠ pid) ++ [(pid, contents)]

def MarkerDir.remove (dir : MarkerDir) (pid : Nat) : MarkerDir := dir.filter (·.1 ≠ pid)

def markerDirHasActiveProcessMatching (processes : Finset Nat) (matchesMarker : Text → Bool) :
    MarkerDir → MarkerDir × Bool
  | [] => ([], false)
  | entry :: entries =>
      if entry.1 ∉ processes then markerDirHasActiveProcessMatching processes matchesMarker entries
      else if matchesMarker entry.2 then (entry :: entries, true)
      else
        let (entries, found) := markerDirHasActiveProcessMatching processes matchesMarker entries
        (entry :: entries, found)

def markerDirHasActiveProcess (processes : Finset Nat) (dir : MarkerDir) : MarkerDir × Bool :=
  markerDirHasActiveProcessMatching processes (fun _ => true) dir

def markerDirHasActiveSyntheticOwner (processes : Finset Nat) (dir : MarkerDir) : MarkerDir × Bool :=
  markerDirHasActiveProcessMatching processes (· == SYNTHETIC_MOUNT_MARKER_SYNTHETIC) dir

def syntheticMountMarkerContents (target : SyntheticMountTarget) : Text :=
  if target.preservesPreExistingPath then SYNTHETIC_MOUNT_MARKER_EXISTING else SYNTHETIC_MOUNT_MARKER_SYNTHETIC

/-! ## One path -/

/-- The directory at the path with its identity, the markers of the path, and the active processes. A new directory gets
an inode that no other had. -/
structure MountWorkspace where
  directory : Option FileIdentity
  dev : Nat
  nextInode : Nat
  markerDir : MarkerDir := []
  processes : Finset Nat := ∅

def MountWorkspace.new (original : Option FileIdentity) : MountWorkspace where
  directory := original
  dev := (original.map (·.dev)).getD 0
  nextInode := (original.map (·.ino + 1)).getD 0

namespace MountWorkspace

variable (ws : MountWorkspace)

def inspect (path : AbsolutePath) : SyntheticMountTarget :=
  match ws.directory with
  | none => .missingEmptyDirectory path
  | some identity => .existingEmptyDirectory path identity.ofDirectory

def register (pid : Nat) (target : SyntheticMountTarget) : MountWorkspace × SyntheticMountTarget :=
  let (dir, synthetic) :=
    if target.preservesPreExistingPath then markerDirHasActiveSyntheticOwner ws.processes ws.markerDir
    else (ws.markerDir, false)
  let target :=
    if synthetic then
      match target.kind with
      | .emptyFile => .missing target.path
      | .emptyDirectory => .missingEmptyDirectory target.path
    else target
  ({ ws with markerDir := dir.write pid (syntheticMountMarkerContents target) }, target)

def startBwrap : MountWorkspace :=
  match ws.directory with
  | none => { ws with directory := some ⟨ws.dev, ws.nextInode⟩, nextInode := ws.nextInode + 1 }
  | some _ => ws

def removeSyntheticMountTarget (target : SyntheticMountTarget) : MountWorkspace :=
  match ws.directory with
  | none => ws
  | some identity =>
      if target.shouldRemoveAfterBwrap identity.ofDirectory then { ws with directory := none } else ws

def cleanUp (pid : Nat) (target : SyntheticMountTarget) : MountWorkspace :=
  let (dir, active) := markerDirHasActiveProcess ws.processes (ws.markerDir.remove pid)
  let ws := { ws with markerDir := dir }
  if active then ws else ws.removeSyntheticMountTarget target

end MountWorkspace

/-! ## Runs of the sandbox -/

/-- How far a run has come. -/
inductive MountPhase where
  | notStarted
  | inspected (target : SyntheticMountTarget)
  | registered (target : SyntheticMountTarget)
  | running (target : SyntheticMountTarget)
  | ended (target : SyntheticMountTarget)
  | finished

inductive MountStep where
  | inspect
  | register
  | startBwrap
  | endBwrap
  | cleanUp
  deriving DecidableEq

/-- The next step of the run with this process id. The process exits after it has cleaned up. -/
def MountWorkspace.step (path : AbsolutePath) (pid : Nat) (ws : MountWorkspace) (phase : MountPhase) :
    MountStep → Option (MountWorkspace × MountPhase)
  | .inspect =>
      match phase with
      | .notStarted => some ({ ws with processes := insert pid ws.processes }, .inspected (ws.inspect path))
      | _ => none
  | .register =>
      match phase with
      | .inspected target => some ((ws.register pid target).1, .registered (ws.register pid target).2)
      | _ => none
  | .startBwrap =>
      match phase with
      | .registered target => some (ws.startBwrap, .running target)
      | _ => none
  | .endBwrap =>
      match phase with
      | .running target => some (ws, .ended target)
      | _ => none
  | .cleanUp =>
      match phase with
      | .ended target =>
          let ws := ws.cleanUp pid target
          some ({ ws with processes := ws.processes.erase pid }, .finished)
      | _ => none

abbrev MountSystem := Tasks MountWorkspace MountPhase

def MountSystem.new (original : Option FileIdentity) : MountSystem := ⟨.new original, fun _ => .notStarted⟩

abbrev MountMove (path : AbsolutePath) (s : MountSystem) (a : Nat × MountStep) (s' : MountSystem) : Prop :=
  Tasks.Move (MountWorkspace.step path) s a s'

/-! ## The files and the markers -/

def PROTECTED_CREATE_MARKER : Text := "protected-create\n"

inductive ProtectedCreateRemoval where
  | directory
  | other

def hashPath (path : AbsolutePath) : UInt64 :=
  (path.display.flatMap String.utf8EncodeChar).foldl
    (fun hash byte => (hash ^^^ byte.toUInt64) * 0x100000001b3) 0xcbf29ce484222325

/-- What is at the protected paths, the markers under the hash of their path, and the active processes. `found` is
what was ever removed or found to be there. -/
structure CreateWorkspace where
  entries : AbsolutePath → Option ProtectedCreateRemoval := fun _ => none
  markerDirs : UInt64 → MarkerDir := fun _ => []
  processes : Finset Nat
  found : List AbsolutePath := []

namespace CreateWorkspace

variable (ws : CreateWorkspace) (pid : Nat) (targets : List AbsolutePath) (target : AbsolutePath)

def setMarkerDir (dir : MarkerDir) : CreateWorkspace :=
  { ws with markerDirs := Function.update ws.markerDirs (hashPath target) dir }

def registerProtectedCreateTargets : CreateWorkspace :=
  targets.foldl (fun ws target =>
    ws.setMarkerDir target ((ws.markerDirs (hashPath target)).write pid PROTECTED_CREATE_MARKER)) ws

def tryRemoveProtectedCreateTarget : CreateWorkspace × Option ProtectedCreateRemoval :=
  match ws.entries target with
  | none => (ws, none)
  | some removal =>
      ({ ws with entries := Function.update ws.entries target none, found := ws.found ++ [target] }, some removal)

def unregister : CreateWorkspace :=
  targets.foldr (fun target ws => ws.setMarkerDir target ((ws.markerDirs (hashPath target)).remove pid)) ws

def cleanUpTarget : CreateWorkspace × Bool :=
  let (dir, active) := markerDirHasActiveProcess ws.processes (ws.markerDirs (hashPath target))
  let ws := ws.setMarkerDir target dir
  if active then
    if (ws.entries target).isSome then ({ ws with found := ws.found ++ [target] }, true) else (ws, false)
  else
    let (ws, removal) := ws.tryRemoveProtectedCreateTarget target
    (ws, removal.isSome)

def cleanUpTargets : List AbsolutePath → CreateWorkspace × Bool
  | [] => (ws, false)
  | target :: targets =>
      let (ws, violation) := cleanUpTargets targets
      let (ws, found) := ws.cleanUpTarget target
      (ws, violation || found)

def cleanupProtectedCreateTargets : CreateWorkspace × Bool := (ws.unregister pid targets).cleanUpTargets targets

end CreateWorkspace

/-! ## The call -/

inductive WaitStatus where
  | exited (code : Nat)
  | signaled (signal : Nat)
  | other
  deriving DecidableEq

inductive ProcessExit where
  | code (code : Nat)
  | signal (signal : Nat)

def exitWithWaitStatus : WaitStatus → ProcessExit
  | .exited code => .code code
  | .signaled signal => .signal signal
  | .other => .code 1

def exitWithWaitStatusOrPolicyViolation (status : WaitStatus) (protectedCreateViolation : Bool) : ProcessExit :=
  if protectedCreateViolation && status == .exited 0 then .code 1 else exitWithWaitStatus status

inductive MonitorPhase where
  | notStarted
  | checks
  | removes (targets : List AbsolutePath)
  | records (targets : List AbsolutePath)
  | ended

inductive ChildPhase where
  | notStarted
  | running
  | exited (status : WaitStatus)

inductive CallPhase where
  | start
  | registered
  | running
  | waited (status : WaitStatus)
  | stopping (status : WaitStatus)
  | stopped (status : WaitStatus) (violation : Bool)
  | exited (exit : ProcessExit)

structure CreateSystem where
  ws : CreateWorkspace
  violation : Bool := false
  stop : Bool := false
  monitor : MonitorPhase := .notStarted
  child : ChildPhase := .notStarted
  call : CallPhase := .start

variable (pid : Nat) (targets : List AbsolutePath) (s : CreateSystem)

/-- The call begins: nothing is at the targets, and no other run is registered. -/
def CreateSystem.new : CreateSystem where
  ws := { processes := {pid} }

inductive CreateStep where
  | register
  | start
  | monitor
  | create (path : AbsolutePath) (kind : ProtectedCreateRemoval)
  | exitChild (status : WaitStatus)
  | wait
  | stop
  | join
  | finish

/-- The next step of the monitor: it looks whether it is to stop, or removes the next target. -/
def CreateSystem.advanceMonitor : Option CreateSystem :=
  match s.monitor with
  | .notStarted | .ended => none
  | .checks => some { s with monitor := if s.stop then .ended else .removes targets }
  | .removes [] => some { s with monitor := .checks }
  | .removes (target :: rest) =>
      let (ws, removal) := s.ws.tryRemoveProtectedCreateTarget target
      some { s with ws, monitor := if removal.isSome then .records rest else .removes rest }
  | .records rest => some { s with violation := true, monitor := .removes rest }

def CreateSystem.finish (status : WaitStatus)
    (monitorViolation : Bool) : CreateSystem :=
  let (ws, violation) :=
    if monitorViolation then (s.ws, true) else s.ws.cleanupProtectedCreateTargets pid targets
  { s with ws, call := .exited (exitWithWaitStatusOrPolicyViolation status violation) }

def CreateSystem.advance :
    CreateStep → Option CreateSystem
  | .register =>
      match s.call with
      | .start => some { s with ws := s.ws.registerProtectedCreateTargets pid targets, call := .registered }
      | _ => none
  | .start =>
      match s.call with
      | .registered =>
          some { s with
            monitor := if targets.isEmpty then .notStarted else .checks
            child := .running
            call := .running }
      | _ => none
  | .monitor => s.advanceMonitor targets
  | .create path kind =>
      match s.child, s.ws.entries path with
      | .running, none => some { s with ws := { s.ws with entries := Function.update s.ws.entries path (some kind) } }
      | _, _ => none
  | .exitChild status =>
      match s.child with
      | .running => some { s with child := .exited status }
      | _ => none
  | .wait =>
      match s.call, s.child with
      | .running, .exited status => some { s with call := .waited status }
      | _, _ => none
  | .stop =>
      match s.call with
      | .waited status => some { s with stop := true, call := .stopping status }
      | _ => none
  | .join =>
      match s.call, s.monitor with
      | .stopping status, .notStarted => some { s with call := .stopped status false }
      | .stopping status, .ended => some { s with call := .stopped status s.violation }
      | _, _ => none
  | .finish =>
      match s.call with
      | .stopped status violation => some (s.finish pid targets status violation)
      | _ => none

def CreateMove (a : CreateStep) (s' : CreateSystem) :
    Prop :=
  s.advance pid targets a = some s'

end CodexStudy.Sandbox
