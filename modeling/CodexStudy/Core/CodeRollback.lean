import CodexStudy.Lib.Text

/-!
# Rollback points (`code_rollback.rs`)

A point has the texts of the files that could be read when it was made, and rolling back writes them.
-/

namespace CodexStudy.Core.CodeRollback

open CodexStudy.Lib List

inductive FileContent where
  | text (text : Text)
  | binary (bytes : List UInt8)

inductive IoError where
  | notFound
  | invalidData
  | other

structure FileSnapshot where
  path : Text
  content : Text
  timestamp : Nat
  snapshotId : Text
  sessionId : Text
  turnId : Option Text

structure RollbackPoint where
  id : Text
  createdAt : Nat
  sessionId : Text
  turnId : Option Text
  description : Text
  snapshots : List FileSnapshot

/-- The files by their paths, and the stored points by their ids. -/
structure Disk where
  files : Text → Option FileContent
  points : Text → Option RollbackPoint

/-- What a call finds: the time, the id it draws, and the paths and points it cannot read or write. -/
structure Host where
  now : Nat
  newId : Text
  fails : Text → Bool := fun _ => false
  failsPoint : Text → Bool := fun _ => false

variable (host : Host) (disk : Disk)

def readToString (filePath : Text) : Except IoError Text :=
  if host.fails filePath then .error .other
  else
    match disk.files filePath with
    | some (.text text) => .ok text
    | some (.binary _) => .error .invalidData
    | none => .error .notFound

def createFileSnapshot (filePath sessionId : Text) (turnId : Option Text) (rollbackId : Text) : Except IoError FileSnapshot :=
  (readToString host disk filePath).map fun content =>
    { path := filePath, content, timestamp := host.now, snapshotId := rollbackId, sessionId, turnId }

/-- The loop of `create_rollback_point`: a file without a snapshot is left out. -/
def createSnapshots (sessionId : Text) (turnId : Option Text) (rollbackId : Text) (files : List Text) : List FileSnapshot :=
  files.filterMap fun filePath => (createFileSnapshot host disk filePath sessionId turnId rollbackId).toOption

def saveRollbackPoint (point : RollbackPoint) : Except IoError Disk :=
  if host.failsPoint point.id then .error .other
  else .ok { disk with points := fun id => if id = point.id then some point else disk.points id }

def createRollbackPoint (sessionId : Text) (turnId : Option Text) (files : List Text) (description : Text) :
    Except IoError (Text × Disk) :=
  let rollbackPoint :=
    { id := host.newId, createdAt := host.now, sessionId, turnId, description
      snapshots := createSnapshots host disk sessionId turnId host.newId files }
  (saveRollbackPoint host disk rollbackPoint).map fun disk => (host.newId, disk)

def loadRollbackPoint (rollbackId : Text) : Except IoError RollbackPoint :=
  if host.failsPoint rollbackId then .error .other
  else
    match disk.points rollbackId with
    | some point => .ok point
    | none => .error .notFound

def write (filePath : Text) (content : FileContent) : Disk :=
  { disk with files := fun path => if path = filePath then some content else disk.files path }

/-- The loop of `rollback_to_point`: the paths that were restored, and the disk after the last write. -/
def restore (disk : Disk) : List FileSnapshot → Except IoError (List Text) × Disk
  | [] => (.ok [], disk)
  | snapshot :: snapshots =>
      if host.fails snapshot.path then (.error .other, disk)
      else
        let (restored, disk) := restore (write disk snapshot.path (.text snapshot.content)) snapshots
        (restored.map (snapshot.path :: ·), disk)

def rollbackToPoint (rollbackId : Text) : Except IoError (List Text) × Disk :=
  match loadRollbackPoint host disk rollbackId with
  | .error err => (.error err, disk)
  | .ok point => restore host disk point.snapshots

/-! ## What happens between -/

inductive FileOp where
  | write (path : Text) (content : FileContent)
  | delete (path : Text)

def FileOp.run (disk : Disk) : FileOp → Disk
  | .write path content => CodeRollback.write disk path content
  | .delete path => { disk with files := fun other => if other = path then none else disk.files other }

variable {host host' : Host} {disk disk' : Disk} {snapshots : List FileSnapshot} {ops : List FileOp}
  {files restored : List Text} {sessionId rollbackId description path : Text} {turnId : Option Text}

theorem points_run : (ops.foldl FileOp.run disk).points = disk.points := by
  induction ops generalizing disk with
  | nil => rfl
  | cons op ops ih =>
      rw [foldl_cons, ih]
      cases op <;> rfl

/-! ## What a rollback restores -/

/-- Snapshots of one path have one content, and a path without a snapshot is not touched. -/
theorem restore_files (contentOf : Text → Option Text) (hsnapshots : ∀ s ∈ snapshots, contentOf s.path = some s.content)
    (h : (restore host disk snapshots).1 = .ok restored) :
    (restore host disk snapshots).2.files path =
      if path ∈ snapshots.map FileSnapshot.path then (contentOf path).map .text else disk.files path := by
  induction snapshots generalizing disk restored with
  | nil => rfl
  | cons snapshot snapshots ih =>
      simp only [forall_mem_cons] at hsnapshots
      simp only [restore] at h ⊢
      split at h
      next => cases h
      next hwr =>
        rw [if_neg hwr]
        cases hrest : (restore host (write disk snapshot.path (.text snapshot.content)) snapshots).1 with
        | error err => simp [hrest, Except.map] at h
        | ok rest =>
            simp only [ih hsnapshots.2 hrest, map_cons, mem_cons]
            by_cases hmem : path ∈ snapshots.map FileSnapshot.path
            · simp [hmem]
            · by_cases hpath : path = snapshot.path
              · subst hpath
                simp [write, hmem, hsnapshots.1]
              · simp [write, hmem, hpath]

def recorded (host : Host) (disk : Disk) (path : Text) : Option Text := (readToString host disk path).toOption

theorem files_of_read {text : Text} (h : readToString host disk path = .ok text) : disk.files path = some (.text text) := by
  unfold readToString at h
  split at h
  · cases h
  · split at h <;> cases h
    assumption

theorem mem_createSnapshots {snapshot : FileSnapshot} :
    snapshot ∈ createSnapshots host disk sessionId turnId rollbackId files ↔ ∃ filePath ∈ files, ∃ text,
      readToString host disk filePath = .ok text ∧ snapshot = ⟨filePath, text, host.now, rollbackId, sessionId, turnId⟩ := by
  simp only [createSnapshots, mem_filterMap, createFileSnapshot]
  refine exists_congr fun filePath => and_congr_right fun _ => ?_
  cases readToString host disk filePath <;> simp [Except.map, Except.toOption, eq_comm]

/-- After a point was made and rolled back to, the listed paths are as they were exactly if each was a readable text, or
was again what it had been when the rollback began. -/
theorem rollback_restores_iff
    (hcreate : createRollbackPoint host disk sessionId turnId files description = .ok (rollbackId, disk'))
    (ops : List FileOp) (hrollback : (rollbackToPoint host' (ops.foldl FileOp.run disk') rollbackId).1 = .ok restored) :
    (∀ path ∈ files, (rollbackToPoint host' (ops.foldl FileOp.run disk') rollbackId).2.files path = disk.files path) ↔
      ∀ path ∈ files, (∃ text, readToString host disk path = .ok text) ∨
        (ops.foldl FileOp.run disk').files path = disk.files path := by
  have hsav : disk'.points rollbackId =
      some ⟨rollbackId, host.now, sessionId, turnId, description,
        createSnapshots host disk sessionId turnId rollbackId files⟩ := by
    simp only [createRollbackPoint, saveRollbackPoint] at hcreate
    split at hcreate
    · cases hcreate
    · cases hcreate
      simp
  generalize hlater : ops.foldl FileOp.run disk' = later at hrollback ⊢
  rw [← @points_run _ ops, hlater] at hsav
  simp only [rollbackToPoint, loadRollbackPoint, hsav] at hrollback ⊢
  split at hrollback
  next hfailed =>
    split at hfailed <;> cases hfailed
    simp at hrollback
  next hloaded =>
    split at hloaded <;> cases hloaded
    rename_i hrds
    refine forall₂_congr fun path hpath => ?_
    rw [restore_files (recorded host disk) ?_ hrollback]
    · cases hread : readToString host disk path with
      | ok text =>
          have hmem : path ∈ (createSnapshots host disk sessionId turnId rollbackId files).map FileSnapshot.path :=
            mem_map.mpr ⟨_, mem_createSnapshots.mpr ⟨path, hpath, text, hread, rfl⟩, rfl⟩
          simp only [if_pos hmem, recorded, hread, files_of_read hread]
          simp [Except.toOption]
      | error err =>
          have hmem : path ∉ (createSnapshots host disk sessionId turnId rollbackId files).map FileSnapshot.path := by
            intro hmem
            obtain ⟨snapshot, hsnapshot, rfl⟩ := mem_map.mp hmem
            obtain ⟨filePath, -, text, htext, rfl⟩ := mem_createSnapshots.mp hsnapshot
            rw [hread] at htext
            cases htext
          simp only [if_neg hmem]
          simp
    · intro snapshot hsnapshot
      obtain ⟨filePath, -, text, htext, rfl⟩ := mem_createSnapshots.mp hsnapshot
      simp [recorded, htext, Except.toOption]

/-! ## A file that did not exist -/

def sampleHost : Host := { now := 0, newId := "r" }

/-- One text, and no other file. -/
def sampleDisk : Disk :=
  { files := fun path => if path = "old".toList then some (.text "a") else none, points := fun _ => none }

def sampleOps : List FileOp := [.write "old" (.text "b"), .write "new" (.text "c")]

def samplePoint : Except IoError (Text × Disk) := createRollbackPoint sampleHost sampleDisk "s" none ["old", "new"] "before"

theorem rollback_restores_iff_sample : ∃ rollbackId disk',
    (∀ path ∈ ["old".toList], (rollbackToPoint sampleHost (sampleOps.foldl FileOp.run disk') rollbackId).2.files path =
        sampleDisk.files path) ↔ ∀ path ∈ ["old".toList], (∃ text, readToString sampleHost sampleDisk path = .ok text) ∨
        (sampleOps.foldl FileOp.run disk').files path = sampleDisk.files path :=
  ⟨_, _, rollback_restores_iff (show createRollbackPoint sampleHost sampleDisk "s" none ["old"] "before" = .ok (_, _) from rfl)
    sampleOps (show _ = Except.ok ["old".toList] from rfl)⟩

/-- A file that was made after the point stays. -/
theorem new_file_stays : ∃ rollbackId disk', samplePoint = .ok (rollbackId, disk') ∧
    (rollbackToPoint sampleHost (sampleOps.foldl FileOp.run disk') rollbackId).1 = .ok ["old".toList] ∧
      (rollbackToPoint sampleHost (sampleOps.foldl FileOp.run disk') rollbackId).2.files "new" = some (.text "c") ∧
      sampleDisk.files "new" = none :=
  ⟨_, _, rfl, rfl, rfl, rfl⟩

end CodexStudy.Core.CodeRollback
