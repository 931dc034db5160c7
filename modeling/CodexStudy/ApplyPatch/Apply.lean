import CodexStudy.ApplyPatch.Parser
import CodexStudy.ApplyPatch.FileSystem

/-!
# Applying a patch

The hunks of a patch are applied one after another.
-/

namespace CodexStudy.ApplyPatch

open CodexStudy.Lib

/-! ## Locating a pattern -/

/-- The ASCII character that stands for a typographic one. -/
def normaliseChar (c : Char) : Char :=
  let n := c.toNat
  if (0x2010 ≤ n ∧ n ≤ 0x2015) ∨ n = 0x2212 then '-'
  else if 0x2018 ≤ n ∧ n ≤ 0x201B then '\''
  else if 0x201C ≤ n ∧ n ≤ 0x201F then '"'
  else if n = 0x00A0 ∨ (0x2002 ≤ n ∧ n ≤ 0x200A) ∨ n = 0x202F ∨ n = 0x205F ∨ n = 0x3000 then ' '
  else c

def normalise (s : Text) : Text := s.trim.map normaliseChar

def seekPass (view : Text → Text) (lines pattern : List Text) (searchStart : Nat) : Option Nat :=
  (List.range' searchStart (lines.length - pattern.length + 1 - searchStart)).find? fun i =>
    ((lines.drop i).take pattern.length).map view == pattern.map view

/-- Look for the pattern from `start` on, or at the end of the lines when `eof` is set: as it is, without white space at
the end, without it on both sides, and with typographic characters replaced. -/
def seekSequence (lines pattern : List Text) (start : Nat) (eof : Bool) : Option Nat :=
  if pattern = [] then some start
  else if lines.length < pattern.length then none
  else
    let searchStart := if eof then lines.length - pattern.length else start
    seekPass id lines pattern searchStart
      <|> seekPass Text.trimEnd lines pattern searchStart
      <|> seekPass Text.trim lines pattern searchStart
      <|> seekPass normalise lines pattern searchStart

/-! ## Replacements -/

/-- The `oldLen` lines from `start` on become `newLines`. -/
structure Replacement where
  start : Nat
  oldLen : Nat
  newLines : List Text
  deriving DecidableEq

def dropFinalEmpty (lines : List Text) : List Text := if lines.getLast? = some [] then lines.dropLast else lines

def seekContext (originalLines : List Text) (path : Text) (chunk : UpdateFileChunk) (lineIndex : Nat) :
    Except Text Nat :=
  match chunk.changeContext with
  | none => .ok lineIndex
  | some context =>
      match seekSequence originalLines [context] lineIndex false with
      | some i => .ok (i + 1)
      | none => .error ("Failed to find context '" ++ context ++ "' in " ++ path)

def locateOldLines (originalLines : List Text) (path : Text) (chunk : UpdateFileChunk) (lineIndex : Nat) :
    Except Text Replacement :=
  match seekSequence originalLines chunk.oldLines lineIndex chunk.isEndOfFile with
  | some i => .ok ⟨i, chunk.oldLines.length, chunk.newLines⟩
  | none =>
      let failed := "Failed to find expected lines in " ++ path ++ ":\n" ++
        Text.join ['\n'] chunk.oldLines
      if chunk.oldLines.getLast? = some [] then
        let pattern := chunk.oldLines.dropLast
        match seekSequence originalLines pattern lineIndex chunk.isEndOfFile with
        | some i => .ok ⟨i, pattern.length, dropFinalEmpty chunk.newLines⟩
        | none => .error failed
      else .error failed

def locateChunks (originalLines : List Text) (path : Text) :
    (lineIndex : Nat) → List UpdateFileChunk → Except Text (List Replacement)
  | _, [] => .ok []
  | lineIndex, chunk :: chunks => do
      let lineIndex ← seekContext originalLines path chunk lineIndex
      if chunk.oldLines = [] then
        let insertionIdx := (dropFinalEmpty originalLines).length
        let replacements ← locateChunks originalLines path lineIndex chunks
        return ⟨insertionIdx, 0, chunk.newLines⟩ :: replacements
      else
        let found ← locateOldLines originalLines path chunk lineIndex
        let replacements ← locateChunks originalLines path (found.start + found.oldLen) chunks
        return found :: replacements

def computeReplacements (originalLines : List Text) (path : Text) (chunks : List UpdateFileChunk) :
    Except Text (List Replacement) := do
  let replacements ← locateChunks originalLines path 0 chunks
  return replacements.insertionSort fun r r' => r.start ≤ r'.start

def applyReplacement (lines : List Text) (r : Replacement) : List Text :=
  lines.take r.start ++ r.newLines ++ lines.drop (r.start + r.oldLen)

def applyReplacements (lines : List Text) (replacements : List Replacement) : List Text :=
  replacements.reverse.foldl applyReplacement lines

def newContentsFromChunks (path : Text) (originalContents : Text) (chunks : List UpdateFileChunk) :
    Except Text Text := do
  let originalLines := dropFinalEmpty (originalContents.splitOn '\n')
  let replacements ← computeReplacements originalLines path chunks
  let newLines := applyReplacements originalLines replacements
  return Text.join ['\n'] (if newLines.getLast? = some [] then newLines else newLines ++ [[]])

inductive ApplyPatchError where
  | parseError (e : ParseError)
  | ioError (context : Text) (source : IoError)
  | computeReplacements (message : Text)
  deriving DecidableEq

def ApplyPatchError.display : ApplyPatchError → Text
  | parseError e => e.display
  | ioError context source => context ++ ": " ++ source.message
  | computeReplacements message => message

inductive AppliedPatchFileChange where
  | add (content : Text) (overwrittenContent : Option Text)
  | delete (content : Text)
  | update (movePath : Option AbsolutePath) (oldContent : Text) (overwrittenMoveContent : Option Text)
      (newContent : Text)
  deriving DecidableEq

structure AppliedPatchChange where
  path : AbsolutePath
  change : AppliedPatchFileChange
  deriving DecidableEq

structure AppliedPatchDelta where
  changes : List AppliedPatchChange
  exact : Bool
  deriving DecidableEq

def AppliedPatchDelta.empty : AppliedPatchDelta := ⟨[], true⟩

structure AffectedPaths where
  added : List Text
  modified : List Text
  deleted : List Text

/-- Why `apply_hunks_to_files` stopped: an error of the file system with its context, one of an update, or no hunks. -/
inductive ApplyError where
  | io (context : Text) (source : IoError)
  | patch (e : ApplyPatchError)
  | noFiles

def ApplyError.display : ApplyError → Text
  | io context _ => context
  | patch e => e.display
  | noFiles => "No files were modified."

/-- The file system, the changes made so far, and the paths for the summary. -/
structure Progress (S : Type) where
  fs : S
  delta : AppliedPatchDelta
  affected : AffectedPaths

def Progress.start {S : Type} (s : S) : Progress S := ⟨s, .empty, ⟨[], [], []⟩⟩

/-! ## Paths of a hunk -/

def Hunk.sourcePath : Hunk → Text
  | addFile path _ => path
  | deleteFile path => path
  | updateFile path _ _ => path

def Hunk.movePath : Hunk → Option Text
  | updateFile _ movePath _ => movePath
  | _ => none

def Hunk.resolvePath (home : Option Text) (hunk : Hunk) (cwd : AbsolutePath) : AbsolutePath :=
  resolvePathAgainstBase home hunk.sourcePath cwd

def Hunk.path (hunk : Hunk) : Text := hunk.movePath.getD hunk.sourcePath

/-! ## Steps of the application -/

section

variable {S : Type} (fs : ExecutorFileSystem S)

/-- Make a call to the file system and stop with its error, turned into one of the application. -/
def onFs {ε α : Type} (wrap : ε → ApplyError) (x : Eff ε S α) : Eff ApplyError (Progress S) α := fun st =>
  match x st.fs with
  | (.ok a, s) => (.ok a, { st with fs := s })
  | (.error e, s) => (.error (wrap e), { st with fs := s })

/-- Make a call to the file system and go on with its result, whether it failed or not. -/
def observe {ε α : Type} (x : Eff ε S α) : Eff ApplyError (Progress S) (Except ε α) := fun st =>
  (.ok (x st.fs).1, { st with fs := (x st.fs).2 })

/-- The changes are no longer known exactly unless `keep` holds. -/
def setExact (keep : Bool) : Eff ApplyError (Progress S) Unit :=
  Eff.modify fun st => { st with delta := { st.delta with exact := st.delta.exact && keep } }

def pushChange (c : AppliedPatchChange) : Eff ApplyError (Progress S) Unit :=
  Eff.modify fun st => { st with delta := { st.delta with changes := st.delta.changes ++ [c] } }

def replaceLastChange (c : AppliedPatchChange) : Eff ApplyError (Progress S) Unit :=
  Eff.modify fun st => { st with delta := { st.delta with changes := st.delta.changes.dropLast ++ [c] } }

def pushAffected (f : AffectedPaths → AffectedPaths) : Eff ApplyError (Progress S) Unit :=
  Eff.modify fun st => { st with affected := f st.affected }

/-- A write that fails may have modified its target. -/
def tryWrite {α : Type} (x : Eff ApplyError (Progress S) α) : Eff ApplyError (Progress S) α := fun st =>
  match x st with
  | (.ok a, st') => (.ok a, st')
  | (.error e, st') => (.error e, { st' with delta := { st'.delta with exact := false } })

def ensureNotDirectory (context : Text) (path : AbsolutePath) : Eff ApplyError (Progress S) Unit := do
  let metadata ← onFs (.io context) (fs.getMetadata path)
  if metadata.isDirectory then Eff.fail (.io context ⟨.invalidInput, "path is a directory"⟩) else pure ()

def removeFailureWasSideEffectFree (path : AbsolutePath) (expectedContent : Option Text) :
    Eff ApplyError (Progress S) Bool :=
  match expectedContent with
  | some expected => do
      let content ← observe (fs.readFileText path)
      return content == .ok expected
  | none => pure false

def noteExistingPathDeltaSupport (path : AbsolutePath) : Eff ApplyError (Progress S) Unit := do
  let metadata ← observe (fs.getMetadata path)
  match metadata with
  | .ok metadata => setExact (metadata.isFile && !metadata.isSymlink)
  | .error source => setExact (source.kind == .notFound)

def readOptionalFileTextForDelta (path : AbsolutePath) : Eff ApplyError (Progress S) (Option Text) := do
  noteExistingPathDeltaSupport fs path
  let content ← observe (fs.readFileText path)
  match content with
  | .ok content => return some content
  | .error source => do
      setExact (source.kind == .notFound)
      return none

def failedToWrite (path : AbsolutePath) : Text := "Failed to write file " ++ path.display

def createParentDirectories (path : AbsolutePath) : Eff ApplyError (Progress S) Unit :=
  match path.parent with
  | some parent =>
      onFs (.io ("Failed to create parent directories for " ++ path.display)) (fs.createDirectory parent)
  | none => pure ()

def writeFileWithMissingParentRetry (path : AbsolutePath) (contents : Text) : Eff ApplyError (Progress S) Unit := do
  let written ← observe (fs.writeFile path contents)
  match written with
  | .ok () => pure ()
  | .error e =>
      if e.kind = .notFound then do
        createParentDirectories fs path
        onFs (.io (failedToWrite path)) (fs.writeFile path contents)
      else Eff.fail (.io (failedToWrite path) e)

structure AppliedPatch where
  originalContents : Text
  newContents : Text

def deriveNewContentsFromChunks (path : AbsolutePath) (chunks : List UpdateFileChunk) :
    Eff ApplyPatchError S AppliedPatch := fun s =>
  match fs.readFileText path s with
  | (.error e, s') => (.error (.ioError ("Failed to read file to update " ++ path.display) e), s')
  | (.ok originalContents, s') =>
      match newContentsFromChunks path.display originalContents chunks with
      | .error message => (.error (.computeReplacements message), s')
      | .ok newContents => (.ok { originalContents, newContents }, s')

def removeOriginal (context : Text) (path : AbsolutePath) (expectedContent : Option Text) :
    Eff ApplyError (Progress S) Unit := do
  ensureNotDirectory fs context path
  let removed ← observe (fs.remove path)
  match removed with
  | .ok () => pure ()
  | .error e => do
      let keep ← removeFailureWasSideEffectFree fs path expectedContent
      setExact keep
      Eff.fail (.io context e)

/-! ## Hunks -/

variable (affected : Text) (path : AbsolutePath)

def applyAddFile (contents : Text) : Eff ApplyError (Progress S) Unit := do
  let overwrittenContent ← readOptionalFileTextForDelta fs path
  tryWrite (writeFileWithMissingParentRetry fs path contents)
  pushChange ⟨path, .add contents overwrittenContent⟩
  pushAffected fun a => { a with added := a.added ++ [affected] }

/-- Note the removed content, where it could be read. -/
def pushDeleted (path : AbsolutePath) (deletedContent : Option Text) : Eff ApplyError (Progress S) Unit :=
  match deletedContent with
  | some content => pushChange ⟨path, .delete content⟩
  | none => pure ()

def applyDeleteFile : Eff ApplyError (Progress S) Unit := do
  noteExistingPathDeltaSupport fs path
  let content ← observe (fs.readFileText path)
  setExact content.toOption.isSome
  removeOriginal fs ("Failed to delete file " ++ path.display) path content.toOption
  pushDeleted path content.toOption
  pushAffected fun a => { a with deleted := a.deleted ++ [affected] }

def applyMove (path dest : AbsolutePath) (patch : AppliedPatch) : Eff ApplyError (Progress S) Unit := do
  let overwrittenMoveContent ← readOptionalFileTextForDelta fs dest
  tryWrite (writeFileWithMissingParentRetry fs dest patch.newContents)
  pushChange ⟨dest, .add patch.newContents overwrittenMoveContent⟩
  removeOriginal fs ("Failed to remove original " ++ path.display) path (some patch.originalContents)
  replaceLastChange ⟨path, .update (some dest) patch.originalContents overwrittenMoveContent patch.newContents⟩

def applyOverwrite (path : AbsolutePath) (patch : AppliedPatch) : Eff ApplyError (Progress S) Unit := do
  tryWrite (onFs (.io (failedToWrite path)) (fs.writeFile path patch.newContents))
  pushChange ⟨path, .update none patch.originalContents none patch.newContents⟩

def applyNewContents (path : AbsolutePath) (dest : Option AbsolutePath) (patch : AppliedPatch) :
    Eff ApplyError (Progress S) Unit :=
  match dest with
  | some dest => applyMove fs path dest patch
  | none => applyOverwrite fs path patch

def applyUpdateFile (dest : Option AbsolutePath)
    (chunks : List UpdateFileChunk) : Eff ApplyError (Progress S) Unit := do
  noteExistingPathDeltaSupport fs path
  let patch ← onFs .patch (deriveNewContentsFromChunks fs path chunks)
  applyNewContents fs path dest patch
  pushAffected fun a => { a with modified := a.modified ++ [affected] }

def applyHunk (home : Option Text) (cwd : AbsolutePath) (hunk : Hunk) : Eff ApplyError (Progress S) Unit :=
  let path := hunk.resolvePath home cwd
  match hunk with
  | .addFile _ contents => applyAddFile fs hunk.path path contents
  | .deleteFile _ => applyDeleteFile fs hunk.path path
  | .updateFile _ movePath chunks =>
      applyUpdateFile fs hunk.path path (movePath.map fun dest => resolvePathAgainstBase home dest cwd) chunks

def applyHunksToFiles (home : Option Text) (cwd : AbsolutePath) (hunks : List Hunk) :
    Eff ApplyError (Progress S) AffectedPaths := do
  if hunks = [] then Eff.fail .noFiles
  else
    let _ ← Eff.each (applyHunk fs home cwd) hunks
    let st ← Eff.read
    return st.affected

/-! ## The whole patch -/

structure ApplyPatchFailure where
  error : ApplyPatchError
  delta : AppliedPatchDelta
  deriving DecidableEq

/-- What a call of the tool returns and leaves behind. -/
structure Outcome (S : Type) where
  result : Except ApplyPatchFailure AppliedPatchDelta
  fs : S
  stdout : Text
  stderr : Text

def summaryLines (mark : Text) (paths : List Text) : Text := Text.ofLines (paths.map fun p => mark ++ p)

def printSummary (affected : AffectedPaths) : Text :=
  Text.ofLines ["Success. Updated the following files:"] ++
    summaryLines "A " affected.added ++
    summaryLines "M " affected.modified ++
    summaryLines "D " affected.deleted

def ApplyError.report : ApplyError → ApplyPatchError
  | io _ source => .ioError "I/O error" source
  | e => .ioError e.display ⟨.other, e.display⟩

def applyHunks (home : Option Text) (cwd : AbsolutePath) (hunks : List Hunk) (s : S) : Outcome S :=
  match applyHunksToFiles fs home cwd hunks (.start s) with
  | (.ok affected, st) => ⟨.ok st.delta, st.fs, printSummary affected, []⟩
  | (.error e, st) => ⟨.error ⟨e.report, st.delta⟩, st.fs, [], e.display ++ ['\n']⟩

def parseErrorLine : ParseError → Text
  | .invalidPatch message => "Invalid patch: " ++ message ++ ['\n']
  | .invalidHunk message lineNumber =>
      "Invalid patch hunk on line " ++ Nat.toDigits 10 lineNumber ++ ": " ++ message ++ ['\n']

def applyPatch (home : Option Text) (patch : Text) (cwd : AbsolutePath) (s : S) : Outcome S :=
  match parsePatch patch with
  | .ok source => applyHunks fs home cwd source.hunks s
  | .error e => ⟨.error ⟨.parseError e, .empty⟩, s, [], parseErrorLine e⟩

end

/-! ## The preview of a patch -/

inductive ApplyPatchFileChange where
  | add (content : Text)
  | delete (content : Text)
  | update (unifiedDiff : Text) (movePath : Option AbsolutePath) (newContent : Text)
  deriving DecidableEq

structure ApplyPatchAction where
  changes : Finmap fun _ : AbsolutePath => ApplyPatchFileChange
  patch : Text
  cwd : AbsolutePath
  deriving DecidableEq

inductive MaybeApplyPatchVerified where
  | body (action : ApplyPatchAction)
  | correctnessError (e : ApplyPatchError)
  deriving DecidableEq

section

variable {S : Type} (fs : ExecutorFileSystem S) (unifiedDiff : Text → Text → Text)

def previewHunk (home : Option Text) (cwd : AbsolutePath) (hunk : Hunk) : Eff ApplyPatchError S ApplyPatchFileChange :=
  let path := hunk.resolvePath home cwd
  match hunk with
  | .addFile _ contents => pure (.add contents)
  | .deleteFile _ => fun s =>
      match fs.readFileText path s with
      | (.ok content, s') => (.ok (.delete content), s')
      | (.error e, s') => (.error (.ioError ("Failed to read " ++ path.display) e), s')
  | .updateFile _ movePath chunks => do
      let patch ← deriveNewContentsFromChunks fs path chunks
      return .update (unifiedDiff patch.originalContents patch.newContents)
        (movePath.map fun dest => resolvePathAgainstBase home dest cwd) patch.newContents

def previewHunks (home : Option Text) (cwd : AbsolutePath) :
    List Hunk → (Finmap fun _ : AbsolutePath => ApplyPatchFileChange) →
      Eff ApplyPatchError S (Finmap fun _ : AbsolutePath => ApplyPatchFileChange)
  | [], changes => pure changes
  | hunk :: hunks, changes => do
      let change ← previewHunk fs unifiedDiff home cwd hunk
      previewHunks home cwd hunks (changes.insert (hunk.resolvePath home cwd) change)

def effectiveCwd (home : Option Text) (workdir : Option Text) (cwd : AbsolutePath) : AbsolutePath :=
  match workdir with
  | some dir => resolvePathAgainstBase home dir cwd
  | none => cwd

def verifyApplyPatchArgs (home : Option Text) (args : ApplyPatchArgs) (cwd : AbsolutePath) (s : S) :
    MaybeApplyPatchVerified × S :=
  let cwd := effectiveCwd home args.workdir cwd
  match previewHunks fs unifiedDiff home cwd args.hunks ∅ s with
  | (.ok changes, s') => (.body { changes, patch := args.patch, cwd }, s')
  | (.error e, s') => (.correctnessError e, s')

end

/-! ## The check of the paths -/

/-- The path without `.` and `..`, found without looking at the file system. -/
def AbsolutePath.normalize (p : AbsolutePath) : AbsolutePath where
  names := normalizeNames p.names
  normal := by rw [normalizeNames_names]; exact p.normal

@[simp] theorem AbsolutePath.normalize_eq (p : AbsolutePath) : p.normalize = p :=
  AbsolutePath.ext_names (normalizeNames_names p)

def ApplyPatchFileChange.paths (key : AbsolutePath) : ApplyPatchFileChange → List AbsolutePath
  | .update _ (some dest) _ => [key, dest]
  | _ => [key]

def isWritePatchConstrainedToWritablePaths (canWritePath : AbsolutePath → Bool) (action : ApplyPatchAction) : Bool :=
  decide (∀ key ∈ action.changes.keys, ∀ change, action.changes.lookup key = some change →
    ∀ p ∈ change.paths key, canWritePath p.normalize = true)

end CodexStudy.ApplyPatch
