import CodexStudy.Lib.Text
import CodexStudy.Lib.Effect
import Mathlib.Data.List.ModifyLast

/-!
# The patch parser

A patch text is cut into lines, its first and last lines are checked, and the lines between them are read hunk by
hunk.
-/

namespace CodexStudy.ApplyPatch

open CodexStudy.Lib Text

def beginPatchMarker : Text := "*** Begin Patch"
def environmentIdMarker : Text := "*** Environment ID: "
def endPatchMarker : Text := "*** End Patch"
def addFileMarker : Text := "*** Add File: "
def deleteFileMarker : Text := "*** Delete File: "
def updateFileMarker : Text := "*** Update File: "
def moveToMarker : Text := "*** Move to: "
def eofMarker : Text := "*** End of File"
def changeContextMarker : Text := "@@ "
def emptyChangeContextMarker : Text := "@@"

inductive ParseError where
  | invalidPatch (message : Text)
  | invalidHunk (message : Text) (lineNumber : Nat)
  deriving DecidableEq

def ParseError.display : ParseError → Text
  | invalidPatch message => "invalid patch: " ++ message
  | invalidHunk message lineNumber =>
      "invalid hunk at line " ++ Nat.toDigits 10 lineNumber ++ ", " ++ message

structure UpdateFileChunk where
  changeContext : Option Text
  oldLines : List Text
  newLines : List Text
  isEndOfFile : Bool
  deriving DecidableEq

inductive Hunk where
  | addFile (path : Text) (contents : Text)
  | deleteFile (path : Text)
  | updateFile (path : Text) (movePath : Option Text) (chunks : List UpdateFileChunk)
  deriving DecidableEq

structure ApplyPatchArgs where
  patch : Text
  hunks : List Hunk
  workdir : Option Text
  environmentId : Option Text
  deriving DecidableEq

/-! ## The boundaries of the patch -/

def checkStartAndEndLinesStrict (firstLine lastLine : Option Text) : Except ParseError Unit :=
  match firstLine.map trim, lastLine.map trim with
  | some first, some last =>
      if first = beginPatchMarker ∧ last = endPatchMarker then .ok ()
      else if first ≠ beginPatchMarker then
        .error (.invalidPatch "The first line of the patch must be '*** Begin Patch'")
      else .error (.invalidPatch "The last line of the patch must be '*** End Patch'")
  | some first, none =>
      if first ≠ beginPatchMarker then
        .error (.invalidPatch "The first line of the patch must be '*** Begin Patch'")
      else .error (.invalidPatch "The last line of the patch must be '*** End Patch'")
  | none, _ => .error (.invalidPatch "The last line of the patch must be '*** End Patch'")

def checkPatchBoundariesStrict (lines : List Text) : Except ParseError (List Text × List Text) := do
  checkStartAndEndLinesStrict lines.head? lines.getLast?
  return (lines, lines.tail.dropLast)

def isHeredocStart (first : Text) : Bool :=
  first == "<<EOF" || first == "<<'EOF'" || first == "<<\"EOF\""

def checkPatchBoundariesLenient (originalLines : List Text) : Except ParseError (List Text × List Text) :=
  match checkPatchBoundariesStrict originalLines with
  | .ok lines => .ok lines
  | .error originalParseError =>
      match originalLines.head?, originalLines.getLast? with
      | some first, some last =>
          if isHeredocStart first ∧ "EOF" <:+ last ∧ 4 ≤ originalLines.length then
            checkPatchBoundariesStrict originalLines.tail.dropLast
          else .error originalParseError
      | _, _ => .error originalParseError

def parseEnvironmentIdPreamble (hunkLines : List Text) : Except ParseError (Option Text × List Text × Nat) :=
  match hunkLines with
  | [] => .ok (none, [], 2)
  | firstLine :: rest =>
      match stripPrefix? environmentIdMarker firstLine.trimStart with
      | none => .ok (none, firstLine :: rest, 2)
      | some environmentId =>
          if environmentId.trim = [] then
            .error (.invalidPatch "apply_patch environment_id cannot be empty")
          else .ok (some environmentId.trim, rest, 3)

/-! ## The chunks of an update -/

def noLinesMessage : Text := "Update hunk does not contain any lines"

variable (lineNumber : Nat) (line : Text)

def unexpectedLineMessage : Text :=
  "Unexpected line found in update hunk: '" ++ line ++
    "'. Every line should start with ' ' (context line), '+' (added line), or '-' (removed line)"

def parseChunkLines (lineNumber : Nat) :
    List Text → Nat → UpdateFileChunk → Except ParseError (UpdateFileChunk × Nat)
  | [], parsed, chunk => .ok (chunk, parsed)
  | line :: rest, parsed, chunk =>
      if line = eofMarker then
        if parsed = 0 then .error (.invalidHunk noLinesMessage (lineNumber + 1))
        else .ok ({ chunk with isEndOfFile := true }, parsed + 1)
      else match line with
        | [] =>
            parseChunkLines lineNumber rest (parsed + 1)
              { chunk with oldLines := chunk.oldLines ++ [[]], newLines := chunk.newLines ++ [[]] }
        | ' ' :: cs =>
            parseChunkLines lineNumber rest (parsed + 1)
              { chunk with oldLines := chunk.oldLines ++ [cs], newLines := chunk.newLines ++ [cs] }
        | '+' :: cs =>
            parseChunkLines lineNumber rest (parsed + 1) { chunk with newLines := chunk.newLines ++ [cs] }
        | '-' :: cs =>
            parseChunkLines lineNumber rest (parsed + 1) { chunk with oldLines := chunk.oldLines ++ [cs] }
        | _ =>
            if parsed = 0 then .error (.invalidHunk (unexpectedLineMessage line) (lineNumber + 1))
            else .ok (chunk, parsed)

def emptyChunk (changeContext : Option Text) : UpdateFileChunk :=
  { changeContext, oldLines := [], newLines := [], isEndOfFile := false }

def parseChangeContext (lineNumber : Nat) (allowMissingContext : Bool) :
    Except ParseError (Option Text × Nat) :=
  if line = emptyChangeContextMarker then .ok (none, 1)
  else match stripPrefix? changeContextMarker line with
    | some context => .ok (some context, 1)
    | none =>
        if allowMissingContext then .ok (none, 0)
        else .error (.invalidHunk
          ("Expected update hunk to start with a @@ context marker, got: '" ++ line ++ "'") lineNumber)

def parseUpdateFileChunk (lines : List Text) (lineNumber : Nat) (allowMissingContext : Bool) :
    Except ParseError (UpdateFileChunk × Nat) :=
  match lines with
  | [] => .error (.invalidHunk noLinesMessage lineNumber)
  | line :: _ => do
      let (changeContext, startIndex) ← parseChangeContext line lineNumber allowMissingContext
      if lines.length ≤ startIndex then .error (.invalidHunk noLinesMessage (lineNumber + 1))
      else
        let (chunk, parsed) ← parseChunkLines lineNumber (lines.drop startIndex) 0 (emptyChunk changeContext)
        return (chunk, parsed + startIndex)

def parseChunks : (skip : Nat) → (lines : List Text) → (lineNumber : Nat) → (isFirst : Bool) →
    Except ParseError (List UpdateFileChunk × Nat)
  | _, [], _, _ => .ok ([], 0)
  | skip + 1, _ :: rest, lineNumber, isFirst => parseChunks skip rest lineNumber isFirst
  | 0, line :: rest, lineNumber, isFirst =>
      if line.trim = [] then do
        let (chunks, parsed) ← parseChunks 0 rest (lineNumber + 1) isFirst
        return (chunks, parsed + 1)
      else if line.head? = some '*' then .ok ([], 0)
      else do
        let (chunk, chunkLines) ← parseUpdateFileChunk (line :: rest) lineNumber isFirst
        let (chunks, parsed) ← parseChunks (chunkLines - 1) rest (lineNumber + chunkLines) false
        return (chunk :: chunks, parsed + chunkLines)

/-! ## Hunks -/

def emptyUpdateMessage (path : Text) : Text :=
  "Update file hunk for path '" ++ path ++ "' is empty"

def invalidHeaderMessage (firstLine : Text) : Text :=
  "'" ++ firstLine ++
    ("' is not a valid hunk header. Valid hunk headers: '*** Add File: \x7bpath\x7d', " ++
      "'*** Delete File: \x7bpath\x7d', '*** Update File: \x7bpath\x7d'").toList

/-- The destination that the line after the header of an update names, and the lines that follow. -/
def parseMovePath (rest : List Text) : Option Text × List Text :=
  match rest.head?.bind (stripPrefix? moveToMarker) with
  | some movePath => (some movePath, rest.tail)
  | none => (none, rest)

def parseOneHunk (rest : List Text) (lineNumber : Nat) : Except ParseError (Hunk × Nat) :=
  let firstLine := line.trim
  match stripPrefix? addFileMarker firstLine with
  | some path =>
      let added := rest.takeWhile fun l => l.head? == some '+'
      .ok (.addFile path (ofLines (added.map List.tail)), 1 + added.length)
  | none => match stripPrefix? deleteFileMarker firstLine with
    | some path => .ok (.deleteFile path, 1)
    | none => match stripPrefix? updateFileMarker firstLine with
      | some path => do
          let (movePath, body) := parseMovePath rest
          let headerLines := 1 + (rest.length - body.length)
          let (chunks, parsed) ← parseChunks 0 body (lineNumber + headerLines) true
          if chunks = [] then .error (.invalidHunk (emptyUpdateMessage path) lineNumber)
          else return (.updateFile path movePath chunks, headerLines + parsed)
      | none => .error (.invalidHunk (invalidHeaderMessage firstLine) lineNumber)

def parseHunks : (skip : Nat) → (lines : List Text) → (lineNumber : Nat) → Except ParseError (List Hunk)
  | _, [], _ => .ok []
  | skip + 1, _ :: rest, lineNumber => parseHunks skip rest lineNumber
  | 0, line :: rest, lineNumber => do
      let (hunk, hunkLines) ← parseOneHunk line rest lineNumber
      let hunks ← parseHunks (hunkLines - 1) rest (lineNumber + hunkLines)
      return hunk :: hunks

def parsePatch (patch : Text) : Except ParseError ApplyPatchArgs := do
  let (patchLines, hunkLines) ← checkPatchBoundariesLenient (lines patch.trim)
  let (environmentId, remainingLines, lineNumber) ← parseEnvironmentIdPreamble hunkLines
  let hunks ← parseHunks 0 remainingLines lineNumber
  return { patch := join ['\n'] patchLines, hunks, workdir := none, environmentId }

example : (parsePatch "*** Begin Patch\n*** Update File: a\n*** Move to: b\n@@\n-x\n+y\n*** Delete File: c\n*** End Patch\n").map
      (·.hunks) = .ok
    [.updateFile "a" (some "b")
      [{ changeContext := none, oldLines := ["x"], newLines := ["y"], isEndOfFile := false }],
     .deleteFile "c"] := by decide +kernel

/-! ## The streaming parser -/

inductive StreamingParserMode where
  | notStarted
  | startedPatch
  | addFile
  | deleteFile
  | updateFile (hunkLineNumber : Nat)
  | endedPatch
  deriving DecidableEq

structure StreamingParserState where
  mode : StreamingParserMode := .notStarted
  hunks : List Hunk := []

structure StreamingPatchParser where
  lineBuffer : Text := []
  state : StreamingParserState := {}
  lineNumber : Nat := 0

def isEnvironmentIdPreambleLine : Bool := environmentIdMarker <+: line

def UpdateFileChunk.isEmpty (chunk : UpdateFileChunk) : Bool := chunk.oldLines.isEmpty && chunk.newLines.isEmpty

def lastChunkIsEmpty (chunks : List UpdateFileChunk) : Bool := chunks.getLast?.any UpdateFileChunk.isEmpty

def ensureUpdateHunkIsNotEmpty (s : StreamingParserState) : Except ParseError Unit :=
  match s.hunks.getLast?, s.mode with
  | some (.updateFile path _ []), .updateFile hunkLineNumber =>
      .error (.invalidHunk (emptyUpdateMessage path) hunkLineNumber)
  | some (.updateFile _ _ chunks), _ =>
      if lastChunkIsEmpty chunks then
        if line = endPatchMarker then .error (.invalidHunk noLinesMessage lineNumber)
        else .error (.invalidHunk (unexpectedLineMessage line) lineNumber)
      else .ok ()
  | _, _ => .ok ()

def handleHunkHeadersAndEndPatch (trimmed : Text) (s : StreamingParserState) :
    Except ParseError (Option StreamingParserState) :=
  if trimmed = endPatchMarker then do
    ensureUpdateHunkIsNotEmpty lineNumber trimmed s
    return some { s with mode := .endedPatch }
  else match stripPrefix? addFileMarker trimmed with
    | some path => do
        ensureUpdateHunkIsNotEmpty lineNumber trimmed s
        return some { mode := .addFile, hunks := s.hunks ++ [.addFile path []] }
    | none => match stripPrefix? deleteFileMarker trimmed with
      | some path => do
          ensureUpdateHunkIsNotEmpty lineNumber trimmed s
          return some { mode := .deleteFile, hunks := s.hunks ++ [.deleteFile path] }
      | none => match stripPrefix? updateFileMarker trimmed with
        | some path => do
            ensureUpdateHunkIsNotEmpty lineNumber trimmed s
            return some { mode := .updateFile lineNumber, hunks := s.hunks ++ [.updateFile path none []] }
        | none => .ok none

/-- A line that neither ends the patch nor starts a hunk is left to `other`. -/
def handledOr (handled : Except ParseError (Option StreamingParserState))
    (other : Except ParseError StreamingParserState) : Except ParseError StreamingParserState :=
  match handled with
  | .error e => .error e
  | .ok (some s) => .ok s
  | .ok none => other

def pushLine (change : UpdateFileChunk → UpdateFileChunk) (chunks : List UpdateFileChunk) : List UpdateFileChunk :=
  (if chunks = [] then [emptyChunk none] else chunks).modifyLast change

def processUpdateLine (movePath : Option Text) (chunks : List UpdateFileChunk) :
    Except ParseError (Option Text × List UpdateFileChunk) :=
  let updateLine := line.trimEnd
  match if chunks = [] ∧ movePath = none then stripPrefix? moveToMarker updateLine else none with
  | some moveToPath => .ok (some moveToPath, chunks)
  | none =>
      if (updateLine = emptyChangeContextMarker ∨ changeContextMarker <+: updateLine) ∧ lastChunkIsEmpty chunks then
        .error (.invalidHunk (unexpectedLineMessage line) lineNumber)
      else if updateLine = emptyChangeContextMarker then .ok (movePath, chunks ++ [emptyChunk none])
      else match stripPrefix? changeContextMarker updateLine with
        | some changeContext => .ok (movePath, chunks ++ [emptyChunk (some changeContext)])
        | none =>
            if updateLine = eofMarker then
              if lastChunkIsEmpty chunks then .error (.invalidHunk noLinesMessage lineNumber)
              else .ok (movePath, chunks.modifyLast fun chunk => { chunk with isEndOfFile := true })
            else match line with
              | [] => .ok (movePath, pushLine (fun chunk =>
                  { chunk with oldLines := chunk.oldLines ++ [[]], newLines := chunk.newLines ++ [[]] }) chunks)
              | ' ' :: cs => .ok (movePath, pushLine (fun chunk =>
                  { chunk with oldLines := chunk.oldLines ++ [cs], newLines := chunk.newLines ++ [cs] }) chunks)
              | '+' :: cs => .ok (movePath, pushLine (fun chunk =>
                  { chunk with newLines := chunk.newLines ++ [cs] }) chunks)
              | '-' :: cs => .ok (movePath, pushLine (fun chunk =>
                  { chunk with oldLines := chunk.oldLines ++ [cs] }) chunks)
              | _ =>
                  if chunks.getLast?.any fun chunk => !chunk.isEmpty then
                    .error (.invalidHunk ("Expected update hunk to start with a @@ context marker, got: '" ++
                      line ++ "'") lineNumber)
                  else .error (.invalidHunk (unexpectedLineMessage line) lineNumber)

def processLine (s : StreamingParserState) : Except ParseError StreamingParserState :=
  let trimmed := line.trim
  match s.mode with
  | .notStarted =>
      if trimmed = beginPatchMarker then .ok { s with mode := .startedPatch }
      else .error (.invalidPatch "The first line of the patch must be '*** Begin Patch'")
  | .startedPatch =>
      if isEnvironmentIdPreambleLine line then .ok s
      else handledOr (handleHunkHeadersAndEndPatch lineNumber trimmed s)
        (.error (.invalidHunk (invalidHeaderMessage trimmed) lineNumber))
  | .addFile =>
      handledOr (handleHunkHeadersAndEndPatch lineNumber trimmed s)
        (match stripPrefix? ['+'] line, s.hunks.getLast? with
        | some lineToAdd, some (.addFile path contents) =>
            .ok { s with hunks := s.hunks.dropLast ++ [.addFile path (contents ++ lineToAdd ++ ['\n'])] }
        | _, _ => .error (.invalidHunk (invalidHeaderMessage trimmed) lineNumber))
  | .deleteFile =>
      handledOr (handleHunkHeadersAndEndPatch lineNumber trimmed s)
        (.error (.invalidHunk (invalidHeaderMessage trimmed) lineNumber))
  | .updateFile _ =>
      handledOr (handleHunkHeadersAndEndPatch lineNumber line.trimEnd s)
        (match s.hunks.getLast? with
        | some (.updateFile path movePath chunks) => do
            let (movePath, chunks) ← processUpdateLine lineNumber line movePath chunks
            return { s with hunks := s.hunks.dropLast ++ [.updateFile path movePath chunks] }
        | _ => .error (.invalidHunk (unexpectedLineMessage line) lineNumber))
  | .endedPatch => .ok s

/-! ## The text in pieces -/

namespace StreamingPatchParser

def takeLine (read : Nat → StreamingParserState → Except ParseError StreamingParserState) :
    Eff ParseError StreamingPatchParser Unit := fun p =>
  match read (p.lineNumber + 1) p.state with
  | .ok state => (.ok (), { lineBuffer := [], state, lineNumber := p.lineNumber + 1 })
  | .error e => (.error e, { p with lineBuffer := [], lineNumber := p.lineNumber + 1 })

def pushChar (ch : Char) : Eff ParseError StreamingPatchParser Unit := fun p =>
  if ch = '\n' then takeLine (fun lineNumber => processLine lineNumber p.lineBuffer.stripCr) p
  else (.ok (), { p with lineBuffer := p.lineBuffer ++ [ch] })

def pushDelta (delta : Text) : Eff ParseError StreamingPatchParser (List Hunk) := do
  let _ ← Eff.each pushChar delta
  return (← Eff.read).state.hunks

def finishLine (line : Text) (lineNumber : Nat) (s : StreamingParserState) : Except ParseError StreamingParserState :=
  if line.trim = endPatchMarker then do
    ensureUpdateHunkIsNotEmpty lineNumber line.trim s
    return { s with mode := .endedPatch }
  else processLine lineNumber line s

def finish : Eff ParseError StreamingPatchParser (List Hunk) := do
  let p ← Eff.read
  let _ ← if p.lineBuffer = [] then pure () else takeLine (finishLine p.lineBuffer)
  let p ← Eff.read
  if p.state.mode = .endedPatch then return p.state.hunks
  else Eff.fail (.invalidPatch "The last line of the patch must be '*** End Patch'")

end StreamingPatchParser

def streamPatch (deltas : List Text) : Except ParseError (List Hunk) :=
  ((do
    let _ ← Eff.each StreamingPatchParser.pushDelta deltas
    StreamingPatchParser.finish : Eff ParseError StreamingPatchParser (List Hunk)) {}).1

end CodexStudy.ApplyPatch
