import CodexStudy.ApplyPatch.FileSystem
import CodexStudy.ChatAgent.Protocol
import CodexStudy.Lib.ByteOffsets
import CodexStudy.Lib.Json

/-!
# Tools for files (`executor/file_tools.rs`, `executor/edit_replace.rs`)

A file is read by a window of its lines, and changed where a text stands in it.
-/

namespace CodexStudy.ChatAgent.Executor

open CodexStudy.Lib
open CodexStudy.Lib.Text (join lines matchIndices replacen trim)

/-! ## Observations -/

structure Artifact where
  kind : Text
  content : Text
  metadata : Option Json

structure Observation where
  actionType : Text
  ok : Bool
  summary : Text
  details : Option Json := none
  artifacts : List Artifact := []

namespace Observation

def success (actionType summary : Text) : Observation := { actionType, ok := true, summary }

def failure (actionType summary : Text) : Observation := { actionType, ok := false, summary }

def withDetails (observation : Observation) (details : Json) : Observation :=
  { observation with details := some details }

def withArtifacts (observation : Observation) (artifacts : List Artifact) : Observation :=
  { observation with artifacts := artifacts }

end Observation

/-! ## Lines by their indices -/

def slice {α : Type} (xs : List α) (start stop : Nat) : Option (List α) :=
  if start ≤ stop ∧ stop ≤ xs.length then some ((xs.take stop).drop start) else none

def alignRight (width : Nat) (s : Text) : Text := List.replicate (width - s.length) ' ' ++ s

/-! ## Replacing a text that stands at one place -/

def NO_MATCH_PREVIEW_LINES : Nat := 20

inductive ReplaceOutcome where
  | applied (newContent : Text)
  | noMatch (message : Text)
  | multipleMatches (message : Text)
  deriving DecidableEq

def charIndicesFrom : (pos : Nat) → Text → List (Nat × Char)
  | _, [] => []
  | pos, c :: s => (pos, c) :: charIndicesFrom (pos + c.utf8Size) s

def countLinesBefore (content : Text) (bytePos : Nat) : Nat :=
  ((charIndicesFrom 0 content).takeWhile fun (index, _) => index < bytePos).countP
    (fun (_, character) => character = '\n') + 1

def getLineContext (content : Text) (targetLine context : Nat) : Option Text :=
  let lines := lines content
  let start := targetLine - (context + 1)
  let stop := min (targetLine + context) lines.length
  (slice lines start stop).map (join ['\n'])

/-- The inner value is the hint, if there is one. -/
def findSimilarContext (content search : Text) : Option (Option Text) :=
  match (lines search).head?.map trim with
  | none => some none
  | some firstLine =>
      if firstLine = [] then some none
      else
        match (lines content).findIdx? fun line => firstLine <:+: line ∨ trim line <:+: firstLine with
        | some index => (getLineContext content (index + 1) 2).map some
        | none => some none

def previewLine (entry : Text × Nat) : Text :=
  alignRight 4 (natText (entry.2 + 1)) ++ ": " ++ entry.1

def buildFilePreview (content : Text) (maxLines : Nat) : Option Text :=
  if content = [] then some "(file is empty)"
  else do
    let lines := lines content
    let previewEnd := min lines.length maxLines
    let shown ← slice lines 0 previewEnd
    let preview := join ['\n'] (shown.zipIdx.map previewLine)
    if lines.length > previewEnd then
      some (preview ++ "\n... (" ++ natText (lines.length - previewEnd) ++ " more lines)")
    else some preview

def buildNoMatchMessage (content search : Text) : Option Text := do
  let hint ← findSimilarContext content search
  let preview ← buildFilePreview content NO_MATCH_PREVIEW_LINES
  let similar := match hint with
    | some hint => "\n\nDid you mean:\n```\n" ++ hint ++ "\n```"
    | none => []
  some ("old_str did not match any content" ++ similar ++ "\n\nFile preview:\n```\n" ++ preview ++
    "\n```")

def matchText (content : Text) (entry : (Nat × Text) × Nat) : Option Text :=
  let ((pos, _), index) := entry
  let lineNum := countLinesBefore content pos
  (getLineContext content lineNum 1).map fun context =>
    "\n\nMatch " ++ natText (index + 1) ++ " (line " ++ natText lineNum ++ "):\n```\n" ++ context ++
      "\n```"

def buildMultipleMatchMessage (content : Text) (count : Nat) (found : List (Nat × Text)) : Option Text := do
  let texts ← (found.take 2).zipIdx.mapM (matchText content)
  let more := if count > 2 then "\n\n...and " ++ natText (count - 2) ++ " more" else []
  some ("old_str matched " ++ natText count ++ " locations; must be unique" ++ texts.flatten ++ more)

def stringReplace (content oldStr newStr : Text) : Option ReplaceOutcome :=
  if oldStr = [] then some (.noMatch "old_str must not be empty")
  else
    let found := matchIndices content oldStr
    match found.length with
    | 0 => (buildNoMatchMessage content oldStr).map .noMatch
    | 1 => some (.applied (replacen content oldStr newStr 1))
    | count => (buildMultipleMatchMessage content count found).map .multipleMatches

/-! ## The workspace -/

structure Files (W : Type) where
  canonicalize : Text → W → Except Text Text
  readToString : Text → W → Except Text Text
  write : Text → Text → W → Except Text Unit × W

variable {W : Type}

def trimStartDots : Text → Text
  | '.' :: '/' :: rest => trimStartDots rest
  | path => path

def pathJoin (base path : Text) : Text := if path.head? = some '/' then path else ApplyPatch.joinPath base path

/-- What a path is made of; a root, or the directory itself at the front of a relative path, is a part as well. -/
def pathComponents (path : Text) : List Text :=
  (if path.head? = some '/' then [['/']] else if (path.splitOn '/').head? = some ['.'] then [['.']] else []) ++
    (path.splitOn '/').filter fun name => name ≠ [] ∧ name ≠ ['.']

def resolveWorkspacePath (files : Files W) (workspaceRoot relativePath : Text) (w : W) : Except ChatAgentError Text :=
  let trimmed := trimStartDots (trim relativePath)
  let candidate := pathJoin workspaceRoot trimmed
  let canonicalRoot := match files.canonicalize workspaceRoot w with
    | .ok path => path
    | .error _ => workspaceRoot
  match files.canonicalize candidate w with
  | .error error => .error (.tool ("path not found: " ++ error))
  | .ok canonical =>
      if pathComponents canonicalRoot <+: pathComponents canonical then .ok canonical
      else .error (.tool "path escapes workspace root")

def numberedLine (start : Nat) (entry : Text × Nat) : Text :=
  alignRight 6 (natText (start + entry.2)) ++ "| " ++ entry.1

def readFile (files : Files W) (workspaceRoot path : Text) (lineStart lineEnd : Option Nat) (w : W) :
    Option (Except ChatAgentError Observation) :=
  match resolveWorkspacePath files workspaceRoot path w with
  | .error error => some (.error error)
  | .ok filePath =>
      match files.readToString filePath w with
      | .error error => some (.error (.tool ("read failed: " ++ error)))
      | .ok content => do
          let lines := lines content
          let start := max (lineStart.getD 1) 1
          let stop := min (lineEnd.getD lines.length) lines.length
          let shown ←
            if lines = [] then some []
            else (slice lines (start - 1) stop).map fun window =>
              join ['\n'] (window.zipIdx.map (numberedLine start))
          let summary := "Read " ++ path ++ " (" ++ natText start ++ ['-'] ++ natText stop ++ [')']
          some (.ok (((Observation.success "read_file" summary).withDetails
            (.obj [("path", .string path), ("lineStart", .int start), ("lineEnd", .int stop)])).withArtifacts
              [{ kind := "file_content", content := shown, metadata := some (.obj [("path", .string path)]) }]))

def editFile (files : Files W) (workspaceRoot path oldStr newStr : Text) (w : W) :
    Option (Except ChatAgentError Observation × W) :=
  match resolveWorkspacePath files workspaceRoot path w with
  | .error error => some (.error error, w)
  | .ok filePath =>
      match files.readToString filePath w with
      | .error error => some (.error (.tool ("read failed: " ++ error)), w)
      | .ok content => do
          let outcome ← stringReplace content oldStr newStr
          match outcome with
          | .applied newContent =>
              match files.write filePath newContent w with
              | (.error error, w) => some (.error (.tool ("write failed: " ++ error)), w)
              | (.ok (), w) => some (.ok (.success "edit_file" ("Updated " ++ path)), w)
          | .noMatch message | .multipleMatches message =>
              some (.ok ((Observation.failure "edit_file" message).withDetails
                (.obj [("path", .string path)])), w)

end CodexStudy.ChatAgent.Executor
