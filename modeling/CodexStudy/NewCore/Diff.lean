import CodexStudy.Lib.Text

/-!
# Unified diffs (`diff.rs`)

The parser of the diff that `git` prints, with all that it keeps of a hunk, and the diff itself as `git` prints it.
-/

namespace CodexStudy.NewCore

open CodexStudy.Lib Text Option

/-! ## Parsing -/

def beforeFirst (pat : Text) : Text → Text
  | [] => []
  | c :: s => if pat <+: c :: s then [] else c :: beforeFirst pat s

def parseDiffGitPath (line : Text) : Option Text := do
  let rest ← stripPrefix? "diff --git " line
  match rest.splitWhitespace with
  | a :: b :: _ => do
      let aPath ← stripPrefix? "a/" a
      let bPath ← stripPrefix? "b/" b
      return if aPath = "/dev/null" then bPath else aPath
  | _ => none

def parseRange (value : Text) : Option (Nat × Nat) := do
  let start ← parseUnsigned 64 (value.takeWhile (· ≠ ','))
  let count ← if value.contains ',' then parseUnsigned 64 ((value.dropWhile (· ≠ ',')).drop 1) else some 1
  return (start, count)

namespace Diff

structure ParsedHunk where
  header : Text
  oldStart : Nat
  oldLines : Nat
  newStart : Nat
  newLines : Nat
  preview : List Text
  removals : List Text
  additions : List Text

structure ParsedFileDiff where
  isBinary : Bool
  hunks : List ParsedHunk

def parseHunkHeader (line : Text) : Option ParsedHunk := do
  let rest ← stripPrefix? "@@ " line
  match (beforeFirst " @@" rest).splitWhitespace with
  | old :: new :: _ => do
      let (oldStart, oldLines) ← parseRange (← stripPrefix? ['-'] old)
      let (newStart, newLines) ← parseRange (← stripPrefix? ['+'] new)
      return { header := line, oldStart, oldLines, newStart, newLines, preview := [line], removals := [], additions := [] }
  | _ => none

/-- Read a line of the hunk. A line with nothing behind its mark is passed over. -/
def ParsedHunk.take (hunk : ParsedHunk) (line : Text) : ParsedHunk :=
  match line with
  | '-' :: c :: rest =>
      { hunk with removals := hunk.removals ++ [c :: rest], preview := hunk.preview ++ ['-' :: line] }
  | '+' :: c :: rest =>
      { hunk with additions := hunk.additions ++ [c :: rest], preview := hunk.preview ++ ['+' :: line] }
  | ' ' :: _ :: _ => { hunk with preview := hunk.preview ++ [' ' :: line] }
  | _ => hunk

section

variable (hunk : ParsedHunk) (c : Char) (rest : Text)

theorem ParsedHunk.take_removed : hunk.take ('-' :: c :: rest) =
    { hunk with removals := hunk.removals ++ [c :: rest], preview := hunk.preview ++ ['-' :: '-' :: c :: rest] } := rfl

theorem ParsedHunk.take_added : hunk.take ('+' :: c :: rest) =
    { hunk with additions := hunk.additions ++ [c :: rest], preview := hunk.preview ++ ['+' :: '+' :: c :: rest] } := rfl

theorem ParsedHunk.take_context : hunk.take (' ' :: c :: rest) =
    { hunk with preview := hunk.preview ++ [' ' :: ' ' :: c :: rest] } := rfl

theorem ParsedHunk.take_mark : hunk.take [c] = hunk := by
  unfold take
  split
  · rename_i h
    cases h
  · rename_i h
    cases h
  · rename_i h
    cases h
  · rfl

end

structure Parser where
  files : List (Text × ParsedFileDiff)
  currentPath : Option Text
  current : ParsedFileDiff
  currentHunk : Option ParsedHunk

def Parser.start : Parser := ⟨[], none, ⟨false, []⟩, none⟩

def Parser.file (st : Parser) : ParsedFileDiff :=
  { st.current with hunks := st.current.hunks ++ st.currentHunk.toList }

def Parser.flush (st : Parser) : List (Text × ParsedFileDiff) :=
  match st.currentPath, st.currentHunk with
  | some path, some _ => (path, st.file) :: st.files
  | _, _ => st.files

def Parser.line (st : Parser) (line : Text) : Parser :=
  if "diff --git " <+: line then
    { files := st.flush, currentPath := parseDiffGitPath line, current := ⟨false, []⟩, currentHunk := none }
  else if "Binary files " <+: line then
    { st with current := { st.current with isBinary := true } }
  else if "@@ " <+: line then
    { st with current := st.file, currentHunk := parseHunkHeader line }
  else { st with currentHunk := st.currentHunk.map fun hunk => hunk.take line }

def Parser.finish (st : Parser) : List (Text × ParsedFileDiff) :=
  match st.currentPath with
  | some path => (path, st.file) :: st.files
  | none => st.files

def parseUnifiedDiff (diff : Text) : List (Text × ParsedFileDiff) :=
  if diff.trim = [] then [] else (diff.lines.foldl Parser.line .start).finish

end Diff

end CodexStudy.NewCore
