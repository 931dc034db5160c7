import CodexStudy.Lib.Ascii

/-!
# Saved prompts (`prompts_core.rs`)

A prompt with a description or a hint has them in quotes between two lines of dashes in front of its body.
-/

namespace CodexStudy.Desktop

open CodexStudy.Lib CodexStudy.Lib.Text List Text

/-! ## Reading -/

/-- What has been read between the two lines of dashes, and how much of the text. -/
structure Frontmatter where
  description : Option Text := none
  argumentHint : Option Text := none
  closed : Bool := false
  consumed : Nat

namespace Frontmatter

def unquoted (val : Text) : Text :=
  if 2 ≤ val.length ∧ (val.head? = some '"' ∧ val.getLast? = some '"' ∨ val.head? = some '\'' ∧ val.getLast? = some '\'') then
    val.tail.dropLast
  else val

def readEntry (front : Frontmatter) (trimmed : Text) : Frontmatter :=
  match splitOnce? ":" trimmed with
  | none => front
  | some (key, value) =>
      let val := unquoted value.trim
      let key := toAsciiLowercase key.trim
      if key = "description".toList then { front with description := some val }
      else if key = "argument-hint".toList ∨ key = "argument_hint".toList then { front with argumentHint := some val }
      else front

def readSegments (front : Frontmatter) : List Text → Frontmatter
  | [] => front
  | segment :: segments =>
      let line := segment.rdropWhile fun c => c = '\r' ∨ c = '\n'
      let trimmed := trim line
      let consumed := front.consumed + segment.length
      if trimmed = "---".toList then { front with closed := true, consumed }
      else if trimmed = [] ∨ trimmed.head? = some '#' then readSegments { front with consumed } segments
      else readSegments { readEntry front trimmed with consumed } segments

end Frontmatter

def parseFrontmatter (content : Text) : Option Text × Option Text × Text :=
  match splitInclusive content with
  | [] => (none, none, [])
  | firstSegment :: segments =>
      let firstLine := firstSegment.rdropWhile fun c => c = '\r' ∨ c = '\n'
      if trim firstLine ≠ "---".toList then (none, none, content)
      else
        let front := Frontmatter.readSegments { consumed := firstSegment.length } segments
        if front.closed then (front.description, front.argumentHint, content.drop front.consumed) else (none, none, content)

/-! ## Writing -/

def escapeQuotes (text : Text) : Text := text.flatMap fun c => if c = '"' then ['\\', '"'] else [c]

/-- The trimmed value, if it is not blank. -/
def shown (value : Option Text) : Option Text := (value.map trim).filter (· ≠ [])

def entry (key : Text) (value : Option Text) : Text :=
  match shown value with
  | some trimmed => key ++ ": \"" ++ escapeQuotes trimmed ++ "\"\n"
  | none => []

def buildPromptContents (description argumentHint : Option Text) (content : Text) : Text :=
  if shown description = none ∧ shown argumentHint = none then content
  else "---\n" ++ entry "description" description ++ entry "argument-hint" argumentHint ++ "---\n" ++ content

end CodexStudy.Desktop
