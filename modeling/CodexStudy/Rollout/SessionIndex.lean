import CodexStudy.Lib.HashMap
import CodexStudy.StreamParser.Utf8Stream
import Mathlib.Data.Finset.Basic

/-!
# The index of sessions (`rollout/src/session_index.rs`)

Names are appended to the index, and the last one that it has for a thread counts.
-/

namespace CodexStudy.Rollout

open CodexStudy.Lib CodexStudy.Lib.Text List
open CodexStudy.StreamParser (Utf8Error fromUtf8)

def READ_CHUNK_SIZE : Nat := 8192

/-- A thread is known by the text of its UUID. -/
abbrev ThreadId := Text

structure SessionIndexEntry where
  id : ThreadId
  threadName : Text
  updatedAt : Text
  deriving DecidableEq

section

variable {σ : Type} (fromStr : Text → Option SessionIndexEntry)

/-! ## From the end -/

section

variable (visitEntry : σ → SessionIndexEntry → Option SessionIndexEntry × σ)

def parseLineFromRev (lineRev : List UInt8) (s : σ) : Option SessionIndexEntry × σ :=
  if lineRev = [] then (none, s)
  else
    match fromUtf8 lineRev.reverse with
    | .error _ => (none, s)
    | .ok line =>
        let trimmed := (stripCr line).trim
        if trimmed = [] then (none, s)
        else
          match fromStr trimmed with
          | none => (none, s)
          | some entry => visitEntry s entry

/-- Bytes in the order in which they are met, and those of the line that has not begun yet. -/
def scanBytes : (bytes lineRev : List UInt8) → σ → Option SessionIndexEntry × List UInt8 × σ
  | [], lineRev, s => (none, lineRev, s)
  | byte :: bytes, lineRev, s =>
      if byte = '\n'.toUInt8 then
        match parseLineFromRev fromStr visitEntry lineRev s with
        | (some entry, s) => (some entry, [], s)
        | (none, s) => scanBytes bytes [] s
      else scanBytes bytes (lineRev ++ [byte]) s

def scanChunks (file : List UInt8) (remaining : Nat) (lineRev : List UInt8) (s : σ) : Option SessionIndexEntry × σ :=
  if remaining = 0 then parseLineFromRev fromStr visitEntry lineRev s
  else
    let readSize := min remaining READ_CHUNK_SIZE
    let buf := (file.drop (remaining - readSize)).take readSize
    match scanBytes fromStr visitEntry buf.reverse lineRev s with
    | (some entry, _, s) => (some entry, s)
    | (none, lineRev, s) => scanChunks file (remaining - readSize) lineRev s
  termination_by remaining
  decreasing_by
    simp only [READ_CHUNK_SIZE]
    omega

def scanIndexFromEndForEach (file : List UInt8) (s : σ) : Option SessionIndexEntry × σ :=
  scanChunks fromStr visitEntry file file.length [] s

end

def scanIndexFromEnd (file : List UInt8) (predicate : SessionIndexEntry → Bool) : Option SessionIndexEntry :=
  (scanIndexFromEndForEach fromStr (fun _ entry => (if predicate entry then some entry else none, ())) file ()).1

def scanIndexFromEndById (file : List UInt8) (threadId : ThreadId) : Option SessionIndexEntry :=
  scanIndexFromEnd fromStr file fun entry => entry.id == threadId

/-- There is no file before the first name. -/
def findThreadNameById (file : Option (List UInt8)) (threadId : ThreadId) : Option Text :=
  file.bind fun file => (scanIndexFromEndById fromStr file threadId).map (·.threadName)

structure Streamed where
  seen : Finset ThreadId
  sent : List ThreadId

/-- The receiver may be gone after some thread ids. -/
def visitByName (name : Text) (isClosed : List ThreadId → Bool) (streamed : Streamed) (entry : SessionIndexEntry) :
    Option SessionIndexEntry × Streamed :=
  if entry.id ∈ streamed.seen then (none, streamed)
  else
    let streamed := { streamed with seen := insert entry.id streamed.seen }
    if entry.threadName = name then
      if isClosed streamed.sent then (some entry, streamed)
      else (none, { streamed with sent := streamed.sent ++ [entry.id] })
    else (none, streamed)

/-- The thread ids that are sent. -/
def streamThreadIdsFromEndByName (file : List UInt8) (name : Text) (isClosed : List ThreadId → Bool) : List ThreadId :=
  (scanIndexFromEndForEach fromStr (visitByName name isClosed) file ⟨∅, []⟩).2.sent

/-! ## From the beginning -/

def insertName (threadIds : Finset ThreadId) (names : HashMap ThreadId Text) (line : Text) : HashMap ThreadId Text :=
  if line.trim = [] then names
  else
    match fromStr line.trim with
    | none => names
    | some entry =>
        let name := entry.threadName.trim
        if name ≠ [] ∧ entry.id ∈ threadIds then names.insert entry.id name else names

def findThreadNamesByIds (file : Option (List UInt8)) (threadIds : Finset ThreadId) :
    Except Utf8Error (HashMap ThreadId Text) :=
  match file with
  | none => .ok ∅
  | some file =>
      if threadIds = ∅ then .ok ∅
      else (fromUtf8 file).map fun text => (lines text).foldl (insertName fromStr threadIds) ∅

/-! ## Appending -/

def appendSessionIndexEntry (toText : SessionIndexEntry → Text) (file : Option (List UInt8)) (entry : SessionIndexEntry) :
    Option (List UInt8) :=
  some (file.getD [] ++ utf8 (toText entry ++ ['\n']))

end

end CodexStudy.Rollout
