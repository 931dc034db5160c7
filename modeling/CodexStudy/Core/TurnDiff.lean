import CodexStudy.ApplyPatch.Apply
import Mathlib.Data.List.Destutter
import Mathlib.Data.Char
import Mathlib.Data.List.Lex

/-!
# The net diff of a turn

The tracker collects the changes that the patches of one turn have made, without reading the files again, and renders
the net difference for each path.
-/

namespace CodexStudy.Core

open CodexStudy.Lib CodexStudy.ApplyPatch

abbrev Contents := Finmap fun _ : AbsolutePath => Text

structure TurnDiffTracker where
  valid : Bool := true
  displayRoot : Option AbsolutePath := none
  baselineByPath : Contents := ∅
  currentByPath : Contents := ∅
  originByCurrentPath : Finmap fun _ : AbsolutePath => AbsolutePath := ∅

/-- What of a diff is computed elsewhere: the hash of a blob and the hunks between two texts. -/
structure DiffFormat where
  sha1Hex : Text → Text
  unifiedDiff : (old new oldHeader newHeader : Text) → Text

structure DiffSection where
  left : AbsolutePath
  right : AbsolutePath
  diff : Text

namespace TurnDiffTracker

def withDisplayRoot (displayRoot : AbsolutePath) : TurnDiffTracker := { displayRoot := some displayRoot }

variable (t : TurnDiffTracker)

def invalidate : TurnDiffTracker := { t with valid := false }

/-! ## Tracking changes -/

def knows (path : AbsolutePath) : Bool :=
  decide (path ∈ t.currentByPath) || decide (path ∈ t.baselineByPath)

def noteBaseline (path : AbsolutePath) (content : Option Text) : TurnDiffTracker :=
  match content with
  | some content =>
      if t.knows path then t else { t with baselineByPath := t.baselineByPath.insert path content }
  | none => t

def applyAdd (path : AbsolutePath) (content : Text) (overwrittenContent : Option Text) :
    TurnDiffTracker :=
  let t := { t with originByCurrentPath := t.originByCurrentPath.erase path }
  let t := t.noteBaseline path overwrittenContent
  { t with currentByPath := t.currentByPath.insert path content }

def applyDelete (path : AbsolutePath) (content : Text) : TurnDiffTracker :=
  let t := t.noteBaseline path (some content)
  { t with
    currentByPath := t.currentByPath.erase path
    originByCurrentPath := t.originByCurrentPath.erase path }

def applyUpdate (sourcePath : AbsolutePath) (movePath : Option AbsolutePath) (oldContent : Text)
    (overwrittenMoveContent : Option Text) (newContent : Text) : TurnDiffTracker :=
  let t := t.noteBaseline sourcePath (some oldContent)
  match movePath with
  | some destPath =>
      let t := t.noteBaseline destPath overwrittenMoveContent
      let origin := (t.originByCurrentPath.lookup sourcePath).getD sourcePath
      let origins := (t.originByCurrentPath.erase sourcePath).erase destPath
      { t with
        currentByPath := (t.currentByPath.erase sourcePath).insert destPath newContent
        originByCurrentPath := if destPath = origin then origins else origins.insert destPath origin }
  | none => { t with currentByPath := t.currentByPath.insert sourcePath newContent }

def applyChange (change : AppliedPatchChange) : TurnDiffTracker :=
  match change.change with
  | .add content overwrittenContent => t.applyAdd change.path content overwrittenContent
  | .delete content => t.applyDelete change.path content
  | .update movePath oldContent overwrittenMoveContent newContent =>
      t.applyUpdate change.path movePath oldContent overwrittenMoveContent newContent

def trackDelta (delta : AppliedPatchDelta) : TurnDiffTracker :=
  if delta.exact then delta.changes.foldl applyChange t else t.invalidate

/-! ## Rendering -/

def displayPath (path : AbsolutePath) : Text :=
  let display := match t.displayRoot.bind fun root =>
      if root.names <+: path.names then some (path.names.drop root.names.length) else none with
    | some names => Text.join ['/'] names
    | none => path.display
  display.map fun c => if c = '\\' then '/' else c

def zeroOid : Text := List.replicate 40 '0'
def devNull : Text := "/dev/null"
def regularFileMode : Text := "100644"

def gitBlobOid (format : DiffFormat) (data : Text) : Text :=
  format.sha1Hex ("blob " ++ Nat.toDigits 10 (utf8Length data) ++ [Char.ofNat 0] ++ data)

def renderDiff (format : DiffFormat) (leftPath : AbsolutePath) (leftContent : Option Text)
    (rightPath : AbsolutePath) (rightContent : Option Text) : Option Text :=
  if leftContent = rightContent then none
  else
    let leftDisplay := t.displayPath leftPath
    let rightDisplay := t.displayPath rightPath
    let leftOid := leftContent.elim zeroOid (gitBlobOid format)
    let rightOid := rightContent.elim zeroOid (gitBlobOid format)
    let mode := match leftContent, rightContent with
      | none, some _ => "new file mode " ++ regularFileMode ++ ['\n']
      | some _, none => "deleted file mode " ++ regularFileMode ++ ['\n']
      | _, _ => []
    let oldHeader := if leftContent.isSome then "a/" ++ leftDisplay else devNull
    let newHeader := if rightContent.isSome then "b/" ++ rightDisplay else devNull
    some ("diff --git a/" ++ leftDisplay ++ " b/" ++ rightDisplay ++ ['\n'] ++ mode ++
      "index " ++ leftOid ++ ".." ++ rightOid ++ ['\n'] ++
      format.unifiedDiff (leftContent.getD []) (rightContent.getD []) oldHeader newHeader)

structure WalkOrder where
  baseline : List AbsolutePath
  current : List AbsolutePath
  origins : List (AbsolutePath × AbsolutePath)
  baseline_nodup : baseline.Nodup
  current_nodup : current.Nodup
  mem_baseline : ∀ p, p ∈ baseline ↔ p ∈ t.baselineByPath
  mem_current : ∀ p, p ∈ current ↔ p ∈ t.currentByPath
  mem_origins : ∀ d o, (d, o) ∈ origins ↔ t.originByCurrentPath.lookup d = some o

def isRename (dest origin : AbsolutePath) : Bool :=
  decide (dest ≠ origin) && !decide (origin ∈ t.currentByPath) && decide (dest ∈ t.currentByPath) &&
    decide (origin ∈ t.baselineByPath) && !decide (dest ∈ t.baselineByPath)

def renamePairs (order : WalkOrder t) : Finmap fun _ : AbsolutePath => AbsolutePath :=
  order.origins.foldl (fun pairs e => if t.isRename e.1 e.2 then pairs.insert e.2 e.1 else pairs) ∅

def renderPathDiff (format : DiffFormat) (path : AbsolutePath) : Option DiffSection :=
  (t.renderDiff format path (t.baselineByPath.lookup path) path (t.currentByPath.lookup path)).map (⟨path, path, ·⟩)

def renderRenameDiff (format : DiffFormat) (sourcePath destPath : AbsolutePath) : Option DiffSection :=
  (t.renderDiff format sourcePath (t.baselineByPath.lookup sourcePath) destPath
    (t.currentByPath.lookup destPath)).map (⟨sourcePath, destPath, ·⟩)

def renderPaths (format : DiffFormat) (pairs : Finmap fun _ : AbsolutePath => AbsolutePath)
    (pairedDestinations : List AbsolutePath) : List AbsolutePath → (handled : List AbsolutePath) → List DiffSection
  | [], _ => []
  | path :: paths, handled =>
      if path ∈ handled then renderPaths format pairs pairedDestinations paths handled
      else if path ∈ pairedDestinations then renderPaths format pairs pairedDestinations paths (path :: handled)
      else match pairs.lookup path with
        | some dest =>
            (t.renderRenameDiff format path dest).toList ++
              renderPaths format pairs pairedDestinations paths (dest :: path :: handled)
        | none =>
            (t.renderPathDiff format path).toList ++
              renderPaths format pairs pairedDestinations paths (path :: handled)

variable {t}

def WalkOrder.paths (order : WalkOrder t) : List AbsolutePath :=
  ((order.baseline ++ order.current).insertionSort fun p q => t.displayPath p ≤ t.displayPath q).destutter (· ≠ ·)

def WalkOrder.pairedDestinations (order : WalkOrder t) : List AbsolutePath :=
  order.origins.filterMap fun e => if (t.renamePairs order).lookup e.2 = some e.1 then some e.1 else none

variable (t)

def sections (format : DiffFormat) (order : WalkOrder t) : List DiffSection :=
  t.renderPaths format (t.renamePairs order) order.pairedDestinations order.paths []

def pushSection (aggregated : Text) (s : DiffSection) : Text :=
  let aggregated := aggregated ++ s.diff
  if aggregated.getLast? = some '\n' then aggregated else aggregated ++ ['\n']

def getUnifiedDiff (format : DiffFormat) (order : WalkOrder t) : Option Text :=
  if t.valid then
    let aggregated := (t.sections format order).foldl pushSection []
    if aggregated = [] then none else some aggregated
  else none

end TurnDiffTracker

end CodexStudy.Core
