import CodexStudy.Lib.Ascii
import CodexStudy.Lib.ByteOffsets

/-!
# Streaming an answer to the scrollback (`markdown_stream.rs`, `streaming/mod.rs`, `streaming/controller.rs`)

The complete lines of an answer are rendered again with each of them.
-/

namespace CodexStudy.Tui

open CodexStudy.Lib Text

/-! ## Table lines (`table_detect.rs`, `streaming/table_holdback.rs`) -/

def stripFirst (c : Char) (s : Text) : Text := (stripPrefix? [c] s).getD s

def stripLast (c : Char) (s : Text) : Text := if s.getLast? = some c then s.dropLast else s

def splitUnescapedPipeFrom (segment : Text) : Text → List Text
  | [] => [segment]
  | '\\' :: c :: content => splitUnescapedPipeFrom (segment ++ ['\\', c]) content
  | '|' :: content => segment :: splitUnescapedPipeFrom [] content
  | c :: content => splitUnescapedPipeFrom (segment ++ [c]) content

def splitUnescapedPipe (content : Text) : List Text := splitUnescapedPipeFrom [] content

variable (line : Text)

def parseTableSegments : Option (List Text) :=
  let trimmed := trim line
  if trimmed = [] then none
  else
    let hasOuterPipe := decide (trimmed.head? = some '|' ∨ trimmed.getLast? = some '|')
    let rawSegments := splitUnescapedPipe (stripLast '|' (stripFirst '|' trimmed))
    if !hasOuterPipe && decide (rawSegments.length ≤ 1) then none
    else
      let segments := rawSegments.map trim
      if segments = [] then none else some segments

def isTableHeaderLine : Bool := (parseTableSegments line).any fun segments => segments.any (· ≠ [])

def isTableDelimiterSegment (segment : Text) : Bool :=
  let trimmed := trim segment
  if trimmed = [] then false
  else
    let withoutEnds := stripLast ':' (stripFirst ':' trimmed)
    decide (3 ≤ byteLen withoutEnds) && withoutEnds.all (· == '-')

def isTableDelimiterLine : Bool :=
  (parseTableSegments line).any fun segments => segments.all isTableDelimiterSegment

/-! ## Fenced code -/

inductive FenceKind where
  | outside
  | markdown
  | other
  deriving DecidableEq

structure FenceTracker where
  state : Option (Char × Nat × FenceKind) := none

/-- Every `>` in front, with the white space around it. -/
def stripBlockquotePrefix : Text := line.dropWhile fun c => isWhitespace c || c == '>'

def parseFenceMarker : Option (Char × Nat) :=
  match line with
  | [] => none
  | first :: _ =>
      if first ≠ '\x60' ∧ first ≠ '~' then none
      else
        let len := (line.takeWhile (· == first)).length
        if len < 3 then none else some (first, len)

def isMarkdownFenceInfo (trimmedLine : Text) (markerLen : Nat) : Bool :=
  let info := (splitWhitespace (trimmedLine.drop markerLen)).head?.getD []
  toAsciiLowercase info == "md" || toAsciiLowercase info == "markdown"

namespace FenceTracker

def kind (tracker : FenceTracker) : FenceKind := tracker.state.elim .outside fun fence => fence.2.2

def advance (tracker : FenceTracker) (rawLine : Text) : FenceTracker :=
  let leadingSpaces := (rawLine.takeWhile (· == ' ')).length
  if 3 < leadingSpaces then tracker
  else
    let fenceScanText := stripBlockquotePrefix (rawLine.drop leadingSpaces)
    match parseFenceMarker fenceScanText with
    | none => tracker
    | some (marker, len) =>
        match tracker.state with
        | some (openChar, openLen, _) =>
            if marker = openChar ∧ openLen ≤ len ∧ trim (fenceScanText.drop len) = [] then ⟨none⟩ else tracker
        | none => ⟨some (marker, len, if isMarkdownFenceInfo fenceScanText len then .markdown else .other)⟩

end FenceTracker

/-! ## The scanner -/

inductive TableHoldbackState where
  | none
  | pendingHeader (headerStart : Nat)
  | confirmed (tableStart : Nat)

structure PreviousLineState where
  sourceStart : Nat
  fenceKind : FenceKind
  isHeader : Bool

structure TableHoldbackScanner where
  sourceOffset : Nat := 0
  fenceTracker : FenceTracker := {}
  previousLine : Option PreviousLineState := none
  pendingHeaderStart : Option Nat := none
  confirmedTableStart : Option Nat := none

def tableCandidateText : Option Text :=
  let stripped := trim (stripBlockquotePrefix line)
  (parseTableSegments stripped).map fun _ => stripped

namespace TableHoldbackScanner

def new : TableHoldbackScanner := {}

variable (scanner : TableHoldbackScanner)

def state : TableHoldbackState :=
  match scanner.confirmedTableStart, scanner.pendingHeaderStart with
  | some tableStart, _ => .confirmed tableStart
  | none, some headerStart => .pendingHeader headerStart
  | none, none => .none

def confirmsTable (fenceKind : FenceKind) (isDelimiter : Bool) : Option Nat :=
  if scanner.confirmedTableStart = none then
    scanner.previousLine.bind fun previousLine =>
      if previousLine.fenceKind ≠ .other ∧ fenceKind ≠ .other ∧ previousLine.isHeader ∧ isDelimiter then
        some previousLine.sourceStart
      else none
  else none

def pushLine (sourceLine : Text) : TableHoldbackScanner :=
  let line := stripLast '\n' sourceLine
  let sourceStart := scanner.sourceOffset
  let fenceKind := scanner.fenceTracker.kind
  let candidateText := if fenceKind = .other then none else tableCandidateText line
  let isHeader := candidateText.any isTableHeaderLine
  let isDelimiter := candidateText.any isTableDelimiterLine
  let confirms := scanner.confirmsTable fenceKind isDelimiter
  let confirmedTableStart := scanner.confirmedTableStart.or confirms
  let pendingHeaderStart := if confirms.isSome then none else scanner.pendingHeaderStart
  { sourceOffset := scanner.sourceOffset + byteLen sourceLine
    fenceTracker := scanner.fenceTracker.advance line
    previousLine := some { sourceStart, fenceKind, isHeader }
    pendingHeaderStart :=
      if confirmedTableStart = none ∧ trim line ≠ [] then
        if fenceKind ≠ .other ∧ isHeader then some sourceStart else none
      else pendingHeaderStart
    confirmedTableStart }

def pushSourceChunk (sourceChunk : Text) : TableHoldbackScanner :=
  (splitInclusive sourceChunk).foldl pushLine scanner

end TableHoldbackScanner

/-! ## The collector -/

structure MarkdownStreamCollector where
  buffer : Text := []
  committedSourceLen : Nat := 0

/-- The byte behind the last line feed. -/
def commitEnd? (buffer : Text) : Option Nat :=
  if '\n' ∈ buffer then some (byteLen (buffer.rdropWhile (· ≠ '\n'))) else none

namespace MarkdownStreamCollector

variable (collector : MarkdownStreamCollector)

def pushDelta (delta : Text) : MarkdownStreamCollector :=
  { collector with buffer := collector.buffer ++ delta }

def commitCompleteSource : Option (Option Text × MarkdownStreamCollector) :=
  match commitEnd? collector.buffer with
  | none => some (none, collector)
  | some commitEnd =>
      if commitEnd ≤ collector.committedSourceLen then some (none, collector)
      else
        (slice collector.buffer collector.committedSourceLen commitEnd).map fun out =>
          (some out, { collector with committedSourceLen := commitEnd })

def finalizeAndDrainSource : Option (Text × MarkdownStreamCollector) :=
  if byteLen collector.buffer ≤ collector.committedSourceLen then some ([], {})
  else
    (slice collector.buffer collector.committedSourceLen (byteLen collector.buffer)).map fun out =>
      (if out.getLast? = some '\n' then out else out ++ ['\n'], {})

end MarkdownStreamCollector

/-! ## Rendering -/

inductive HistoryRenderMode where
  | rich
  | raw
  deriving DecidableEq

structure Renderer (Line : Type) where
  markdown : Option Nat → Text → List Line
  plain : Text → Line

variable {Line : Type} (renderer : Renderer Line)

namespace Renderer

def rawLinesFromSource (source : Text) : List Line :=
  if source = [] then []
  else
    let parts := source.splitOn '\n'
    (if source.getLast? = some '\n' then parts.dropLast else parts).map renderer.plain

def renderSource (renderMode : HistoryRenderMode) (width : Option Nat) (source : Text) : List Line :=
  match renderMode with
  | .rich => renderer.markdown width source
  | .raw => renderer.rawLinesFromSource source

end Renderer

def sliceLines (lines : List Line) (start stop : Nat) : Option (List Line) :=
  if start ≤ stop ∧ stop ≤ lines.length then some ((lines.take stop).drop start) else none

/-! ## The stable region and the tail -/

structure StablePrefixLenCache where
  sourceStart : Nat
  width : Option Nat
  stablePrefixLen : Nat

structure StreamCore (Line : Type) where
  collector : MarkdownStreamCollector
  queuedLines : List Line
  width : Option Nat
  rawSource : Text
  renderedLines : List Line
  enqueuedStableLen : Nat
  emittedStableLen : Nat
  renderMode : HistoryRenderMode
  stablePrefixLenCache : Option StablePrefixLenCache
  holdbackScanner : TableHoldbackScanner

namespace StreamCore

def new (width : Option Nat) (renderMode : HistoryRenderMode) : StreamCore Line where
  collector := {}
  queuedLines := []
  width
  rawSource := []
  renderedLines := []
  enqueuedStableLen := 0
  emittedStableLen := 0
  renderMode
  stablePrefixLenCache := none
  holdbackScanner := .new

variable (core : StreamCore Line)

def reset : StreamCore Line := new core.width core.renderMode

def renderSource (source : Text) : List Line := renderer.renderSource core.renderMode core.width source

def recomputeStreamingRender : StreamCore Line :=
  { core with renderedLines := core.renderSource renderer core.rawSource }

def clearQueue : StreamCore Line := { core with queuedLines := [] }

def enqueue (lines : List Line) : StreamCore Line := { core with queuedLines := core.queuedLines ++ lines }

def hasTail : Bool := decide (core.enqueuedStableLen < core.renderedLines.length)

/-- How many lines what stands before a place of the source is rendered to, kept for the next time. -/
def stablePrefixLenForSourceStart (sourceStart : Nat) : Option (Nat × StreamCore Line) :=
  match core.stablePrefixLenCache.filter fun cache => decide (cache.sourceStart = sourceStart ∧ cache.width = core.width) with
  | some cache => some (cache.stablePrefixLen, core)
  | none =>
      (slice core.rawSource 0 (min sourceStart (byteLen core.rawSource))).map fun source =>
        let stablePrefixLen := (renderer.markdown core.width source).length
        (stablePrefixLen, { core with stablePrefixLenCache := some ⟨sourceStart, core.width, stablePrefixLen⟩ })

def tailBudgetFromSourceStart (sourceStart : Nat) : Option (Nat × StreamCore Line) :=
  if sourceStart = 0 then some (core.renderedLines.length, core)
  else
    (core.stablePrefixLenForSourceStart renderer (min sourceStart (byteLen core.rawSource))).map fun found =>
      (core.renderedLines.length - found.1, found.2)

def activeTailBudgetLines : Option (Nat × StreamCore Line) :=
  match core.renderMode, core.holdbackScanner.state with
  | .raw, _ => some (0, core)
  | .rich, .confirmed start | .rich, .pendingHeader start => core.tailBudgetFromSourceStart renderer start
  | .rich, .none => some (0, core)

def computeTargetStableLen : Option (Nat × StreamCore Line) :=
  (core.activeTailBudgetLines renderer).map fun budget =>
    (max (core.renderedLines.length - budget.1) core.emittedStableLen, budget.2)

def enqueueUnemitted (targetStableLen : Nat) : Option (StreamCore Line) :=
  if core.emittedStableLen < targetStableLen then
    (sliceLines core.renderedLines core.emittedStableLen targetStableLen).map fun lines =>
      { core.clearQueue.enqueue lines with enqueuedStableLen := targetStableLen }
  else some { core.clearQueue with enqueuedStableLen := targetStableLen }

def syncStableQueue : Option (Bool × StreamCore Line) := do
  let (targetStableLen, core) ← core.computeTargetStableLen renderer
  if targetStableLen < core.enqueuedStableLen then
    let core ← core.enqueueUnemitted targetStableLen
    return (decide (core.queuedLines ≠ []), core)
  else if targetStableLen = core.enqueuedStableLen then
    return (false, core)
  else
    let lines ← sliceLines core.renderedLines core.enqueuedStableLen targetStableLen
    return (true, { core.enqueue lines with enqueuedStableLen := targetStableLen })

def rebuildStableQueueFromRender : Option (StreamCore Line) := do
  let (targetStableLen, core) ← core.computeTargetStableLen renderer
  core.enqueueUnemitted targetStableLen

/-! ## The operations of a stream -/

def pushDelta (delta : Text) : Option (Bool × StreamCore Line) := do
  let core := { core with collector := core.collector.pushDelta delta }
  if '\n' ∈ delta then
    let (committedSource, collector) ← core.collector.commitCompleteSource
    let core := { core with collector }
    match committedSource with
    | some committedSource =>
        let core :=
          { core with
            rawSource := core.rawSource ++ committedSource
            holdbackScanner := core.holdbackScanner.pushSourceChunk committedSource }
        (core.recomputeStreamingRender renderer).syncStableQueue renderer
    | none => return (false, core)
  else return (false, core)

def finalizeRemaining : Option (List Line × StreamCore Line) := do
  let (remainderSource, collector) ← core.collector.finalizeAndDrainSource
  let core :=
    { core with
      collector
      rawSource := core.rawSource ++ remainderSource
      holdbackScanner := core.holdbackScanner.pushSourceChunk remainderSource }
  let rendered := core.renderSource renderer core.rawSource
  if rendered.length ≤ core.emittedStableLen then return ([], core)
  else
    let lines ← sliceLines rendered core.emittedStableLen rendered.length
    return (lines, core)

def tick : List Line × StreamCore Line :=
  let step := core.queuedLines.take 1
  (step, { core with queuedLines := core.queuedLines.drop 1, emittedStableLen := core.emittedStableLen + step.length })

def tickBatch (maxLines : Nat) : List Line × StreamCore Line :=
  let step := core.queuedLines.take maxLines
  (step, { core with queuedLines := core.queuedLines.drop maxLines, emittedStableLen := core.emittedStableLen + step.length })

/-- What `set_width` and `set_render_mode` do when the layout has changed. -/
def layOutAgain (hadPendingQueue hadLiveTail : Bool) : Option (StreamCore Line) :=
  if core.rawSource = [] then some core
  else
    let core := core.recomputeStreamingRender renderer
    let emittedStableLen := min core.emittedStableLen core.renderedLines.length
    let emittedStableLen :=
      if hadPendingQueue ∧ emittedStableLen = core.renderedLines.length ∧ 0 < emittedStableLen then emittedStableLen - 1
      else emittedStableLen
    let core := { core.clearQueue with emittedStableLen }
    if 0 < emittedStableLen ∧ !hadPendingQueue ∧ !hadLiveTail then
      some { core with enqueuedStableLen := core.renderedLines.length }
    else core.rebuildStableQueueFromRender renderer

def setWidth (width : Option Nat) : Option (StreamCore Line) :=
  if core.width = width then some core
  else { core with width }.layOutAgain renderer (decide (0 < core.queuedLines.length)) core.hasTail

def setRenderMode (renderMode : HistoryRenderMode) : Option (StreamCore Line) :=
  if core.renderMode = renderMode then some core
  else { core with renderMode }.layOutAgain renderer (decide (0 < core.queuedLines.length)) core.hasTail

end StreamCore

/-! ## The controller -/

structure AgentMessageCell (Line : Type) where
  lines : List Line
  isFirstLine : Bool

structure StreamController (Line : Type) where
  core : StreamCore Line
  headerEmitted : Bool

namespace StreamController

def new (width : Option Nat) (renderMode : HistoryRenderMode) : StreamController Line :=
  ⟨.new width renderMode, false⟩

variable (controller : StreamController Line)

def emit (lines : List Line) : Option (AgentMessageCell Line) × StreamController Line :=
  if lines = [] then (none, controller)
  else (some ⟨lines, !controller.headerEmitted⟩, { controller with headerEmitted := true })

def push (delta : Text) : Option (StreamController Line) :=
  (controller.core.pushDelta renderer delta).map fun pushed => { controller with core := pushed.2 }

def finalize : Option ((Option (AgentMessageCell Line) × Option Text) × StreamController Line) :=
  (controller.core.finalizeRemaining renderer).map fun (remaining, core) =>
    if core.rawSource = [] then ((none, none), { controller with core := core.reset })
    else
      let (out, controller) := { controller with core }.emit remaining
      ((out, some core.rawSource), { controller with core := core.reset })

def onCommitTick : Option (AgentMessageCell Line) × StreamController Line :=
  let (step, core) := controller.core.tick
  { controller with core }.emit step

def onCommitTickBatch (maxLines : Nat) : Option (AgentMessageCell Line) × StreamController Line :=
  let (step, core) := controller.core.tickBatch maxLines
  { controller with core }.emit step

def clearQueue : StreamController Line :=
  { controller with core := { controller.core.clearQueue with enqueuedStableLen := controller.core.emittedStableLen } }

def setWidth (width : Option Nat) : Option (StreamController Line) :=
  (controller.core.setWidth renderer width).map fun core => { controller with core }

def setRenderMode (renderMode : HistoryRenderMode) : Option (StreamController Line) :=
  (controller.core.setRenderMode renderer renderMode).map fun core => { controller with core }

end StreamController

/-! ## Runs of a stream -/

inductive StreamStep where
  | push (delta : Text)
  | onCommitTick
  | onCommitTickBatch (maxLines : Nat)
  | clearQueue
  | setWidth (width : Option Nat)
  | setRenderMode (renderMode : HistoryRenderMode)

def cellLines (cell : Option (AgentMessageCell Line)) : List Line := cell.elim [] (·.lines)

structure StreamRun (Line : Type) where
  controller : StreamController Line
  emitted : List Line

namespace StreamRun

def start (width : Option Nat) (renderMode : HistoryRenderMode) : StreamRun Line := ⟨.new width renderMode, []⟩

def emits (run : StreamRun Line) (ticked : Option (AgentMessageCell Line) × StreamController Line) : StreamRun Line :=
  ⟨ticked.2, run.emitted ++ cellLines ticked.1⟩

def step (run : StreamRun Line) : StreamStep → Option (StreamRun Line)
  | .push delta => (run.controller.push renderer delta).map fun controller => { run with controller }
  | .onCommitTick => some (run.emits run.controller.onCommitTick)
  | .onCommitTickBatch maxLines => some (run.emits (run.controller.onCommitTickBatch maxLines))
  | .clearQueue => some { run with controller := run.controller.clearQueue }
  | .setWidth width => (run.controller.setWidth renderer width).map fun controller => { run with controller }
  | .setRenderMode renderMode =>
      (run.controller.setRenderMode renderer renderMode).map fun controller => { run with controller }

def runFrom (run : StreamRun Line) (steps : List StreamStep) : Option (StreamRun Line) :=
  steps.foldlM (fun run step => run.step renderer step) run

end StreamRun

def pushedText (steps : List StreamStep) : Text :=
  steps.flatMap fun step =>
    match step with
    | .push delta => delta
    | _ => []

end CodexStudy.Tui
