import CodexStudy.Lib.Lists
import CodexStudy.Lib.Markers
import CodexStudy.Lib.Text

/-!
# Streamed assistant text (`utils/stream-parser`)

The parsers of text that arrives in chunks: tags inside a line that are hidden with their contents, blocks between two
lines that hold a tag alone, and the two parsers one behind the other.
-/

namespace CodexStudy.StreamParser

open CodexStudy.Lib

structure StreamTextChunk (ε : Type) where
  visibleText : Text
  extracted : List ε

namespace StreamTextChunk

variable {ε : Type}

def default : StreamTextChunk ε := ⟨[], []⟩

def isEmpty (chunk : StreamTextChunk ε) : Bool := chunk.visibleText.isEmpty && chunk.extracted.isEmpty

end StreamTextChunk

class StreamTextParser (π : Type) (ε : outParam Type) where
  pushStr : π → Text → StreamTextChunk ε × π
  finish : π → StreamTextChunk ε × π

/-! ## Hidden inline tags (`inline_hidden_tag.rs`) -/

structure ExtractedInlineTag (τ : Type) where
  tag : τ
  content : Text

/-- A tag with its two delimiters, which are not empty. -/
structure InlineTagSpec (τ : Type) where
  tag : τ
  opener : Text
  closer : Text
  opener_ne : opener ≠ []
  closer_ne : closer ≠ []

structure ActiveTag (τ : Type) where
  tag : τ
  closer : Text
  content : Text
  closer_ne : closer ≠ []

structure InlineHiddenTagParser (τ : Type) where
  specs : List (InlineTagSpec τ)
  pending : Text
  active : Option (ActiveTag τ)

namespace InlineHiddenTagParser

variable {τ : Type} (specs : List (InlineTagSpec τ)) (pending : Text)

def betterOpen (best : Option (Nat × InlineTagSpec τ)) (found : Nat × InlineTagSpec τ) : Option (Nat × InlineTagSpec τ) :=
  match best with
  | some (pos, spec) =>
      if found.1 < pos ∨ (found.1 = pos ∧ spec.opener.length < found.2.opener.length) then some found else some (pos, spec)
  | none => some found

def findNextOpen : Option (Nat × InlineTagSpec τ) :=
  (specs.filterMap fun spec => (findMarker spec.opener pending).map fun pos => (pos, spec)).foldl betterOpen none

theorem findNextOpen_eq_some {pos : Nat} {spec : InlineTagSpec τ} (h : findNextOpen specs pending = some (pos, spec)) :
    findMarker spec.opener pending = some pos := by
  have hpick : ∀ best (found picked : Nat × InlineTagSpec τ), betterOpen best found = some picked →
      picked = found ∨ best = some picked := by
    intro best found picked hbetter
    cases best with
    | none => exact .inl (Option.some.inj hbetter).symm
    | some best =>
        unfold betterOpen at hbetter
        dsimp only at hbetter
        split at hbetter
        · exact .inl (Option.some.inj hbetter).symm
        · exact .inr hbetter
  rcases mem_or_of_foldl hpick h with hmem | hnone
  · obtain ⟨spec', -, hspec'⟩ := List.mem_filterMap.mp hmem
    obtain ⟨pos', hpos', heq⟩ := Option.map_eq_some_iff.mp hspec'
    cases heq
    exact hpos'
  · cases hnone

def maxOpenPrefixSuffixLen : Nat := (specs.map fun spec => longestSuffixPrefix pending spec.opener).foldl max 0

/-- What the loop of `push_str` emits, and what it leaves. -/
structure Scan (τ : Type) where
  out : StreamTextChunk (ExtractedInlineTag τ)
  pending : Text
  active : Option (ActiveTag τ)

/-- The loop of `push_str`. -/
def scan (pending : Text) (active : Option (ActiveTag τ)) : Scan τ :=
  match active with
  | some active =>
      match _h : findMarker active.closer pending with
      | some closeIdx =>
          let rest := scan (pending.drop (closeIdx + active.closer.length)) none
          { rest with out :=
              { rest.out with extracted := ⟨active.tag, active.content ++ pending.take closeIdx⟩ :: rest.out.extracted } }
      | none =>
          let take := pending.length - longestSuffixPrefix pending active.closer
          { out := .default, pending := pending.drop take,
            active := some { active with content := active.content ++ pending.take take } }
  | none =>
      match _h : findNextOpen specs pending with
      | some (openIdx, spec) =>
          let rest := scan (pending.drop (openIdx + spec.opener.length)) (some ⟨spec.tag, spec.closer, [], spec.closer_ne⟩)
          { rest with out := { rest.out with visibleText := pending.take openIdx ++ rest.out.visibleText } }
      | none =>
          let take := pending.length - maxOpenPrefixSuffixLen specs pending
          { out := ⟨pending.take take, []⟩, pending := pending.drop take, active := none }
  termination_by pending.length
  decreasing_by
    · exact length_drop_findMarker_lt active.closer_ne ‹_›
    · exact length_drop_findMarker_lt spec.opener_ne (findNextOpen_eq_some specs pending ‹_›)

variable {specs pending}

def pushStr (parser : InlineHiddenTagParser τ) (chunk : Text) :
    StreamTextChunk (ExtractedInlineTag τ) × InlineHiddenTagParser τ :=
  let scanned := scan parser.specs (parser.pending ++ chunk) parser.active
  (scanned.out, { parser with pending := scanned.pending, active := scanned.active })

/-- A tag that is still open is closed by the end. -/
def finish (parser : InlineHiddenTagParser τ) : StreamTextChunk (ExtractedInlineTag τ) × InlineHiddenTagParser τ :=
  match parser.active with
  | some active =>
      (⟨[], [⟨active.tag, active.content ++ parser.pending⟩]⟩, { parser with pending := [], active := none })
  | none => (⟨parser.pending, []⟩, { parser with pending := [] })

instance : StreamTextParser (InlineHiddenTagParser τ) (ExtractedInlineTag τ) where
  pushStr := pushStr
  finish := finish

end InlineHiddenTagParser

/-! ## Citations (`citation.rs`) -/

inductive CitationTag where
  | citation

def CITATION_OPEN : Text := "<oai-mem-citation>"

def CITATION_CLOSE : Text := "</oai-mem-citation>"

def citationSpec : InlineTagSpec CitationTag :=
  { tag := .citation, opener := CITATION_OPEN, closer := CITATION_CLOSE, opener_ne := by decide, closer_ne := by decide }

structure CitationStreamParser where
  inner : InlineHiddenTagParser CitationTag

namespace CitationStreamParser

def new : CitationStreamParser := ⟨⟨[citationSpec], [], none⟩⟩

def contents (chunk : StreamTextChunk (ExtractedInlineTag CitationTag)) : StreamTextChunk Text :=
  ⟨chunk.visibleText, chunk.extracted.map ExtractedInlineTag.content⟩

def pushStr (parser : CitationStreamParser) (chunk : Text) : StreamTextChunk Text × CitationStreamParser :=
  let (out, inner) := parser.inner.pushStr chunk
  (contents out, ⟨inner⟩)

def finish (parser : CitationStreamParser) : StreamTextChunk Text × CitationStreamParser :=
  let (out, inner) := parser.inner.finish
  (contents out, ⟨inner⟩)

instance : StreamTextParser CitationStreamParser Text where
  pushStr := pushStr
  finish := finish

end CitationStreamParser

def stripCitations (text : Text) : Text × List Text :=
  let (out, parser) := CitationStreamParser.new.pushStr text
  let (tail, _) := parser.finish
  (out.visibleText ++ tail.visibleText, out.extracted ++ tail.extracted)

/-! ## Blocks between lines with a tag (`tagged_line_parser.rs`) -/

structure TagSpec (τ : Type) where
  opener : Text
  closer : Text
  tag : τ

inductive TaggedLineSegment (τ : Type) where
  | normal (text : Text)
  | tagStart (tag : τ)
  | tagDelta (tag : τ) (text : Text)
  | tagEnd (tag : τ)
  deriving DecidableEq

structure TaggedLineParser (τ : Type) where
  specs : List (TagSpec τ)
  activeTag : Option τ
  detectTag : Bool
  lineBuffer : Text

section

variable {τ : Type} [DecidableEq τ]

/-- Text is joined to a last segment of its kind, and left out when it is empty. -/
def pushSegment (segments : List (TaggedLineSegment τ)) (segment : TaggedLineSegment τ) : List (TaggedLineSegment τ) :=
  match segment with
  | .normal delta =>
      if delta = [] then segments
      else
        match segments.getLast? with
        | some (.normal existing) => segments.dropLast ++ [.normal (existing ++ delta)]
        | _ => segments ++ [.normal delta]
  | .tagDelta tag delta =>
      if delta = [] then segments
      else
        match segments.getLast? with
        | some (.tagDelta existingTag existing) =>
            if existingTag = tag then segments.dropLast ++ [.tagDelta tag (existing ++ delta)]
            else segments ++ [.tagDelta tag delta]
        | _ => segments ++ [.tagDelta tag delta]
  | .tagStart tag => segments ++ [.tagStart tag]
  | .tagEnd tag => segments ++ [.tagEnd tag]

namespace TaggedLineParser

def new (specs : List (TagSpec τ)) : TaggedLineParser τ :=
  { specs, activeTag := none, detectTag := true, lineBuffer := [] }

variable (parser : TaggedLineParser τ)

def textSegment (text : Text) : TaggedLineSegment τ :=
  match parser.activeTag with
  | some tag => .tagDelta tag text
  | none => .normal text

def pushText (text : Text) (segments : List (TaggedLineSegment τ)) : List (TaggedLineSegment τ) :=
  pushSegment segments (parser.textSegment text)

def isTagPrefix (slug : Text) : Bool :=
  parser.specs.any fun spec => slug.trimEnd <+: spec.opener ∨ slug.trimEnd <+: spec.closer

def matchOpen (slug : Text) : Option τ := (parser.specs.find? fun spec => spec.opener = slug).map TagSpec.tag

def matchClose (slug : Text) : Option τ := (parser.specs.find? fun spec => spec.closer = slug).map TagSpec.tag

/-- A line without its line break and the white space around it. -/
def lineSlug (line : Text) : Text :=
  Text.trimEnd (Text.trimStart (if line.getLast? = some '\n' then line.dropLast else line))

def lineSegment (line : Text) : TaggedLineSegment τ × Option τ :=
  match parser.activeTag, parser.matchOpen (lineSlug line), parser.matchClose (lineSlug line) with
  | none, some tag, _ => (.tagStart tag, some tag)
  | some active, _, some tag =>
      if active = tag then (.tagEnd tag, none) else (parser.textSegment line, parser.activeTag)
  | _, _, _ => (parser.textSegment line, parser.activeTag)

/-- What `parse` knows between two characters: the text `run` is not pushed yet. -/
structure LineScan (τ : Type) where
  parser : TaggedLineParser τ
  segments : List (TaggedLineSegment τ)
  run : Text

def LineScan.pushRun (st : LineScan τ) : List (TaggedLineSegment τ) :=
  if st.run = [] then st.segments else st.parser.pushText st.run st.segments

def LineScan.char (st : LineScan τ) (ch : Char) : LineScan τ :=
  if st.parser.detectTag then
    let line : Text := st.parser.lineBuffer ++ [ch]
    if ch = '\n' then
      let (segment, activeTag) := st.parser.lineSegment line
      { parser := { st.parser with activeTag, detectTag := true, lineBuffer := [] }
        segments := pushSegment st.pushRun segment, run := [] }
    else if line.trimStart = [] ∨ st.parser.isTagPrefix line.trimStart then
      { parser := { st.parser with lineBuffer := line }, segments := st.pushRun, run := [] }
    else
      { parser := { st.parser with detectTag := false, lineBuffer := [] }
        segments := st.parser.pushText line st.pushRun, run := [] }
  else if ch = '\n' then
    { parser := { st.parser with detectTag := true }
      segments := st.parser.pushText (st.run ++ [ch]) st.segments, run := [] }
  else { st with run := st.run ++ [ch] }

def parse (delta : Text) : List (TaggedLineSegment τ) × TaggedLineParser τ :=
  let st := delta.foldl LineScan.char ⟨parser, [], []⟩
  (st.pushRun, st.parser)

/-- The buffered line is decided as if it ended, and a block that is still open ends. -/
def finish : List (TaggedLineSegment τ) × TaggedLineParser τ :=
  let (segments, activeTag) :=
    if parser.lineBuffer = [] then ([], parser.activeTag)
    else
      let (segment, activeTag) := parser.lineSegment parser.lineBuffer
      (pushSegment [] segment, activeTag)
  let segments := match activeTag with
    | some tag => pushSegment segments (.tagEnd tag)
    | none => segments
  (segments, { parser with activeTag := none, detectTag := true, lineBuffer := [] })

end TaggedLineParser

end

/-! ## Proposed plans (`proposed_plan.rs`) -/

inductive PlanTag where
  | proposedPlan
  deriving DecidableEq

inductive ProposedPlanSegment where
  | normal (text : Text)
  | proposedPlanStart
  | proposedPlanDelta (text : Text)
  | proposedPlanEnd

def OPEN_TAG : Text := "<proposed_plan>"

def CLOSE_TAG : Text := "</proposed_plan>"

structure ProposedPlanParser where
  parser : TaggedLineParser PlanTag

namespace ProposedPlanParser

def new : ProposedPlanParser := ⟨.new [{ opener := OPEN_TAG, closer := CLOSE_TAG, tag := .proposedPlan }]⟩

def mapSegment : TaggedLineSegment PlanTag → ProposedPlanSegment
  | .normal text => .normal text
  | .tagStart _ => .proposedPlanStart
  | .tagDelta _ text => .proposedPlanDelta text
  | .tagEnd _ => .proposedPlanEnd

def normalText : ProposedPlanSegment → Text
  | .normal text => text
  | _ => []

def mapSegments (segments : List (TaggedLineSegment PlanTag)) : StreamTextChunk ProposedPlanSegment :=
  ⟨(segments.map mapSegment).flatMap normalText, segments.map mapSegment⟩

def pushStr (plan : ProposedPlanParser) (chunk : Text) : StreamTextChunk ProposedPlanSegment × ProposedPlanParser :=
  let (segments, parser) := plan.parser.parse chunk
  (mapSegments segments, ⟨parser⟩)

def finish (plan : ProposedPlanParser) : StreamTextChunk ProposedPlanSegment × ProposedPlanParser :=
  let (segments, parser) := plan.parser.finish
  (mapSegments segments, ⟨parser⟩)

instance : StreamTextParser ProposedPlanParser ProposedPlanSegment where
  pushStr := pushStr
  finish := finish

end ProposedPlanParser

/-! ## Assistant text (`assistant_text.rs`) -/

structure AssistantTextChunk where
  visibleText : Text
  citations : List Text
  planSegments : List ProposedPlanSegment

structure AssistantTextStreamParser where
  planMode : Bool
  citations : CitationStreamParser
  plan : ProposedPlanParser

namespace AssistantTextStreamParser

def new (planMode : Bool) : AssistantTextStreamParser := ⟨planMode, .new, .new⟩

variable (parser : AssistantTextStreamParser)

def parseVisibleText (visibleText : Text) :
    AssistantTextChunk × AssistantTextStreamParser :=
  if parser.planMode then
    let (planChunk, plan) := parser.plan.pushStr visibleText
    (⟨planChunk.visibleText, [], planChunk.extracted⟩, { parser with plan })
  else (⟨visibleText, [], []⟩, parser)

def pushStr (chunk : Text) : AssistantTextChunk × AssistantTextStreamParser :=
  let (citationChunk, citations) := parser.citations.pushStr chunk
  let (out, parser) := { parser with citations }.parseVisibleText citationChunk.visibleText
  ({ out with citations := citationChunk.extracted }, parser)

def finish : AssistantTextChunk × AssistantTextStreamParser :=
  let (citationChunk, citations) := parser.citations.finish
  let (out, parser) := { parser with citations }.parseVisibleText citationChunk.visibleText
  if parser.planMode then
    let (tail, plan) := parser.plan.finish
    let out := if tail.isEmpty then out
      else { out with visibleText := out.visibleText ++ tail.visibleText, planSegments := out.planSegments ++ tail.extracted }
    ({ out with citations := citationChunk.extracted }, { parser with plan })
  else ({ out with citations := citationChunk.extracted }, parser)

end AssistantTextStreamParser

end CodexStudy.StreamParser
