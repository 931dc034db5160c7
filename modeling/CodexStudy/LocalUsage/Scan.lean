import CodexStudy.Lib.HashMap
import CodexStudy.Lib.Json

/-!
# Scanning a session file for its usage (`local_usage_core.rs`)

A session file is read line by line.
-/

namespace CodexStudy.LocalUsage

open CodexStudy.Lib

structure DailyTotals where
  input : Int := 0
  cached : Int := 0
  output : Int := 0
  agentMs : Int := 0
  agentRuns : Int := 0

structure UsageTotals where
  input : Int := 0
  cached : Int := 0
  output : Int := 0
  deriving DecidableEq

def MAX_ACTIVITY_GAP_MS : Int := 2 * 60 * 1000

def MAX_LINE_BYTES : Nat := 512000

inductive LogLine where
  | unreadable
  | text (byteLength : Nat) (value : Option Json)

def LogLine.value? : LogLine → Option Json
  | unreadable => none
  | text byteLength value => if byteLength > MAX_LINE_BYTES then none else value

/-- What is asked of the libraries: a number that is no integer as one, a date as milliseconds, the local day of a time,
and whether a path lies in a workspace. -/
structure UsageTools where
  floatAsI64 : Json → Option Int
  parseRfc3339 : Text → Option Int
  dayKeyForTimestampMs : Int → Option Text
  pathMatchesWorkspace : Text → Text → Bool

/-! ## Reading a line -/

def extractCwd (value : Json) : Option Text :=
  (value.get "payload").bind fun payload => payload.getStr "cwd"

def payloadOf (value : Json) : Option Json :=
  (value.get "payload").filter fun payload => payload.asObject.isSome

def objectOf (value : Json) (key : String) : Option Json :=
  (value.get key.toList).filter fun field => field.asObject.isSome

def extractModelFromTurnContext (value : Json) : Option Text := do
  let payload ← payloadOf value
  payload.getStr "model" <|> (objectOf payload "info").bind fun info => info.getStr "model"

def extractModelFromTokenCount (value : Json) : Option Text := do
  let payload ← payloadOf value
  ((objectOf payload "info").bind fun info =>
      (info.get "model" <|> info.get "model_name").bind Json.asStr) <|>
    payload.getStr "model" <|> value.getStr "model"

def findUsageMap (info : Json) (keys : List String) : Option Json := keys.findSome? (objectOf info)

namespace UsageTools

variable (tools : UsageTools)

def asI64 (value : Json) : Option Int := value.asI64 <|> tools.floatAsI64 value

def readI64 (map : Json) (keys : List String) : Int :=
  ((keys.findSome? fun key => map.get key.toList).bind tools.asI64).getD 0

def readUsage (map : Json) : UsageTotals where
  input := tools.readI64 map ["input_tokens", "inputTokens"]
  cached := tools.readI64 map
    ["cached_input_tokens", "cache_read_input_tokens", "cachedInputTokens", "cacheReadInputTokens"]
  output := tools.readI64 map ["output_tokens", "outputTokens"]

def readTokenCount (payload : Json) : Option (UsageTotals × Bool) :=
  (objectOf payload "info").bind fun info =>
    match findUsageMap info ["total_token_usage", "totalTokenUsage"] with
    | some total => some (tools.readUsage total, true)
    | none => (findUsageMap info ["last_token_usage", "lastTokenUsage"]).map fun last => (tools.readUsage last, false)

/-- A number that is too small for milliseconds is one of seconds. -/
def readTimestampMs (value : Json) : Option Int :=
  (value.get "timestamp").bind fun raw =>
    match raw.asStr with
    | some text => tools.parseRfc3339 text
    | none => (tools.asI64 raw).map fun numeric =>
        if 0 < numeric ∧ numeric < 1000000000000 then numeric * 1000 else numeric

end UsageTools

/-! ## The state of a scan -/

structure ScanState where
  daily : HashMap Text DailyTotals
  modelTotals : HashMap Text Int
  previousTotals : Option UsageTotals := none
  currentModel : Option Text := none
  lastActivityMs : Option Int := none
  seenRuns : List Int := []
  matchKnown : Bool
  matchesWorkspace : Bool

namespace ScanState

variable (s : ScanState)

def changeDay (day : Option Text) (change : DailyTotals → DailyTotals) : ScanState :=
  match day with
  | none => s
  | some key =>
      match s.daily.lookup key with
      | none => s
      | some totals => { s with daily := s.daily.insert key (change totals) }

variable (tools : UsageTools) (value : Json)

/-- The agent was active between two events that are not far apart. -/
def trackActivity (timestampMs : Int) : ScanState :=
  let tracked :=
    match s.lastActivityMs with
    | none => s
    | some previousMs =>
        let delta := timestampMs - previousMs
        if 0 < delta ∧ delta ≤ MAX_ACTIVITY_GAP_MS then
          s.changeDay (tools.dayKeyForTimestampMs timestampMs) fun totals =>
            { totals with agentMs := totals.agentMs + delta }
        else s
  { tracked with lastActivityMs := some timestampMs }

def trackTimestamp : Option Int → ScanState
  | none => s
  | some timestampMs => s.trackActivity tools timestampMs

/-- A message of the agent is a run, unless there was one at the same time. -/
def countRun : Option Int → ScanState
  | none => s
  | some timestampMs =>
      let counted :=
        if timestampMs ∈ s.seenRuns then s
        else { s with seenRuns := timestampMs :: s.seenRuns }.changeDay (tools.dayKeyForTimestampMs timestampMs)
          fun totals => { totals with agentRuns := totals.agentRuns + 1 }
      counted.trackActivity tools timestampMs

/-- What is new in a token count, and what was used in all after it. -/
def usageDelta (usage : UsageTotals) (usedTotal : Bool) : UsageTotals × UsageTotals :=
  let previous := s.previousTotals.getD {}
  if usedTotal then
    (⟨max (usage.input - previous.input) 0, max (usage.cached - previous.cached) 0,
      max (usage.output - previous.output) 0⟩, usage)
  else (usage, ⟨previous.input + usage.input, previous.cached + usage.cached, previous.output + usage.output⟩)

def addUsage (delta : UsageTotals) : ScanState :=
  match (tools.readTimestampMs value).bind tools.dayKeyForTimestampMs with
  | none => s
  | some key =>
      match s.daily.lookup key with
      | none => s
      | some totals =>
          let model := (s.currentModel <|> extractModelFromTokenCount value).getD "unknown"
          { s with
            daily := s.daily.insert key { totals with
              input := totals.input + delta.input
              cached := totals.cached + min delta.cached delta.input
              output := totals.output + delta.output }
            modelTotals := s.modelTotals.insert model
              ((s.modelTotals.lookup model).getD 0 + (delta.input + delta.output)) }

def scanTokenCount (usage : UsageTotals) (usedTotal : Bool) : ScanState :=
  let (delta, total) := s.usageDelta usage usedTotal
  let s := { s with previousTotals := some total }
  if delta = {} then s else (s.addUsage tools value delta).trackTimestamp tools (tools.readTimestampMs value)

def scanEvent : ScanState :=
  let payloadType := (payloadOf value).bind fun payload => payload.getStr "type"
  if payloadType = some "agent_message".toList then s.countRun tools (tools.readTimestampMs value)
  else if payloadType = some "agent_reasoning".toList then s.trackTimestamp tools (tools.readTimestampMs value)
  else if payloadType = some "token_count".toList then
    match (payloadOf value).bind tools.readTokenCount with
    | none => s
    | some (usage, usedTotal) => s.scanTokenCount tools value usage usedTotal
  else s

def scanResponseItem : ScanState :=
  let payloadType := (payloadOf value).bind fun payload => payload.getStr "type"
  let role := ((payloadOf value).bind fun payload => payload.getStr "role").getD []
  if role = "assistant".toList then s.countRun tools (tools.readTimestampMs value)
  else if payloadType ≠ some "message".toList then s.trackTimestamp tools (tools.readTimestampMs value)
  else s

/-- Where a session is of another workspace than the one that is asked for. -/
def matchWorkspace (workspacePath : Option Text) (value : Json) : ScanState :=
  match extractCwd value, workspacePath with
  | some cwd, some path => { s with matchesWorkspace := tools.pathMatchesWorkspace cwd path, matchKnown := true }
  | _, _ => s

def scanValue (workspacePath : Option Text) (value : Json) : ScanState × Bool :=
  let entryType := (value.getStr "type").getD []
  if entryType = "session_meta" ∨ entryType = "turn_context" then
    let s := s.matchWorkspace tools workspacePath value
    if s.matchKnown && !s.matchesWorkspace then (s, false)
    else if entryType = "turn_context" then
      ({ s with currentModel := extractModelFromTurnContext value <|> s.currentModel }, true)
    else (s, true)
  else if !s.matchesWorkspace then (s, !s.matchKnown)
  else if !s.matchKnown then (s, true)
  else if entryType = "event_msg" ∨ entryType = [] then (s.scanEvent tools value, true)
  else if entryType = "response_item" then (s.scanResponseItem tools value, true)
  else (s, true)

def scanLines (tools : UsageTools) (workspacePath : Option Text) : ScanState → List LogLine → ScanState
  | s, [] => s
  | s, line :: lines =>
      match line.value? with
      | none => scanLines tools workspacePath s lines
      | some value =>
          match s.scanValue tools workspacePath value with
          | (s, true) => scanLines tools workspacePath s lines
          | (s, false) => s

end ScanState

def scanFile (tools : UsageTools) (file : Option (List LogLine)) (daily : HashMap Text DailyTotals)
    (modelTotals : HashMap Text Int) (workspacePath : Option Text) : HashMap Text DailyTotals × HashMap Text Int :=
  match file with
  | none => (daily, modelTotals)
  | some lines =>
      let s : ScanState :=
        { daily, modelTotals, matchKnown := workspacePath.isNone, matchesWorkspace := workspacePath.isNone }
      let s := s.scanLines tools workspacePath lines
      (s.daily, s.modelTotals)

end CodexStudy.LocalUsage
