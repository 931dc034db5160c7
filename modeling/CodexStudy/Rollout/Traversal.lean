import CodexStudy.Lib.Markers
import CodexStudy.Lib.Text
import Mathlib.Data.Prod.Lex
import Mathlib.Data.List.Dedup

/-!
# Traversing the rollout files (`rollout/src/list.rs`)

One page of the list, in the four ways it is made: by the time of creation the walk through the directories may stop
early, by the time of the last change all files are collected and sorted first.
-/

namespace CodexStudy.Rollout

open CodexStudy.Lib

/-!
## Listing the threads (`rollout/src/list.rs`)

A file name is taken as what is read in it, and a root that does not exist is one without files.
-/

/-! ## Time -/

structure OffsetDateTime where
  year : Nat
  month : Nat
  day : Nat
  hour : Nat
  minute : Nat
  second : Nat
  nanosecond : Nat
  deriving DecidableEq

namespace OffsetDateTime

def key (t : OffsetDateTime) : Lex (Nat × Lex (Nat × Lex (Nat × Lex (Nat × Lex (Nat × Lex (Nat × Nat)))))) :=
  toLex (t.year, toLex (t.month, toLex (t.day, toLex (t.hour, toLex (t.minute, toLex (t.second, t.nanosecond))))))

theorem key_injective : Function.Injective key := by
  rintro ⟨⟩ ⟨⟩ h
  cases h
  rfl

instance : LinearOrder OffsetDateTime := LinearOrder.lift' key key_injective

def UNIX_EPOCH : OffsetDateTime := ⟨1970, 1, 1, 0, 0, 0, 0⟩

def truncateToMillis (t : OffsetDateTime) : OffsetDateTime := { t with nanosecond := t.nanosecond / 1000000 * 1000000 }

def date (t : OffsetDateTime) : Nat × Nat × Nat := (t.year, t.month, t.day)

end OffsetDateTime

structure Rfc3339 where
  format : OffsetDateTime → Option Text
  parse : Text → Option OffsetDateTime
  parse_format : ∀ {t : OffsetDateTime} {s : Text}, format t = some s → parse s = some t

/-! ## Rollout files -/

section

variable (σ : Type)

structure ThreadSummary where
  threadId : Option Text
  firstUserMessage : Option Text
  preview : Option Text
  cwd : Option Text
  gitBranch : Option Text
  gitSha : Option Text
  gitOriginUrl : Option Text
  source : Option σ
  agentNickname : Option Text
  agentRole : Option Text
  modelProvider : Option Text
  cliVersion : Option Text
  createdAt : Option Text
  updatedAt : Option Text

structure HeadTailSummary extends ThreadSummary σ where
  sawSessionMeta : Bool

structure SessionMetaLine where
  id : Text
  timestamp : Text
  cwd : Text
  source : σ
  agentNickname : Option Text
  agentRole : Option Text
  modelProvider : Option Text
  cliVersion : Text
  gitBranch : Option Text
  gitSha : Option Text
  gitOriginUrl : Option Text

end

inductive EventMsg where
  | userMessage (message : Text) (images : Option (List Text)) (localImages : List Text)
  | threadGoalUpdated (objective : Text)
  | other

inductive RolloutItem (σ : Type) where
  | sessionMeta (line : SessionMetaLine σ)
  | responseItem (timestamp : Text)
  | compacted
  | turnContext
  | eventMsg (event : EventMsg)

inductive RolloutLine (σ : Type) where
  | unreadable
  | blank
  | invalid
  | item (item : RolloutItem σ)

/-- A path, with the time and the id that `parse_timestamp_uuid_from_filename` reads in the file name. -/
structure RolloutPath where
  text : Text
  ts : OffsetDateTime
  id : Nat
  deriving DecidableEq

/-- A file whose name is that of a rollout; it lies in the root or in the directory of its day. -/
structure RolloutFile (σ : Type) where
  path : RolloutPath
  modified : Option OffsetDateTime
  lines : List (RolloutLine σ)

structure ThreadItem (σ : Type) extends ThreadSummary σ where
  path : RolloutPath

def MAX_SCAN_FILES : Nat := 10000

def HEAD_RECORD_LIMIT : Nat := 10

def USER_EVENT_SCAN_LIMIT : Nat := 200

def USER_MESSAGE_BEGIN : Text := "## My request for Codex:"

inductive ThreadSortKey where
  | createdAt
  | updatedAt

inductive ThreadListLayout where
  | nestedByDate
  | flat

/-! ## Summaries -/

section

variable {σ : Type}

def stripUserMessagePrefix (text : Text) : Text :=
  match findMarker USER_MESSAGE_BEGIN text with
  | some idx => Text.trim (text.drop (idx + USER_MESSAGE_BEGIN.length))
  | none => Text.trim text

def eventMsgPreview : EventMsg → Option Text
  | .userMessage message images localImages =>
      let message := stripUserMessagePrefix message
      if message ≠ [] then some message
      else if images.any (fun images => !images.isEmpty) || !localImages.isEmpty then some "[Image]"
      else none
  | .threadGoalUpdated objective =>
      let objective := Text.trim objective
      if objective ≠ [] then some objective else none
  | .other => none

namespace HeadTailSummary

def default : HeadTailSummary σ :=
  { threadId := none, firstUserMessage := none, preview := none, cwd := none, gitBranch := none, gitSha := none,
    gitOriginUrl := none, source := none, agentNickname := none, agentRole := none, modelProvider := none,
    cliVersion := none, createdAt := none, updatedAt := none, sawSessionMeta := false }

def add (summary : HeadTailSummary σ) : RolloutItem σ → HeadTailSummary σ
  | .sessionMeta line =>
      if summary.sawSessionMeta then summary
      else
        { summary with
          source := some line.source, agentNickname := line.agentNickname, agentRole := line.agentRole
          modelProvider := line.modelProvider, threadId := some line.id, cwd := some line.cwd
          gitBranch := line.gitBranch, gitSha := line.gitSha, gitOriginUrl := line.gitOriginUrl
          cliVersion := some line.cliVersion, createdAt := some line.timestamp, sawSessionMeta := true }
  | .responseItem timestamp => { summary with createdAt := summary.createdAt.or (some timestamp) }
  | .compacted => summary
  | .turnContext => summary
  | .eventMsg event =>
      match eventMsgPreview event with
      | some preview =>
          { summary with
            preview := summary.preview.or (some preview)
            firstUserMessage := match event with
              | .userMessage .. => summary.firstUserMessage.or (some preview)
              | _ => summary.firstUserMessage }
      | none => summary

/-- Everything that is looked for has been found. -/
def complete (summary : HeadTailSummary σ) : Bool :=
  summary.sawSessionMeta && summary.preview.isSome && summary.firstUserMessage.isSome

end HeadTailSummary

def readHeadLoop (headLimit linesScanned : Nat) (summary : HeadTailSummary σ) :
    List (RolloutLine σ) → Option (HeadTailSummary σ)
  | [] => some summary
  | line :: rest =>
      if linesScanned < headLimit ∨
          (summary.sawSessionMeta ∧ (summary.preview.isNone ∨ summary.firstUserMessage.isNone) ∧
            linesScanned < headLimit + USER_EVENT_SCAN_LIMIT) then
        match line with
        | .unreadable => none
        | .blank => readHeadLoop headLimit linesScanned summary rest
        | .invalid => readHeadLoop headLimit (linesScanned + 1) summary rest
        | .item item =>
            if (summary.add item).complete then some (summary.add item)
            else readHeadLoop headLimit (linesScanned + 1) (summary.add item) rest
      else some summary

def readHeadSummary (file : RolloutFile σ) (headLimit : Nat) : Option (HeadTailSummary σ) :=
  readHeadLoop headLimit 0 .default file.lines

end

/-! ## Items -/

/-- What a list is asked for; `pathsMatch` is the comparison of working directories. -/
structure ThreadListConfig (σ : Type) where
  allowedSources : List σ
  modelProviders : Option (List Text)
  cwdFilters : Option (List Text)
  defaultProvider : Text
  layout : ThreadListLayout
  pathsMatch : Text → Text → Bool
  rfc3339 : Rfc3339

structure ProviderMatcher where
  filters : List Text
  matchesDefaultProvider : Bool

namespace ProviderMatcher

def new (filters : List Text) (defaultProvider : Text) : Option ProviderMatcher :=
  if filters.isEmpty then none else some ⟨filters, filters.any (· = defaultProvider)⟩

def matches_ (matcher : ProviderMatcher) (sessionProvider : Option Text) : Bool :=
  match sessionProvider with
  | some provider => matcher.filters.any (· = provider)
  | none => matcher.matchesDefaultProvider

end ProviderMatcher

section

variable {σ : Type} [DecidableEq σ] (config : ThreadListConfig σ)

def buildThreadItem (file : RolloutFile σ) (updatedAt : Option Text) : Option (ThreadItem σ) :=
  let summary := (readHeadSummary file HEAD_RECORD_LIMIT).getD .default
  if !config.allowedSources.isEmpty && !summary.source.any (· ∈ config.allowedSources) then none
  else if (config.modelProviders.bind (ProviderMatcher.new · config.defaultProvider)).any
      (fun matcher => !matcher.matches_ summary.modelProvider) then none
  else if config.cwdFilters.any
      (fun cwdFilters => !summary.cwd.any fun cwd => cwdFilters.any (config.pathsMatch cwd)) then none
  else if summary.sawSessionMeta && summary.preview.isSome then
    some
      { toThreadSummary :=
          { summary.toThreadSummary with updatedAt := summary.updatedAt.or (updatedAt.or summary.createdAt) }
        path := file.path }
  else none

def fileModifiedTime (file : RolloutFile σ) : Option OffsetDateTime := file.modified.map OffsetDateTime.truncateToMillis

def threadItem (file : RolloutFile σ) : Option (ThreadItem σ) :=
  buildThreadItem config file ((fileModifiedTime file).bind config.rfc3339.format)

end

/-- Where a page ends: the time of its last item. -/
structure Cursor where
  ts : OffsetDateTime

structure AnchorState where
  ts : OffsetDateTime
  passed : Bool

namespace AnchorState

def new (anchor : Option Cursor) : AnchorState :=
  match anchor with
  | some cursor => { ts := cursor.ts, passed := false }
  | none => { ts := .UNIX_EPOCH, passed := true }

def shouldSkip (anchor : AnchorState) (ts : OffsetDateTime) : Bool × AnchorState :=
  if anchor.passed then (false, anchor)
  else if ts < anchor.ts then (false, { anchor with passed := true })
  else (true, anchor)

end AnchorState

structure ThreadsPage (σ : Type) where
  items : List (ThreadItem σ)
  nextCursor : Option Cursor
  numScannedFiles : Nat
  reachedScanCap : Bool

section

variable {σ : Type}

/-! ## Orders -/

/-- The order `(Reverse(ts), Reverse(id))` in which the files are sorted. -/
def Newer (ts : RolloutFile σ → OffsetDateTime) (a b : RolloutFile σ) : Prop :=
  ts b < ts a ∨ (ts b = ts a ∧ b.path.id ≤ a.path.id)

instance (ts : RolloutFile σ → OffsetDateTime) (a b : RolloutFile σ) : Decidable (Newer ts a b) :=
  inferInstanceAs (Decidable (_ ∨ _))

def sortNewest (ts : RolloutFile σ → OffsetDateTime) (files : List (RolloutFile σ)) : List (RolloutFile σ) :=
  files.mergeSort fun a b => Newer ts a b

def createdTs (file : RolloutFile σ) : OffsetDateTime := file.path.ts

def updatedTs (file : RolloutFile σ) : OffsetDateTime := (fileModifiedTime file).getD .UNIX_EPOCH

/-! ## Walking -/

def collectDirsDesc (names : List Nat) : List Nat := names.dedup.mergeSort fun a b => b ≤ a

variable (files : List (RolloutFile σ))

def collectRolloutDayFiles : List (RolloutFile σ) := sortNewest createdTs files

structure Walk (ν : Type) where
  scannedFiles : Nat
  visitor : ν
  stopped : Bool

namespace Walk

variable {ν : Type}

/-- A loop over directories ends at the scan cap, or when the walk inside it does. -/
def dirs (walk : Walk ν) (names : List Nat) (body : Nat → Walk ν → Walk ν) : Walk ν :=
  names.foldl
    (fun walk name =>
      if walk.stopped then walk
      else if MAX_SCAN_FILES ≤ walk.scannedFiles then { walk with stopped := true }
      else body name walk)
    walk

def file (visit : ν → RolloutFile σ → Nat → ν × Bool) (walk : Walk ν) (file : RolloutFile σ) : Walk ν :=
  if walk.stopped then walk
  else
    let scannedFiles := walk.scannedFiles + 1
    if MAX_SCAN_FILES < scannedFiles then { walk with scannedFiles, stopped := true }
    else
      let (visitor, stopped) := visit walk.visitor file scannedFiles
      { scannedFiles, visitor, stopped }

end Walk

def walkRolloutFiles {ν : Type} (visit : ν → RolloutFile σ → Nat → ν × Bool) (files : List (RolloutFile σ)) (visitor : ν) :
    Walk ν :=
  Walk.dirs ⟨0, visitor, false⟩ (collectDirsDesc (files.map fun file => file.path.ts.year)) fun year walk =>
    let files := files.filter fun file => file.path.ts.year = year
    walk.dirs (collectDirsDesc (files.map fun file => file.path.ts.month)) fun month walk =>
      let files := files.filter fun file => file.path.ts.month = month
      walk.dirs (collectDirsDesc (files.map fun file => file.path.ts.day)) fun day walk =>
        (collectRolloutDayFiles (files.filter fun file => file.path.ts.day = day)).foldl (Walk.file visit) walk

def collectFilesByUpdatedAt : Walk (List (RolloutFile σ)) :=
  walkRolloutFiles (fun candidates file _ => (candidates ++ [file], false)) files []

/-- Reading the root ends at the scan cap. -/
def collectFlatRolloutFiles : List (RolloutFile σ) × Nat :=
  (sortNewest createdTs (files.take MAX_SCAN_FILES), (files.take MAX_SCAN_FILES).length)

def collectFlatFilesByUpdatedAt : List (RolloutFile σ) × Nat :=
  (files.take MAX_SCAN_FILES, (files.take MAX_SCAN_FILES).length)

end

section

variable {σ : Type} [DecidableEq σ] (config : ThreadListConfig σ)

/-! ## Pages -/

def buildNextCursor (items : List (ThreadItem σ)) (sortKey : ThreadSortKey) : Option Cursor :=
  match items.getLast? with
  | some last =>
      match sortKey with
      | .createdAt => some ⟨last.path.ts⟩
      | .updatedAt => (last.updatedAt.bind config.rfc3339.parse).map Cursor.mk
  | none => none

def threadsPage (items : List (ThreadItem σ)) (moreMatchesAvailable : Bool) (scannedFiles : Nat)
    (sortKey : ThreadSortKey) : ThreadsPage σ :=
  let reachedScanCap := decide (MAX_SCAN_FILES ≤ scannedFiles)
  { items, numScannedFiles := scannedFiles, reachedScanCap
    nextCursor := if moreMatchesAvailable || (reachedScanCap && !items.isEmpty) then buildNextCursor config items sortKey
      else none }

structure FilesByCreatedAtVisitor (σ : Type) where
  items : List (ThreadItem σ)
  anchorState : AnchorState
  moreMatchesAvailable : Bool

def FilesByCreatedAtVisitor.visit (pageSize : Nat) (visitor : FilesByCreatedAtVisitor σ) (file : RolloutFile σ)
    (scanned : Nat) : FilesByCreatedAtVisitor σ × Bool :=
  if MAX_SCAN_FILES ≤ scanned ∧ pageSize ≤ visitor.items.length then ({ visitor with moreMatchesAvailable := true }, true)
  else
    let (skip, anchorState) := visitor.anchorState.shouldSkip (createdTs file)
    if skip then ({ visitor with anchorState }, false)
    else if visitor.items.length = pageSize then ({ visitor with anchorState, moreMatchesAvailable := true }, true)
    else
      match threadItem config file with
      | some item => ({ visitor with anchorState, items := visitor.items ++ [item] }, false)
      | none => ({ visitor with anchorState }, false)

def pageLoop (pageSize : Nat) (ts : RolloutFile σ → OffsetDateTime) :
    List (RolloutFile σ) → AnchorState → List (ThreadItem σ) → List (ThreadItem σ) × Bool
  | [], _, items => (items, false)
  | file :: files, anchorState, items =>
      let (skip, anchorState) := anchorState.shouldSkip (ts file)
      if skip then pageLoop pageSize ts files anchorState items
      else if items.length = pageSize then (items, true)
      else
        match threadItem config file with
        | some item => pageLoop pageSize ts files anchorState (items ++ [item])
        | none => pageLoop pageSize ts files anchorState items

variable (files : List (RolloutFile σ)) (pageSize : Nat) (anchor : Option Cursor)

def traverseDirectoriesForPathsCreated : ThreadsPage σ :=
  let walk := walkRolloutFiles (FilesByCreatedAtVisitor.visit config pageSize) files ⟨[], .new anchor, false⟩
  threadsPage config walk.visitor.items walk.visitor.moreMatchesAvailable walk.scannedFiles .createdAt

def traverseDirectoriesForPathsUpdated : ThreadsPage σ :=
  let walk := collectFilesByUpdatedAt files
  let (items, more) := pageLoop config pageSize updatedTs (sortNewest updatedTs walk.visitor) (.new anchor) []
  threadsPage config items more walk.scannedFiles .updatedAt

def traverseFlatPathsCreated : ThreadsPage σ :=
  let (files, scannedFiles) := collectFlatRolloutFiles files
  let (items, more) := pageLoop config pageSize createdTs files (.new anchor) []
  threadsPage config items more scannedFiles .createdAt

def traverseFlatPathsUpdated : ThreadsPage σ :=
  let (candidates, scannedFiles) := collectFlatFilesByUpdatedAt files
  let (items, more) := pageLoop config pageSize updatedTs (sortNewest updatedTs candidates) (.new anchor) []
  threadsPage config items more scannedFiles .updatedAt

def getThreadsInRoot (sortKey : ThreadSortKey) : ThreadsPage σ :=
  match config.layout, sortKey with
  | .nestedByDate, .createdAt => traverseDirectoriesForPathsCreated config files pageSize anchor
  | .nestedByDate, .updatedAt => traverseDirectoriesForPathsUpdated config files pageSize anchor
  | .flat, .createdAt => traverseFlatPathsCreated config files pageSize anchor
  | .flat, .updatedAt => traverseFlatPathsUpdated config files pageSize anchor

end

end CodexStudy.Rollout
