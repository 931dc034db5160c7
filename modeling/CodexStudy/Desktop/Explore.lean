import CodexStudy.Lib.Json

/-!
# Exploring commands (`utils/threadItems.explore.ts`)

Commands that only read, list or search are shown as entries of an explore item.
-/

namespace CodexStudy.Desktop

open CodexStudy.Lib JsString

/-! ## Conversation items (`types.ts`, `utils/threadItems.shared.ts`) -/

inductive MessageRole where
  | user
  | assistant
  deriving DecidableEq

structure UserInputQuestion where
  id : JsString
  header : JsString
  question : JsString
  answers : List JsString
  deriving DecidableEq

inductive ReviewState where
  | started
  | completed
  deriving DecidableEq

inductive ExploreStatus where
  | exploring
  | explored
  deriving DecidableEq

inductive ExploreKind where
  | read
  | search
  | list
  | run
  deriving DecidableEq

structure ExploreEntry where
  kind : ExploreKind
  label : JsString
  detail : Option JsString := none
  deriving DecidableEq

structure ExploreItem where
  id : JsString
  status : ExploreStatus
  entries : List ExploreEntry
  deriving DecidableEq

structure ItemChange where
  path : JsString
  kind : Option JsString := none
  diff : Option JsString := none
  deriving DecidableEq

structure ToolItem where
  id : JsString
  toolType : JsString
  title : JsString
  detail : JsString
  status : Option JsString := none
  output : Option JsString := none
  durationMs : Option Int := none
  changes : Option (List ItemChange) := none
  deriving DecidableEq

inductive ConversationItem where
  | message (id : JsString) (role : MessageRole) (text : JsString) (images : Option (List JsString))
  | userInput (id : JsString) (questions : List UserInputQuestion)
  | reasoning (id summary content : JsString)
  | diff (id title diff : JsString) (status : Option JsString)
  | review (id : JsString) (state : ReviewState) (text : JsString)
  | explore (item : ExploreItem)
  | tool (item : ToolItem)
  deriving DecidableEq

def ConversationItem.id : ConversationItem → JsString
  | message id .. | userInput id _ | reasoning id .. | diff id .. | review id .. => id
  | explore item => item.id
  | tool item => item.id

/-! ## Lengths -/

def MAX_ITEM_TEXT : Nat := 20000

def MAX_LARGE_TOOL_TEXT : Nat := 200000

def LARGE_TOOL_TYPES : List JsString := [ofLiteral "fileChange", ofLiteral "commandExecution"]

def DEFAULT_MAX_ITEMS_PER_THREAD : Nat := 200

def TOOL_OUTPUT_RECENT_ITEMS : Nat := 40

def truncateText (text : JsString) (maxLength : Nat) : JsString :=
  if text.length ≤ maxLength then text else text.take (maxLength - 3) ++ ofLiteral "..."

def truncateToolText (toolType text : JsString) : JsString :=
  truncateText text (if LARGE_TOOL_TYPES.contains toolType then MAX_LARGE_TOOL_TEXT else MAX_ITEM_TEXT)

def ItemChange.truncate (truncate : JsString → JsString) (change : ItemChange) : ItemChange :=
  { change with diff := change.diff.map truncate }

def normalizeQuestion (question : UserInputQuestion) : UserInputQuestion :=
  { question with
    header := truncateText question.header 300
    question := truncateText question.question 2000
    answers := question.answers.map (truncateText · 2000) }

def normalizeTool (item : ToolItem) : ToolItem :=
  { item with
    title := truncateText item.title 200
    detail := truncateText item.detail 2000
    output := item.output.map (truncateToolText item.toolType)
    changes := item.changes.map fun changes => changes.map (ItemChange.truncate (truncateToolText item.toolType)) }

def normalizeItem : ConversationItem → ConversationItem
  | .message id role text images => .message id role (truncateText text MAX_ITEM_TEXT) images
  | .userInput id questions => .userInput id (questions.map normalizeQuestion)
  | .reasoning id summary content =>
      .reasoning id (truncateText summary MAX_ITEM_TEXT) (truncateText content MAX_ITEM_TEXT)
  | .diff id title diff status => .diff id title (truncateText diff MAX_ITEM_TEXT) status
  | .tool item => .tool (normalizeTool item)
  | item => item

/-! ## What does not change -/

theorem truncateText_of_le {text : JsString} {maxLength : Nat} (h : text.length ≤ maxLength) :
    truncateText text maxLength = text := if_pos h

theorem truncateToolText_of_le {text : JsString} (toolType : JsString) (h : text.length ≤ MAX_ITEM_TEXT) :
    truncateToolText toolType text = text := by
  unfold truncateToolText
  split
  next => exact truncateText_of_le (h.trans (by decide))
  next => exact truncateText_of_le h

@[simp] theorem normalizeItem_id (item : ConversationItem) : (normalizeItem item).id = item.id := by
  cases item with
  | _ => rfl

def READ_COMMANDS : List JsString := ["cat", "sed", "head", "tail", "less", "more", "nl"].map ofLiteral

def LIST_COMMANDS : List JsString := ["ls", "tree", "find", "fd"].map ofLiteral

def SEARCH_COMMANDS : List JsString := ["rg", "grep", "ripgrep", "findstr"].map ofLiteral

def RG_FLAGS_WITH_VALUES : List JsString :=
  ["-g", "--glob", "--iglob", "-t", "--type", "--type-add", "--type-not", "-m", "--max-count", "-A", "-B", "-C",
    "--context", "--max-depth"].map ofLiteral

/-! ## Code units -/

def doubleQuote : UInt16 := 34
def singleQuote : UInt16 := 39
def backtick : UInt16 := 96
def ampersand : UInt16 := 38
def semicolon : UInt16 := 59
def verticalBar : UInt16 := 124
def hyphen : UInt16 := 45
def dot : UInt16 := 46
def slash : UInt16 := 47
def backslash : UInt16 := 92

def isSlash (u : UInt16) : Bool := u == slash || u == backslash

/-! ## The command of a title -/

def isShellWord (word : JsString) : Bool :=
  ["bash", "zsh", "sh", "fish"].any fun name => ["", ".exe"].any fun extension =>
    let name := ofLiteral name ++ ofLiteral extension
    word == name ||
      (word.head? == some slash && endsWith word (slash :: name) && name.length + 2 < word.length)

def afterSpaces (start s : JsString) : Option JsString :=
  let rest := s.dropWhile isWhitespace
  if rest.length < s.length ∧ startsWith rest start then some (rest.drop start.length) else none

def shellScript (trimmed : JsString) : Option JsString :=
  if isShellWord (trimmed.takeWhile fun u => !isWhitespace u) then
    (afterSpaces (ofLiteral "-lc") (trimmed.dropWhile fun u => !isWhitespace u)).bind fun rest =>
      (afterSpaces [] rest).bind fun script =>
        match script with
        | [] => none
        | quote :: body =>
            if (quote == singleQuote || quote == doubleQuote) ∧ 2 ≤ body.length ∧ body.getLast? = some quote then
              some body.dropLast
            else some script
  else none

def afterCd (inner : JsString) : Option JsString :=
  let start := inner.dropWhile isWhitespace
  if (toAsciiLowerCase (start.take 2)) = ofLiteral "cd" then
    let operand := (start.drop 2).takeWhile fun u => u != ampersand && u != semicolon
    let rest := (start.drop 2).dropWhile fun u => u != ampersand && u != semicolon
    if 2 ≤ operand.length ∧ operand.head?.any isWhitespace then
      match rest with
      | first :: second :: rest =>
          if first == semicolon then some (second :: rest)
          else if second == ampersand ∧ rest ≠ [] then some rest
          else none
      | _ => none
    else none
  else none

def cleanCommandText (commandText : JsString) : JsString :=
  let trimmed := trim commandText
  let inner := (shellScript trimmed).getD trimmed
  trim ((afterCd inner).getD inner)

/-! ## Segments and tokens -/

/-- The string up to a pipe that stands between white space and outside quotes. -/
def beforePipe (prev : Option UInt16) (inSingle inDouble : Bool) : JsString → JsString
  | [] => []
  | char :: rest =>
      if char == singleQuote && !inDouble then char :: beforePipe (some char) (!inSingle) inDouble rest
      else if char == doubleQuote && !inSingle then char :: beforePipe (some char) inSingle (!inDouble) rest
      else if char == verticalBar && !inSingle && !inDouble && prev.all isWhitespace && rest.head?.all isWhitespace then
        []
      else char :: beforePipe (some char) inSingle inDouble rest

def trimAtPipe (command : JsString) : JsString := trim (beforePipe none false false command)

/-- The parts between `&&` and `;`. White space around the separators is taken off when the parts are trimmed. -/
def splitAtSeparators : JsString → List JsString
  | [] => [[]]
  | [char] => if char == semicolon then [[], []] else [[char]]
  | char :: next :: rest =>
      if char == semicolon then [] :: splitAtSeparators (next :: rest)
      else if char == ampersand && next == ampersand then [] :: splitAtSeparators rest
      else
        match splitAtSeparators (next :: rest) with
        | segment :: segments => (char :: segment) :: segments
        | [] => [[char]]

def splitCommandSegments (command : JsString) : List JsString :=
  ((splitAtSeparators command).map fun segment => trim (trimAtPipe segment)).filter fun segment => segment ≠ []

/-- The tokens of a command: what stands between quotes, or a run without white space. -/
def tokensFrom : Nat → JsString → List JsString
  | 0, _ => []
  | _, [] => []
  | fuel + 1, char :: rest =>
      if isWhitespace char then tokensFrom fuel rest
      else if (char == doubleQuote || char == singleQuote || char == backtick) && rest.contains char then
        rest.takeWhile (· != char) :: tokensFrom fuel ((rest.dropWhile (· != char)).drop 1)
      else
        (char :: rest.takeWhile fun u => !isWhitespace u) :: tokensFrom fuel (rest.dropWhile fun u => !isWhitespace u)

def tokenizeCommand (command : JsString) : List JsString :=
  (tokensFrom command.length command).filter fun token => token ≠ []

/-! ## Operands -/

def isOptionToken (token : JsString) : Bool := token.head? == some hyphen

def isAsciiAlphanumeric (u : UInt16) : Bool :=
  (48 ≤ u && u ≤ 57) || (65 ≤ u && u ≤ 90) || (97 ≤ u && u ≤ 122)

def hasPathlikeEnd (token : JsString) : Bool :=
  let extension := token.rtakeWhile isAsciiAlphanumeric
  (extension ≠ [] ∧ (token.rdropWhile isAsciiAlphanumeric).getLast? = some dot) ||
    token == [dot] || token == [dot, dot]

def hasGlobHint (token : JsString) : Bool := token.any fun u => (ofLiteral "*?[]\x7b\x7d").contains u

def isPathLike (token : JsString) : Bool :=
  token ≠ [] && !isOptionToken token && !hasGlobHint token && (token.any isSlash || hasPathlikeEnd token)

/-- The tokens that are no options and, for `rg`, no values of options. -/
def operandsFrom (commandName : JsString) : List JsString → List JsString
  | [] => []
  | token :: rest =>
      if isOptionToken token then
        if commandName = ofLiteral "rg" ∧ RG_FLAGS_WITH_VALUES.contains token then
          match rest with
          | [] => []
          | _ :: rest => operandsFrom commandName rest
        else operandsFrom commandName rest
      else token :: operandsFrom commandName rest

variable (tokens : List JsString)

def collectNonFlagOperands (commandName : JsString) : List JsString :=
  operandsFrom commandName (tokens.drop 1)

def commandNameOf : JsString := toAsciiLowerCase (tokens.head?.getD [])

def findPathTokens : List JsString :=
  let positional := collectNonFlagOperands tokens (commandNameOf tokens)
  let pathLike := positional.filter isPathLike
  if pathLike ≠ [] then pathLike else positional

/-! ## Entries -/

def fileNameOf (path : JsString) : Option JsString := ((path.splitOnP isSlash).filter (· ≠ [])).getLast?

def readEntry (path : JsString) : ExploreEntry :=
  let name := (fileNameOf path).getD path
  if name ≠ [] ∧ name ≠ path then { kind := .read, label := name, detail := some path }
  else { kind := .read, label := path }

def readKey (entry : ExploreEntry) : JsString :=
  match entry.detail with
  | none | some [] => entry.label
  | some detail => entry.label ++ verticalBar :: detail

def dedupeBy (key : ExploreEntry → JsString) (seen : List JsString) : List ExploreEntry → List ExploreEntry
  | [] => []
  | entry :: rest =>
      if seen.contains (key entry) then dedupeBy key seen rest
      else entry :: dedupeBy key (key entry :: seen) rest

def parseRead : Option (List ExploreEntry) :=
  let paths := (findPathTokens tokens).filter (· ≠ [])
  if paths = [] then none else some (dedupeBy readKey [] (paths.map readEntry))

def parseList : ExploreEntry :=
  { kind := .list, label := ((findPathTokens tokens).getLast?.filter (· ≠ [])).getD (tokens.head?.getD []) }

def parseSearch : Option ExploreEntry :=
  let commandName := commandNameOf tokens
  if tokens.head? = some (ofLiteral "rg") ∧ tokens.contains (ofLiteral "--files") then
    some { kind := .list, label := ((findPathTokens tokens).getLast?.filter (· ≠ [])).getD (ofLiteral "rg --files") }
  else
    match collectNonFlagOperands tokens commandName with
    | [] => none
    | query :: operands =>
        let rawPath := operands.head?.getD []
        let path := if commandName = ofLiteral "rg" then rawPath else if isPathLike rawPath then rawPath else []
        some { kind := .search, label := if path ≠ [] then query ++ ofLiteral " in " ++ path else query }

def parseCommandSegment (command : JsString) : Option (List ExploreEntry) :=
  let tokens := tokenizeCommand command
  if tokens = [] then none
  else if READ_COMMANDS.contains (commandNameOf tokens) then parseRead tokens
  else if LIST_COMMANDS.contains (commandNameOf tokens) then some [parseList tokens]
  else if SEARCH_COMMANDS.contains (commandNameOf tokens) then (parseSearch tokens).map fun entry => [entry]
  else none

def coalesceReadEntries (seenReads : List JsString) : List ExploreEntry → List ExploreEntry
  | [] => []
  | entry :: rest =>
      if entry.kind ≠ .read then entry :: coalesceReadEntries seenReads rest
      else if seenReads.contains (readKey entry) then coalesceReadEntries seenReads rest
      else entry :: coalesceReadEntries (readKey entry :: seenReads) rest

def ExploreKind.name : ExploreKind → JsString
  | read => ofLiteral "read"
  | search => ofLiteral "search"
  | list => ofLiteral "list"
  | run => ofLiteral "run"

def entryKey (entry : ExploreEntry) : JsString :=
  entry.kind.name ++ verticalBar :: (entry.label ++ verticalBar :: entry.detail.getD [])

def mergeExploreEntries (base next : List ExploreEntry) : List ExploreEntry := dedupeBy entryKey [] (base ++ next)

/-! ## Summaries -/

def normalizeCommandStatus (status : Option JsString) : ExploreStatus :=
  let normalized := toAsciiLowerCase (status.getD [])
  if ["pending", "running", "processing", "started", "inprogress", "in_progress", "in progress", "in-progress"].any
      fun word => includes normalized (ofLiteral word) then .exploring
  else .explored

def isFailedStatus (status : Option JsString) : Bool :=
  ["fail", "error"].any fun word => includes (toAsciiLowerCase (status.getD [])) (ofLiteral word)

def rawCommandOf (title : JsString) : JsString :=
  let start := ofLiteral "command:"
  trim (if toAsciiLowerCase (title.take start.length) = start then (title.drop start.length).dropWhile isWhitespace
    else title)

def commandEntries (title : JsString) : Option (List ExploreEntry) :=
  let cleaned := cleanCommandText (rawCommandOf title)
  let segments := splitCommandSegments cleaned
  if cleaned = [] ∨ segments = [] then none
  else
    (segments.mapM parseCommandSegment).bind fun parsed =>
      if parsed.flatten = [] then none else some (coalesceReadEntries [] parsed.flatten)

def summarizeCommandExecution (item : ToolItem) : Option ExploreItem :=
  if isFailedStatus item.status then none
  else (commandEntries item.title).map fun entries =>
    { id := item.id, status := normalizeCommandStatus item.status, entries }

def exploreOf : ConversationItem → Option ExploreItem
  | .explore item => some item
  | .tool item => if item.toolType = ofLiteral "commandExecution" then summarizeCommandExecution item else none
  | _ => none

def pushExplore (result : List ConversationItem) (item : ExploreItem) : List ConversationItem :=
  match result.getLast? with
  | some (.explore last) =>
      if last.status = item.status then
        result.dropLast ++ [.explore { last with entries := mergeExploreEntries last.entries item.entries }]
      else result ++ [.explore item]
  | _ => result ++ [.explore item]

def pushItem (result : List ConversationItem) (item : ConversationItem) : List ConversationItem :=
  match exploreOf item with
  | some summary => pushExplore result summary
  | none => result ++ [item]

def summarizeExploration (items : List ConversationItem) : List ConversationItem := items.foldl pushItem []

/-! ## The items that are shown -/

/-- An answer that says again what the completed review before it says. -/
def repeatsReview (last : Option ConversationItem) : ConversationItem → Bool
  | .message _ .assistant text _ =>
      match last with
      | some (.review _ .completed reviewText) => trim text == trim reviewText
      | _ => false
  | _ => false

def dropRepeatedReviews (last : Option ConversationItem) : List ConversationItem → List ConversationItem
  | [] => []
  | item :: rest =>
      if repeatsReview last item then dropRepeatedReviews last rest
      else item :: dropRepeatedReviews (some item) rest

def scrollbackLimit (maxItemsPerThread : Option Nat) : Option Nat :=
  maxItemsPerThread.map fun limit => if 0 < limit then limit else DEFAULT_MAX_ITEMS_PER_THREAD

def limitItems (limit : Option Nat) (items : List ConversationItem) : List ConversationItem :=
  match limit with
  | none => items
  | some limit => items.drop (items.length - limit)

def truncateOldItem : ConversationItem → ConversationItem
  | .tool item => .tool { item with
      output := item.output.map (truncateText · MAX_ITEM_TEXT)
      changes := item.changes.map fun changes => changes.map (ItemChange.truncate (truncateText · MAX_ITEM_TEXT)) }
  | item => item

def truncateOldItems (items : List ConversationItem) : List ConversationItem :=
  let cutoff := items.length - TOOL_OUTPUT_RECENT_ITEMS
  (items.take cutoff).map truncateOldItem ++ items.drop cutoff

def prepareThreadItems (items : List ConversationItem) (maxItemsPerThread : Option Nat) : List ConversationItem :=
  let filtered := dropRepeatedReviews none items
  let normalized := filtered.map normalizeItem
  let limited := limitItems (scrollbackLimit maxItemsPerThread) normalized
  truncateOldItems (summarizeExploration limited)

end CodexStudy.Desktop
