import CodexStudy.Lib.Text

/-!
# Commands that are approved without asking (`command_safety/is_safe_command.rs`, `is_dangerous_command.rs`)

Programs that only read, and options that such a program must not be called with.
-/

namespace CodexStudy.ShellCommand

open CodexStudy.Lib

/-! ## Trees (`shell-command/src/bash.rs`) -/

/-- A node of the tree of a script, with the part of the script it stands for. -/
inductive Node where
  | mk (kind : Text) (named : Bool) (startByte : Nat) (text : Text) (children : List Node)

namespace Node

def kind : Node → Text
  | mk kind .. => kind

def named : Node → Bool
  | mk _ named .. => named

def startByte : Node → Nat
  | mk _ _ startByte .. => startByte

def text : Node → Text
  | mk _ _ _ text _ => text

def children : Node → List Node
  | mk _ _ _ _ children => children

def namedChildren (node : Node) : List Node := node.children.filter named

def isKind (node : Node) (kind : String) : Bool := node.kind == kind.toList

mutual

def nodes : Node → List Node
  | mk kind named startByte text children => mk kind named startByte text children :: nodesOf children

def nodesOf : List Node → List Node
  | [] => []
  | node :: rest => node.nodes ++ nodesOf rest

end

end Node

structure Tree where
  root : Node
  hasError : Bool

/-! ## What a script may contain -/

def ALLOWED_KINDS : List Text :=
  ["program", "list", "pipeline", "command", "command_name", "word", "string", "string_content", "raw_string", "number",
    "concatenation"].map String.toList

def ALLOWED_PUNCT_TOKENS : List Text := ["&&", "||", ";", "|", "\"", "'"].map String.toList

def isAllowedToken (kind : Text) : Bool :=
  ALLOWED_PUNCT_TOKENS.contains kind || (!(kind.any fun c => "&;|".toList.contains c) && Text.trim kind == [])

variable (node : Node)

def isAllowed : Bool := if node.named then ALLOWED_KINDS.contains node.kind else isAllowedToken node.kind

def commandNodes : Nat → List Node → List Node → Option (List Node)
  | 0, _, _ => none
  | _, [], found => some found
  | fuel + 1, node :: stack, found =>
      if isAllowed node then
        commandNodes fuel (node.children.reverse ++ stack)
          (if node.named && node.isKind "command" then found ++ [node] else found)
      else none

/-! ## The words that are checked -/

def stripQuotes (quote : Char) : Text → Option Text
  | [] => none
  | first :: rest => if first = quote ∧ rest.getLast? = some quote then some rest.dropLast else none

def parseDoubleQuotedString : Option Text :=
  if node.isKind "string" then
    if node.namedChildren.all fun part => part.isKind "string_content" then stripQuotes '"' node.text else none
  else none

def parseRawString : Option Text :=
  if node.isKind "raw_string" then stripQuotes '\'' node.text else none

def parsePart : Option Text :=
  if node.isKind "word" || node.isKind "number" then some node.text
  else if node.isKind "string" then parseDoubleQuotedString node
  else if node.isKind "raw_string" then parseRawString node
  else none

def parseConcatenation : Option Text :=
  (node.namedChildren.mapM parsePart).bind fun parts => if parts.flatten = [] then none else some parts.flatten

def parseWord : Option Text :=
  if node.isKind "command_name" then
    node.namedChildren.head?.bind fun word => if word.isKind "word" then some word.text else none
  else if node.isKind "concatenation" then parseConcatenation node
  else parsePart node

def parsePlainCommandFromNode : Option (List Text) :=
  if node.isKind "command" then node.namedChildren.mapM parseWord else none

def tryParseWordOnlyCommandsSequence (tree : Tree) : Option (List (List Text)) :=
  if tree.hasError then none
  else
    (commandNodes (tree.root.nodes.length + 1) [tree.root] []).bind fun nodes =>
      (nodes.mergeSort fun a b => a.startByte ≤ b.startByte).mapM parsePlainCommandFromNode

/-! ## The words that the shell passes on -/

/-- A backslash outside quotes makes the next character stand for itself; with the end of a line it is removed. -/
def unescapeWord : Text → Text
  | [] => []
  | [c] => [c]
  | c :: next :: rest =>
      if c = '\\' then if next = '\n' then unescapeWord rest else next :: unescapeWord rest
      else c :: unescapeWord (next :: rest)

/-- Between double quotes a backslash is removed before the characters that would be special there. -/
def unescapeDoubleQuoted : Text → Text
  | [] => []
  | [c] => [c]
  | c :: next :: rest =>
      if c = '\\' ∧ next = '\n' then unescapeDoubleQuoted rest
      else if c = '\\' ∧ ['$', '\x60', '"', '\\'].contains next then next :: unescapeDoubleQuoted rest
      else c :: unescapeDoubleQuoted (next :: rest)

def shellPart : Text :=
  if node.isKind "word" then unescapeWord node.text
  else if node.isKind "string" then unescapeDoubleQuoted ((stripQuotes '"' node.text).getD [])
  else if node.isKind "raw_string" then (stripQuotes '\'' node.text).getD []
  else node.text

def shellWord : Text :=
  if node.isKind "command_name" then (node.namedChildren.head?.map shellPart).getD []
  else if node.isKind "concatenation" then (node.namedChildren.map shellPart).flatten
  else shellPart node

def shellArgv : List Text := node.namedChildren.map shellWord

def Tree.commands (tree : Tree) : List Node :=
  tree.root.nodes.filter fun node => node.named && node.isKind "command"

/-! ## Programs -/

/-- The last part of a path that is neither empty nor a dot, unless it is two dots. -/
def executableNameLookupKey (raw : Text) : Option Text :=
  ((raw.splitOn '/').filter fun part => part ≠ [] ∧ part ≠ ['.']).getLast?.filter fun name => name ≠ ['.', '.']

def READ_ONLY_PROGRAMS : List Text :=
  ["cat", "cd", "cut", "echo", "expr", "false", "grep", "head", "id", "ls", "nl", "paste", "pwd", "rev", "seq", "stat",
    "tail", "tr", "true", "uname", "uniq", "wc", "which", "whoami"].map String.toList

def LINUX_READ_ONLY_PROGRAMS : List Text := ["numfmt", "tac"].map String.toList

/-! ## Options -/

inductive OptionPattern where
  | exact (option : Text)
  | shortWithInlineValue (option : Text)
  | startsWith (start : Text)
  deriving DecidableEq

def OptionPattern.matches (arg : Text) : OptionPattern → Bool
  | exact option => arg == option
  | shortWithInlineValue option => option.isPrefixOf arg && option.length < arg.length
  | startsWith start => start.isPrefixOf arg

def matchesOptionPattern (arg : Text) (patterns : List OptionPattern) : Bool := patterns.any (OptionPattern.matches arg)

def UNSAFE_BASE64_OPTIONS : List OptionPattern :=
  [.exact "-o", .exact "--output", .startsWith "--output=", .shortWithInlineValue "-o"]

def UNSAFE_FIND_OPTIONS : List OptionPattern :=
  ["-exec", "-execdir", "-ok", "-okdir", "-delete", "-fls", "-fprint", "-fprint0", "-fprintf"].map
    fun option => .exact option.toList

def UNSAFE_RIPGREP_OPTIONS : List OptionPattern :=
  [.exact "--search-zip", .exact "-z", .exact "--pre", .startsWith "--pre=",
    .exact "--hostname-bin", .startsWith "--hostname-bin="]

/-! ## Git -/

def GIT_GLOBAL_OPTIONS_WITH_VALUE : List Text :=
  ["-C", "-c", "--config-env", "--exec-path", "--git-dir", "--namespace", "--super-prefix", "--work-tree"].map
    String.toList

def GIT_GLOBAL_OPTIONS_WITH_INLINE_VALUE : List OptionPattern :=
  ["--config-env=", "--exec-path=", "--git-dir=", "--namespace=", "--super-prefix=", "--work-tree="].map
      (fun start => .startsWith start.toList) ++
    [.shortWithInlineValue "-C", .shortWithInlineValue "-c"]

def UNSAFE_GIT_GLOBAL_OPTIONS : List OptionPattern :=
  [.exact "-C", .shortWithInlineValue "-C", .exact "-c", .shortWithInlineValue "-c",
    .exact "-p", .exact "--config-env", .startsWith "--config-env=", .exact "--exec-path",
    .startsWith "--exec-path=", .exact "--git-dir", .startsWith "--git-dir=",
    .exact "--namespace", .startsWith "--namespace=", .exact "--paginate",
    .exact "--super-prefix", .startsWith "--super-prefix=", .exact "--work-tree",
    .startsWith "--work-tree="]

def UNSAFE_GIT_SUBCOMMAND_OPTIONS : List OptionPattern :=
  [.exact "--output", .startsWith "--output=", .exact "--ext-diff", .exact "--textconv",
    .exact "--exec", .startsWith "--exec="]

def READ_ONLY_GIT_SUBCOMMANDS : List Text := ["status", "log", "diff", "show", "branch"].map String.toList

/-- Where the subcommand stands among the words after `git`, if it is one of the given ones. -/
def findSubcommandFrom (subcommands : List Text) (skipNext : Bool) : List Text → Option (Nat × Text)
  | [] => none
  | arg :: rest =>
      if skipNext then (findSubcommandFrom subcommands false rest).map fun found => (found.1 + 1, found.2)
      else if matchesOptionPattern arg GIT_GLOBAL_OPTIONS_WITH_INLINE_VALUE then
        (findSubcommandFrom subcommands false rest).map fun found => (found.1 + 1, found.2)
      else if GIT_GLOBAL_OPTIONS_WITH_VALUE.contains arg then
        (findSubcommandFrom subcommands true rest).map fun found => (found.1 + 1, found.2)
      else if arg == "--" || arg.head? == some '-' then
        (findSubcommandFrom subcommands false rest).map fun found => (found.1 + 1, found.2)
      else if subcommands.contains arg then some (0, arg)
      else none

def findGitSubcommand (command subcommands : List Text) : Option (Nat × Text) :=
  command.head?.bind fun cmd0 =>
    if executableNameLookupKey cmd0 = some "git".toList then
      (findSubcommandFrom subcommands false (command.drop 1)).map fun found => (found.1 + 1, found.2)
    else none

def GIT_BRANCH_READ_ONLY_FLAGS : List Text :=
  ["--list", "-l", "--show-current", "-a", "--all", "-r", "--remotes", "-v", "-vv", "--verbose"].map String.toList

def gitBranchIsReadOnly (branchArgs : List Text) : Bool :=
  branchArgs.all fun arg => GIT_BRANCH_READ_ONLY_FLAGS.contains arg || "--format=".toList.isPrefixOf arg

def gitHasUnsafeGlobalOption (globalArgs : List Text) : Bool :=
  globalArgs.any fun arg => matchesOptionPattern arg UNSAFE_GIT_GLOBAL_OPTIONS

def gitSubcommandArgsAreReadOnly (args : List Text) : Bool :=
  !args.any fun arg => matchesOptionPattern arg UNSAFE_GIT_SUBCOMMAND_OPTIONS

def isSafeGitCommand (command : List Text) : Bool :=
  match findGitSubcommand command READ_ONLY_GIT_SUBCOMMANDS with
  | none => false
  | some (subcommandIdx, subcommand) =>
      let globalArgs := (command.take subcommandIdx).drop 1
      let subcommandArgs := command.drop (subcommandIdx + 1)
      if gitHasUnsafeGlobalOption globalArgs then false
      else if subcommand = "branch" then
        gitSubcommandArgsAreReadOnly subcommandArgs && gitBranchIsReadOnly subcommandArgs
      else gitSubcommandArgsAreReadOnly subcommandArgs

/-! ## Commands -/

def isAsciiDigits (s : Text) : Bool := s ≠ [] && s.all Char.isDigit

/-- One or two line numbers and a `p`. -/
def isValidSedNArg (arg : Text) : Bool :=
  arg.getLast? == some 'p' &&
    match arg.dropLast.splitOn ',' with
    | [num] => isAsciiDigits num
    | [a, b] => isAsciiDigits a && isAsciiDigits b
    | _ => false

def isSafeSed (command : List Text) : Bool :=
  command.length ≤ 4 && command[1]? == some "-n".toList && command[2]?.any isValidSedNArg

def isSafeToCallWithExec (linux : Bool) (command : List Text) : Bool :=
  match command with
  | [] => false
  | cmd0 :: args =>
      match executableNameLookupKey cmd0 with
      | none => false
      | some cmd =>
          if linux && LINUX_READ_ONLY_PROGRAMS.contains cmd then true
          else if READ_ONLY_PROGRAMS.contains cmd then true
          else if cmd = "base64" then !args.any fun arg => matchesOptionPattern arg UNSAFE_BASE64_OPTIONS
          else if cmd = "find" then
            !(cmd0 :: args).any fun arg => matchesOptionPattern arg UNSAFE_FIND_OPTIONS
          else if cmd = "rg" then
            !(cmd0 :: args).any fun arg => matchesOptionPattern arg UNSAFE_RIPGREP_OPTIONS
          else if cmd = "git" then isSafeGitCommand (cmd0 :: args)
          else cmd = "sed" && isSafeSed (cmd0 :: args)

def approvesScript (linux : Bool) (tree : Tree) : Bool :=
  (tryParseWordOnlyCommandsSequence tree).any fun commands =>
    commands ≠ [] && commands.all (isSafeToCallWithExec linux)

end CodexStudy.ShellCommand
