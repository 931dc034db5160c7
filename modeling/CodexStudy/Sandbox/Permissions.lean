import CodexStudy.Lib.MostSpecific
import CodexStudy.Sandbox.Paths
import Mathlib.Data.List.Destutter
import Mathlib.Data.List.Lex
import Mathlib.Data.Char

/-!
# File system permissions

A policy is a list of entries that give an access mode to a path.
-/

namespace CodexStudy.Sandbox

open CodexStudy.Lib
open CodexStudy.ApplyPatch (AbsolutePath ProcessEnv Files isAbsolute components)

/-- The process and the files it sees; there are no symbolic links among them. -/
structure Host extends ProcessEnv where
  files : Files := FileTree.empty

namespace Host

def isDir (host : Host) (p : AbsolutePath) : Bool := host.files.node? p.names = some .dir

def isFile (host : Host) (p : AbsolutePath) : Bool := (host.files.file? p.names).isSome

def pathExists (host : Host) (p : AbsolutePath) : Bool := host.files.present p.names

end Host

/-! ## Access modes and entries -/

inductive FileSystemAccessMode where
  | read
  | write
  | none
  deriving DecidableEq

variable {a : FileSystemAccessMode}

namespace FileSystemAccessMode

def rank : FileSystemAccessMode → Nat
  | read => 0
  | write => 1
  | none => 2

theorem rank_injective : Function.Injective rank := by
  intro a b h
  cases a <;> cases b <;> first | rfl | exact absurd h (by decide)

/-- Which of two equally specific entries wins: `none` over `write` over `read`. -/
instance : LinearOrder FileSystemAccessMode := LinearOrder.lift' rank rank_injective

def canRead : FileSystemAccessMode → Bool
  | none => false
  | _ => true

def canWrite : FileSystemAccessMode → Bool
  | write => true
  | _ => false

@[simp] theorem canWrite_iff : a.canWrite = true ↔ a = write := by cases a <;> decide

@[simp] theorem canRead_iff : a.canRead = true ↔ a ≠ none := by cases a <;> decide

@[simp] theorem none_le_iff : none ≤ a ↔ a = none := by cases a <;> decide

end FileSystemAccessMode

inductive FileSystemSpecialPath where
  | root
  | minimal
  | projectRoots (subpath : Option Text)
  | tmpdir
  | slashTmp
  | unknown (path : Text) (subpath : Option Text)
  deriving DecidableEq

inductive FileSystemPath where
  | path (path : AbsolutePath)
  | globPattern (pattern : Text)
  | special (value : FileSystemSpecialPath)
  deriving DecidableEq

def FileSystemPath.globPattern? : FileSystemPath → Option Text
  | globPattern pattern => some pattern
  | _ => none

structure FileSystemSandboxEntry where
  path : FileSystemPath
  access : FileSystemAccessMode
  deriving DecidableEq

def pathEntry (path : String) (access : FileSystemAccessMode) : FileSystemSandboxEntry :=
  ⟨.path (AbsolutePath.absolutizeFrom path.toList .root), access⟩

/-- A writable directory below a read-only one below a writable one. -/
def nestedEntries : List FileSystemSandboxEntry :=
  [pathEntry "/w" .write, pathEntry "/w/docs" .read, pathEntry "/w/docs/notes" .write]

inductive FileSystemSandboxKind where
  | restricted
  | unrestricted
  | externalSandbox
  deriving DecidableEq

structure FileSystemSandboxPolicy where
  kind : FileSystemSandboxKind := .restricted
  globScanMaxDepth : Option Nat := none
  entries : List FileSystemSandboxEntry

variable (host : Host) (policy : FileSystemSandboxPolicy) (cwd : Text)

structure ResolvedFileSystemEntry where
  path : AbsolutePath
  access : FileSystemAccessMode
  deriving DecidableEq

/-! ## Resolving the paths of the entries -/

def slashTmpPath : AbsolutePath := ⟨["tmp"], by decide⟩

def absoluteRootPathForCwd (_cwd : AbsolutePath) : AbsolutePath := .root

def resolveFileSystemSpecialPath (cwd : Option AbsolutePath) :
    FileSystemSpecialPath → Option AbsolutePath
  | .root | .minimal | .unknown _ _ => none
  | .projectRoots none => cwd
  | .projectRoots (some subpath) => cwd.map fun cwd => cwd.join host.toProcessEnv subpath
  | .tmpdir => host.tmpdir.bind fun tmpdir =>
      if tmpdir = [] then none else AbsolutePath.fromAbsolutePath host.toProcessEnv tmpdir
  | .slashTmp => if host.isDir slashTmpPath then some slashTmpPath else none

def resolveFileSystemPath (cwd : Option AbsolutePath) : FileSystemPath → Option AbsolutePath
  | .path path => some path
  | .globPattern _ => none
  | .special value => resolveFileSystemSpecialPath host cwd value

def resolveEntryPath (cwd : Option AbsolutePath) : FileSystemPath → Option AbsolutePath
  | .special .root => cwd.map absoluteRootPathForCwd
  | path => resolveFileSystemPath host cwd path

def resolveCandidatePath (path cwd : Text) : Option AbsolutePath :=
  if isAbsolute path then AbsolutePath.fromAbsolutePath host.toProcessEnv path
  else (AbsolutePath.fromAbsolutePath host.toProcessEnv cwd).map fun cwd => cwd.join host.toProcessEnv path

/-! ## Paths with the same target -/

def pathParts (path : Text) : List Text :=
  match components path with
  | ['.'] :: cs => (if isAbsolute path then [] else [['.']]) ++ cs.filter (· ≠ ['.'])
  | cs => cs.filter (· ≠ ['.'])

def samePath (left right : Text) : Bool :=
  decide (isAbsolute left ↔ isAbsolute right) && pathParts left == pathParts right

def sameSubpath : Option Text → Option Text → Bool
  | none, none => true
  | some left, some right => samePath left right
  | _, _ => false

def specialPathsShareTarget : FileSystemSpecialPath → FileSystemSpecialPath → Bool
  | .root, .root | .minimal, .minimal | .tmpdir, .tmpdir | .slashTmp, .slashTmp => true
  | .projectRoots left, .projectRoots right => sameSubpath left right
  | .unknown left leftSubpath, .unknown right rightSubpath => left == right && sameSubpath leftSubpath rightSubpath
  | _, _ => false

def specialPathMatchesAbsolutePath : FileSystemSpecialPath → AbsolutePath → Bool
  | .root, path => path.parent.isNone
  | .slashTmp, path => path == slashTmpPath
  | _, _ => false

def fileSystemPathsShareTarget : FileSystemPath → FileSystemPath → Bool
  | .path left, .path right => left == right
  | .special left, .special right => specialPathsShareTarget left right
  | .path path, .special value | .special value, .path path => specialPathMatchesAbsolutePath value path
  | .globPattern left, .globPattern right => left == right
  | .globPattern _, _ | _, .globPattern _ => false

/-! ## Access to the whole disk -/

namespace FileSystemSandboxPolicy

def unrestricted : FileSystemSandboxPolicy := { kind := .unrestricted, entries := [] }

def externalSandbox : FileSystemSandboxPolicy := { kind := .externalSandbox, entries := [] }

def restricted (entries : List FileSystemSandboxEntry) : FileSystemSandboxPolicy := { entries }

def hasRootAccess (predicate : FileSystemAccessMode → Bool) : Bool :=
  policy.kind == .restricted && policy.entries.any fun entry => entry.path == .special .root && predicate entry.access

def hasDeniedReadRestrictions : Bool :=
  policy.kind == .restricted && policy.entries.any fun entry => entry.access == .none

def hasSameTargetWriteOverride (entry : FileSystemSandboxEntry) : Bool :=
  policy.entries.any fun candidate =>
    candidate.access.canWrite && decide (entry.access < candidate.access) &&
      fileSystemPathsShareTarget candidate.path entry.path

def narrowsWrite (entry : FileSystemSandboxEntry) : Bool :=
  !entry.access.canWrite &&
    match entry.path with
    | .path _ => !policy.hasSameTargetWriteOverride entry
    | .globPattern _ => true
    | .special .root => entry.access == .none
    | .special .minimal | .special (.unknown _ _) => false
    | .special _ => !policy.hasSameTargetWriteOverride entry

def hasWriteNarrowingEntries : Bool :=
  policy.kind == .restricted && policy.entries.any policy.narrowsWrite

def hasFullDiskReadAccess : Bool :=
  match policy.kind with
  | .unrestricted | .externalSandbox => true
  | .restricted => policy.hasRootAccess FileSystemAccessMode.canRead && !policy.hasDeniedReadRestrictions

def hasFullDiskWriteAccess : Bool :=
  match policy.kind with
  | .unrestricted | .externalSandbox => true
  | .restricted => policy.hasRootAccess FileSystemAccessMode.canWrite && !policy.hasWriteNarrowingEntries

def includePlatformDefaults : Bool :=
  !policy.hasFullDiskReadAccess && policy.kind == .restricted &&
    policy.entries.any fun entry => entry.path == .special .minimal && entry.access.canRead

/-! ## Access to a path -/

def resolvedEntriesWithCwd :
    List ResolvedFileSystemEntry :=
  let cwdAbsolute := AbsolutePath.fromAbsolutePath host.toProcessEnv cwd
  policy.entries.filterMap fun entry =>
    (resolveEntryPath host cwdAbsolute entry.path).map fun path => ⟨path, entry.access⟩

end FileSystemSandboxPolicy

variable (entries : List ResolvedFileSystemEntry) (target : AbsolutePath)

def resolveAccess (path : AbsolutePath) : FileSystemAccessMode :=
  ((mostSpecific? (fun e => e.path.names) ResolvedFileSystemEntry.access entries path.names).map
    ResolvedFileSystemEntry.access).getD .none

namespace FileSystemSandboxPolicy

def resolveAccessWithCwd (path cwd : Text) : FileSystemAccessMode :=
  match policy.kind with
  | .unrestricted | .externalSandbox => .write
  | .restricted =>
      match resolveCandidatePath host path cwd with
      | none => .none
      | some path => resolveAccess (policy.resolvedEntriesWithCwd host cwd) path

def canReadPathWithCwd (path cwd : Text) : Bool :=
  (policy.resolveAccessWithCwd host path cwd).canRead

end FileSystemSandboxPolicy

/-! ## Metadata of writable roots -/

def protectedMetadataPathNames : List Text := [".git", ".agents", ".codex"]

def metadataPathName (name : Text) : Option Text := protectedMetadataPathNames.find? (· == name)

def stripPrefix (path base : AbsolutePath) : Option (List Text) :=
  if path.StartsWith base then some (path.names.drop base.names.length) else none

def metadataChildOf (entry : ResolvedFileSystemEntry) :
    Option (AbsolutePath × Text) :=
  (stripPrefix target entry.path).bind fun relative =>
    (relative.head?.bind metadataPathName).map fun name => (entry.path.join host.toProcessEnv name, name)

def metadataChildOfWritableRoot :
    Option (AbsolutePath × Text) :=
  (entries.filter fun entry => entry.access.canWrite).findSome? (metadataChildOf host target)

def hasExplicitWriteEntryForMetadataPath (protectedMetadataPath target : AbsolutePath) : Bool :=
  entries.any fun entry => entry.access.canWrite && decide (target.StartsWith entry.path) &&
    decide (entry.path.StartsWith protectedMetadataPath)

def metadataWriteDenied : Bool :=
  match metadataChildOfWritableRoot host entries target with
  | none => false
  | some (protectedMetadataPath, _) => !hasExplicitWriteEntryForMetadataPath entries protectedMetadataPath target

namespace FileSystemSandboxPolicy

def isMetadataWriteDenied (path cwd : Text) : Bool :=
  match policy.kind with
  | .unrestricted | .externalSandbox => false
  | .restricted =>
      match resolveCandidatePath host path cwd with
      | none => true
      | some target => metadataWriteDenied host (policy.resolvedEntriesWithCwd host cwd) target

def canWritePathWithCwd (path cwd : Text) : Bool :=
  if !(policy.resolveAccessWithCwd host path cwd).canWrite then false
  else if policy.hasFullDiskWriteAccess then true
  else !policy.isMetadataWriteDenied host path cwd

end FileSystemSandboxPolicy

/-! ## Lists of paths -/

def normalizeEffectiveAbsolutePath (_host : Host) (path : AbsolutePath) : AbsolutePath := path

/-- The paths without those that came before. -/
def dedupAbsolutePaths (paths : List AbsolutePath) (normalizeEffectivePaths : Bool) : List AbsolutePath :=
  (paths.map fun path => if normalizeEffectivePaths then normalizeEffectiveAbsolutePath host path else path).eraseDups

def sortedAbsolutePaths (paths : List AbsolutePath) : List AbsolutePath :=
  paths.insertionSort fun left right => left.names ≤ right.names

def resolveAgainstCwd (path cwd : Text) : AbsolutePath :=
  (AbsolutePath.absolutizeFrom cwd .root).join host.toProcessEnv path

/-! ## Default read-only paths -/

def splitOnce (c : Char) (s : Text) : Option (Text × Text) :=
  if c ∈ s then some (s.takeWhile (· != c), (s.dropWhile (· != c)).tail) else none

def isGitPointerFile (path : AbsolutePath) : Bool :=
  host.isFile path && path.fileName == some ".git".toList

/-- Where the file `.git` of a linked worktree points to, if it points to something that exists. -/
def resolveGitdirFromFile (dotGit : AbsolutePath) : Option AbsolutePath :=
  match host.files.file? dotGit.names with
  | none => none
  | some contents =>
      match splitOnce ':' contents.trim with
      | none => none
      | some (key, gitdirRaw) =>
          if key.trim ≠ "gitdir" then none
          else if gitdirRaw.trim = [] then none
          else match dotGit.parent with
            | none => none
            | some base =>
                let gitdirPath := base.join host.toProcessEnv gitdirRaw.trim
                if host.pathExists gitdirPath then some gitdirPath else none

def defaultReadOnlySubpathsForWritableRoot (writableRoot : AbsolutePath) (protectMissingDotCodex : Bool) :
    List AbsolutePath :=
  let topLevelGit := writableRoot.join host.toProcessEnv ".git"
  let topLevelGitIsFile := host.isFile topLevelGit
  let gitdir := if topLevelGitIsFile && isGitPointerFile host topLevelGit then
    (resolveGitdirFromFile host topLevelGit).toList else []
  let git := if host.isDir topLevelGit || topLevelGitIsFile then gitdir ++ [topLevelGit] else []
  let topLevelAgents := writableRoot.join host.toProcessEnv ".agents"
  let agents := if host.isDir topLevelAgents then [topLevelAgents] else []
  let topLevelCodex := writableRoot.join host.toProcessEnv ".codex"
  let codex := if protectMissingDotCodex || host.isDir topLevelCodex then [topLevelCodex] else []
  dedupAbsolutePaths host (git ++ agents ++ codex) false

def hasExplicitResolvedPathEntry (path : AbsolutePath) : Bool :=
  entries.any fun entry => entry.path == path

/-! ## Writable roots -/

structure WritableRoot where
  root : AbsolutePath
  readOnlySubpaths : List AbsolutePath
  protectedMetadataNames : List Text
  deriving DecidableEq

namespace WritableRoot

def pathContainsProtectedMetadataName (w : WritableRoot) (path : AbsolutePath) : Bool :=
  match (stripPrefix path w.root).bind List.head? with
  | some first => w.protectedMetadataNames.contains first
  | none => false

def isPathWritable (w : WritableRoot) (path : AbsolutePath) : Bool :=
  if ¬ path.StartsWith w.root then false
  else if w.readOnlySubpaths.any fun subpath => decide (path.StartsWith subpath) then false
  else !w.pathContainsProtectedMetadataName path

end WritableRoot

def carveoutPath (root : AbsolutePath) (rawWritableRoots : List AbsolutePath)
    (path : AbsolutePath) : Option AbsolutePath :=
  let effectivePath := normalizeEffectiveAbsolutePath host path
  let preserveRawCarveoutPaths := root.parent.isSome
  let rawCarveoutPath :=
    if preserveRawCarveoutPaths then
      if path = root then none
      else if path.StartsWith root then some path
      else rawWritableRoots.findSome? fun rawRoot =>
        match stripPrefix path rawRoot with
        | some (n :: ns) => some (root.join host.toProcessEnv (Text.join ['/'] (n :: ns)))
        | _ => none
    else none
  match rawCarveoutPath with
  | some path => some path
  | none => if effectivePath = root ∨ ¬ effectivePath.StartsWith root then none else some effectivePath

namespace FileSystemSandboxPolicy

def protectedMetadataNamesForWritableRoot (root : AbsolutePath)
    (rawWritableRoots : List AbsolutePath) (cwd : Text) : List Text :=
  protectedMetadataPathNames.filter fun name =>
    ((root :: rawWritableRoots).map fun root => root.join host.toProcessEnv name).all fun metadataPath =>
      !policy.canWritePathWithCwd host metadataPath.display cwd

def getWritableRootsWithCwd : List WritableRoot :=
  if policy.hasFullDiskWriteAccess then []
  else
    let resolvedEntries := policy.resolvedEntriesWithCwd host cwd
    let writableEntries := (resolvedEntries.filter fun entry => entry.access.canWrite &&
      policy.canWritePathWithCwd host entry.path.display cwd).map ResolvedFileSystemEntry.path
    (dedupAbsolutePaths host writableEntries true).map fun root =>
      let rawWritableRoots := writableEntries.filter fun path => normalizeEffectiveAbsolutePath host path == root
      let protectMissingDotCodex := (AbsolutePath.fromAbsolutePath host.toProcessEnv cwd).any fun cwd =>
        normalizeEffectiveAbsolutePath host cwd == root
      let defaults := (defaultReadOnlySubpathsForWritableRoot host root protectMissingDotCodex).filter fun path =>
        !hasExplicitResolvedPathEntry resolvedEntries path
      let carveouts := (resolvedEntries.filter fun entry => !entry.access.canWrite &&
        !policy.canWritePathWithCwd host entry.path.display cwd).filterMap fun entry =>
          carveoutPath host root rawWritableRoots entry.path
      { root
        readOnlySubpaths := dedupAbsolutePaths host (defaults ++ carveouts) false
        protectedMetadataNames := policy.protectedMetadataNamesForWritableRoot host root rawWritableRoots cwd }

/-! ## Readable and unreadable roots -/

def getReadableRootsWithCwd : List AbsolutePath :=
  if policy.hasFullDiskReadAccess then []
  else
    dedupAbsolutePaths host (((policy.resolvedEntriesWithCwd host cwd).filter fun entry =>
      entry.access.canRead && policy.canReadPathWithCwd host entry.path.display cwd).map ResolvedFileSystemEntry.path) true

/-- The root of the file system is left out: a mask over it would hide the readable paths below. -/
def getUnreadableRootsWithCwd : List AbsolutePath :=
  if policy.kind ≠ .restricted then []
  else
    let root := (AbsolutePath.fromAbsolutePath host.toProcessEnv cwd).map absoluteRootPathForCwd
    dedupAbsolutePaths host (((policy.resolvedEntriesWithCwd host cwd).filter fun entry =>
      entry.access == .none && !policy.canReadPathWithCwd host entry.path.display cwd &&
        root != some entry.path).map ResolvedFileSystemEntry.path) true

def getUnreadableGlobsWithCwd : List Text :=
  if policy.kind ≠ .restricted then []
  else
    let patterns := (policy.entries.filter fun entry => entry.access == .none).filterMap fun entry =>
      entry.path.globPattern?.map fun pattern => (resolveAgainstCwd host pattern cwd).display
    (patterns.insertionSort (· ≤ ·)).destutter (· ≠ ·)

end FileSystemSandboxPolicy

end CodexStudy.Sandbox
