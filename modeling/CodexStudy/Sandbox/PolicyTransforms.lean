import CodexStudy.Sandbox.Permissions

/-!
# Additional permissions

A command may ask for permissions in addition to those of its policy.
-/

namespace CodexStudy.Sandbox

open CodexStudy.Lib
open CodexStudy.ApplyPatch (AbsolutePath ProcessEnv isAbsolute)

variable (host : Host) (policy : FileSystemSandboxPolicy) (cwd : Text)

abbrev NonZeroDepth := { n : Nat // n ≠ 0 }

structure FileSystemPermissions where
  entries : List FileSystemSandboxEntry := []
  globScanMaxDepth : Option NonZeroDepth := none

def FileSystemPermissions.isEmpty (permissions : FileSystemPermissions) : Bool := permissions.entries.isEmpty

structure NetworkPermissions where
  enabled : Option Bool
  deriving DecidableEq

structure AdditionalPermissionProfile where
  network : Option NetworkPermissions := none
  fileSystem : Option FileSystemPermissions := none

/-! ## Entries that are equal -/

def sameFileSystemPath : FileSystemPath → FileSystemPath → Bool
  | .path left, .path right => left == right
  | .globPattern left, .globPattern right => left == right
  | .special (.projectRoots left), .special (.projectRoots right) => sameSubpath left right
  | .special (.unknown left leftSubpath), .special (.unknown right rightSubpath) =>
      left == right && sameSubpath leftSubpath rightSubpath
  | left, right => left == right

variable (entries : List FileSystemSandboxEntry) (entry : FileSystemSandboxEntry)

def containsEntry : Bool :=
  entries.any fun e => sameFileSystemPath e.path entry.path && e.access == entry.access

def pushEntry : List FileSystemSandboxEntry :=
  if containsEntry entries entry then entries else entries ++ [entry]

/-! ## The depth of the search for glob matches -/

inductive GlobScanDepth where
  | bounded (depth : Nat)
  | unbounded

def effectiveGlobScanDepth (depth : Option Nat) : Option GlobScanDepth :=
  if entries.any fun entry => entry.access == .none && entry.path.globPattern?.isSome then
    some (match depth with
      | some depth => .bounded depth
      | none => .unbounded)
  else none

def mergeGlobScanMaxDepth (leftEntries : List FileSystemSandboxEntry) (leftDepth : Option Nat)
    (rightEntries : List FileSystemSandboxEntry) (rightDepth : Option Nat) : Option Nat :=
  match effectiveGlobScanDepth leftEntries leftDepth, effectiveGlobScanDepth rightEntries rightDepth with
  | some .unbounded, _ | _, some .unbounded => none
  | some (.bounded left), some (.bounded right) => some (max left right)
  | some (.bounded depth), none | none, some (.bounded depth) => some depth
  | none, none => none

def NonZeroDepth.new (depth : Nat) : Option NonZeroDepth := if h : depth ≠ 0 then some ⟨depth, h⟩ else none

/-! ## Adding permissions to a policy -/

def mergeFileSystemPolicyWithAdditionalPermissions (additional : FileSystemPermissions) : FileSystemSandboxPolicy :=
  match policy.kind with
  | .restricted =>
      { policy with
        entries := additional.entries.foldl pushEntry policy.entries
        globScanMaxDepth := mergeGlobScanMaxDepth policy.entries policy.globScanMaxDepth additional.entries
          (additional.globScanMaxDepth.map Subtype.val) }
  | .unrestricted | .externalSandbox => policy

def effectiveFileSystemSandboxPolicy
    (additionalPermissions : Option AdditionalPermissionProfile) : FileSystemSandboxPolicy :=
  match additionalPermissions.bind AdditionalPermissionProfile.fileSystem with
  | none => policy
  | some permissions =>
      if permissions.isEmpty then policy else mergeFileSystemPolicyWithAdditionalPermissions policy permissions

/-! ## Cutting a grant down to the request -/

def accessCovers (requested : FileSystemAccessMode) : FileSystemAccessMode → Bool
  | .read => requested.canRead
  | .write => requested.canWrite
  | .none => false

def resolvePermissionPath : FileSystemPath → Option AbsolutePath
  | .path path => some path
  | .globPattern _ => none
  | .special .root => some .root
  | .special value =>
      resolveFileSystemSpecialPath host (AbsolutePath.fromAbsolutePath host.toProcessEnv cwd) value

abbrev GlobCompiler := Text → Option (AbsolutePath → Bool)

/-- The roots and patterns that deny reading. Without symbolic links a path has one spelling only. -/
structure ReadDenyMatcher where
  deniedRoots : List AbsolutePath
  denyReadMatchers : List (AbsolutePath → Bool)
  invalidPattern : Bool

def ReadDenyMatcher.new (globs : GlobCompiler) (policy : FileSystemSandboxPolicy) (cwd : Text) :
    Option ReadDenyMatcher :=
  if policy.hasDeniedReadRestrictions then
    let compiled := (policy.getUnreadableGlobsWithCwd host cwd).map globs
    some
      { deniedRoots := policy.getUnreadableRootsWithCwd host cwd
        denyReadMatchers := compiled.filterMap id
        invalidPattern := compiled.any Option.isNone }
  else none

def ReadDenyMatcher.isReadDenied (matcher : ReadDenyMatcher) (path : AbsolutePath) : Bool :=
  matcher.invalidPattern || matcher.deniedRoots.any (fun denied => decide (path.StartsWith denied)) ||
    matcher.denyReadMatchers.any fun glob => glob path

def grantedFileSystemEntryWithinRequest (requested : FileSystemPermissions)
    (requestedPolicy : FileSystemSandboxPolicy) (requestedReadDenyMatcher : Option ReadDenyMatcher) (cwd : Text)
    (grantedEntry : FileSystemSandboxEntry) : Bool :=
  if !grantedEntry.access.canRead then false
  else match resolvePermissionPath host cwd grantedEntry.path with
    | some path =>
        if requestedReadDenyMatcher.any fun matcher => matcher.isReadDenied path then false
        else accessCovers (requestedPolicy.resolveAccessWithCwd host path.display cwd) grantedEntry.access
    | none => requested.entries.any fun requestedEntry =>
        accessCovers requestedEntry.access grantedEntry.access &&
          sameFileSystemPath requestedEntry.path grantedEntry.path

def materializeCwdDependentEntry : FileSystemSandboxEntry :=
  match entry.path with
  | .special (.projectRoots _) =>
      match resolvePermissionPath host cwd entry.path with
      | some path => ⟨.path path, entry.access⟩
      | none => entry
  | .globPattern pattern => ⟨.globPattern (resolveAgainstCwd host pattern cwd).display, entry.access⟩
  | _ => entry

def pathsOverlap (left right : AbsolutePath) : Bool := decide (left.StartsWith right) || decide (right.StartsWith left)

def isGlobCharacter (c : Char) : Bool := c == '*' || c == '?' || c == '[' || c == ']'

/-- The directory above the first character of the pattern that is not meant literally. -/
def globStaticPrefixPath (pattern : Text) : Option AbsolutePath :=
  let resolved := (resolveAgainstCwd host pattern cwd).display
  let before := resolved.takeWhile fun c => !isGlobCharacter c
  if before = resolved then AbsolutePath.fromAbsolutePath host.toProcessEnv before
  else if before = [] then none
  else if before.getLast? = some '/' ∨ before.getLast? = some '\\' then
    AbsolutePath.fromAbsolutePath host.toProcessEnv before
  else AbsolutePath.fromAbsolutePath host.toProcessEnv ('/' :: Text.join ['/'] (pathParts before).dropLast)

def denyPathOverlapsGrant (grantPath : AbsolutePath) : FileSystemPath → Bool
  | .globPattern pattern => (globStaticPrefixPath host cwd pattern).any fun p => pathsOverlap p grantPath
  | path => (resolvePermissionPath host cwd path).any fun denyPath => pathsOverlap denyPath grantPath

def denyEntryConstrainsAcceptedGrant (acceptedEntries : List FileSystemSandboxEntry) (cwd : Text)
    (denyEntry : FileSystemSandboxEntry) : Bool :=
  (acceptedEntries.filter fun entry => entry.access.canRead).any fun entry =>
    match resolvePermissionPath host cwd entry.path with
    | none => false
    | some grantPath => denyPathOverlapsGrant host cwd grantPath denyEntry.path

def constrainingDenyEntries (sourceEntries acceptedEntries : List FileSystemSandboxEntry) (cwd : Text) :
    List FileSystemSandboxEntry :=
  ((sourceEntries.filter fun entry => entry.access == .none).filter
    (denyEntryConstrainsAcceptedGrant host acceptedEntries cwd)).map (materializeCwdDependentEntry host cwd)

def retainConstrainingDenyEntries (sourceEntries acceptedEntries : List FileSystemSandboxEntry)
    (cwd : Text) (outputEntries : List FileSystemSandboxEntry) :
    List FileSystemSandboxEntry × List FileSystemSandboxEntry :=
  let retained := constrainingDenyEntries host sourceEntries acceptedEntries cwd
  (retained.foldl pushEntry outputEntries, retained)

def intersectFileSystem (globs : GlobCompiler) (requested granted : FileSystemPermissions) (cwd : Text) :
    FileSystemPermissions :=
  let requestedPolicy := FileSystemSandboxPolicy.restricted requested.entries
  let requestedReadDenyMatcher := ReadDenyMatcher.new host globs requestedPolicy cwd
  let accepted := ((granted.entries.filter
    (grantedFileSystemEntryWithinRequest host requested requestedPolicy requestedReadDenyMatcher cwd)).map
      (materializeCwdDependentEntry host cwd)).foldl pushEntry []
  let (entries, requestedRetained) := retainConstrainingDenyEntries host requested.entries accepted cwd accepted
  let (entries, grantedRetained) := retainConstrainingDenyEntries host granted.entries accepted cwd entries
  { entries
    globScanMaxDepth := (mergeGlobScanMaxDepth requestedRetained (requested.globScanMaxDepth.map Subtype.val)
      grantedRetained (granted.globScanMaxDepth.map Subtype.val)).bind NonZeroDepth.new }

def intersectNetwork : Option NetworkPermissions → Option NetworkPermissions → Option NetworkPermissions
  | some ⟨some true⟩, some ⟨some true⟩ => some ⟨some true⟩
  | _, _ => none

def intersectPermissionProfiles (globs : GlobCompiler)
    (requested granted : AdditionalPermissionProfile) (cwd : Text) : AdditionalPermissionProfile where
  fileSystem := (requested.fileSystem.map fun requestedFileSystem =>
    intersectFileSystem host globs requestedFileSystem (granted.fileSystem.getD {}) cwd).filter fun fs => !fs.isEmpty
  network := intersectNetwork requested.network granted.network

/-! ## Roots that are granted -/

namespace FileSystemSandboxPolicy

def pushPathEntry (path : AbsolutePath) (access : FileSystemAccessMode) :
    FileSystemSandboxPolicy :=
  { policy with entries := policy.entries ++ [⟨.path path, access⟩] }

def grantReadableRoot (policy : FileSystemSandboxPolicy) (path : AbsolutePath) :
    FileSystemSandboxPolicy :=
  if policy.canReadPathWithCwd host path.display cwd then policy else policy.pushPathEntry path .read

def grantWritableRoot (policy : FileSystemSandboxPolicy) (path : AbsolutePath) :
    FileSystemSandboxPolicy :=
  if policy.canWritePathWithCwd host path.display cwd then policy else policy.pushPathEntry path .write

def withAdditionalReadableRoots (additionalReadableRoots : List AbsolutePath) : FileSystemSandboxPolicy :=
  if policy.hasFullDiskReadAccess then policy else additionalReadableRoots.foldl (grantReadableRoot host cwd) policy

def withAdditionalWritableRoots (additionalWritableRoots : List AbsolutePath) : FileSystemSandboxPolicy :=
  additionalWritableRoots.foldl (grantWritableRoot host cwd) policy

end FileSystemSandboxPolicy

/-! ## Project roots that are put in place -/

def PROJECT_ROOTS_GLOB_PATTERN_PREFIX : Text := "codex-project-roots://"

def parseProjectRootsGlobPattern (pattern : Text) : Option Text :=
  Text.stripPrefix? PROJECT_ROOTS_GLOB_PATTERN_PREFIX pattern

def resolveProjectRootsGlobPattern (subpath : Text) (root : AbsolutePath) : Text :=
  (root.join host.toProcessEnv subpath).display

def materializeProjectRootsPath (cwd : Option AbsolutePath) (path : FileSystemPath) : FileSystemPath :=
  match path with
  | .special (.projectRoots _) =>
      match resolveFileSystemPath host cwd path with
      | some place => .path place
      | none => path
  | .globPattern pattern =>
      match cwd, parseProjectRootsGlobPattern pattern with
      | some cwd, some subpath => .globPattern (resolveProjectRootsGlobPattern host subpath cwd)
      | _, _ => path
  | _ => path

def FileSystemSandboxPolicy.materializeProjectRootsWithCwd : FileSystemSandboxPolicy :=
  let cwd := AbsolutePath.fromAbsolutePath host.toProcessEnv cwd
  { policy with
    entries := policy.entries.map fun entry => { entry with path := materializeProjectRootsPath host cwd entry.path } }

end CodexStudy.Sandbox
