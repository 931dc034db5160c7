import CodexStudy.Sandbox.Permissions

/-!
# The mounts of the Linux sandbox

From the roots of a policy the arguments of the tool are built that sets up the file system of the sandbox.
-/

namespace CodexStudy.Sandbox

open CodexStudy.Lib
open CodexStudy.ApplyPatch (AbsolutePath ProcessEnv isAbsolute)

structure FileIdentity where
  dev : Nat
  ino : Nat
  deriving DecidableEq

structure LinuxHost extends Host where
  devNull : Except Text Nat := .ok 3
  identity : AbsolutePath → FileIdentity := fun _ => ⟨0, 0⟩
  matchedFiles : List Text → Text → Option Nat → Except Text (List AbsolutePath) := fun _ _ _ => .ok []

/-! ## Arguments -/

/-- An option of the tool with its operands; the mounts of the host have the path as source and as target. -/
inductive BwrapOption where
  | bind (path : AbsolutePath)
  | roBind (path : AbsolutePath)
  | tmpfs (path : AbsolutePath)
  | dev (path : AbsolutePath)
  | roBindData (fd : Nat) (path : AbsolutePath)
  | dir (path : AbsolutePath)
  | perms (mode : Text)
  | remountRo (path : AbsolutePath)

def BwrapOption.args : BwrapOption → List Text
  | .bind path => ["--bind", path.display, path.display]
  | .roBind path => ["--ro-bind", path.display, path.display]
  | .tmpfs path => ["--tmpfs", path.display]
  | .dev path => ["--dev", path.display]
  | .roBindData fd path => ["--ro-bind-data", (toString fd).toList, path.display]
  | .dir path => ["--dir", path.display]
  | .perms mode => ["--perms", mode]
  | .remountRo path => ["--remount-ro", path.display]

inductive SyntheticMountTargetKind where
  | emptyFile
  | emptyDirectory

structure SyntheticMountTarget where
  path : AbsolutePath
  kind : SyntheticMountTargetKind
  preExistingPath : Option FileIdentity

structure BwrapArgs where
  options : List BwrapOption
  preservedFiles : List Nat := []
  syntheticMountTargets : List SyntheticMountTarget := []
  protectedCreateTargets : List AbsolutePath := []

variable (host : LinuxHost) (b : BwrapArgs)

def BwrapArgs.push (options : List BwrapOption) : BwrapArgs :=
  { b with options := b.options ++ options }

def BwrapArgs.addTarget (target : SyntheticMountTarget) : BwrapArgs :=
  { b with syntheticMountTargets := b.syntheticMountTargets ++ [target] }

/-! ## Paths on the machine -/

def pathUpTo (p : AbsolutePath) (k : Nat) : AbsolutePath :=
  ⟨p.names.take k, fun n hn => p.normal n (List.mem_of_mem_take hn)⟩

/-- The path and the directories above it, down from the root. -/
def componentPaths (p : AbsolutePath) : List AbsolutePath := (List.range (p.names.length + 1)).map (pathUpTo p)

def ancestors (p : AbsolutePath) : List AbsolutePath := (componentPaths p).reverse

def pathDepth (p : AbsolutePath) : Nat := p.names.length + 1

def sortedByDepth (paths : List AbsolutePath) : List AbsolutePath :=
  paths.insertionSort fun left right => pathDepth left ≤ pathDepth right

def isProtectedMetadataName (name : Text) : Bool := protectedMetadataPathNames.contains name

def directoryIsEmpty (host : Host) (path : AbsolutePath) : Bool :=
  decide (∀ q ∈ host.files.nodes.keys, path.names <+: q → q = path.names)

def findFirstNonExistentComponent (host : Host) (targetPath : AbsolutePath) : Option AbsolutePath :=
  (componentPaths targetPath).tail.find? fun current => !host.pathExists current

inductive EmptyProtectedMetadataPath where
  | file
  | directory

def transientEmptyMetadataPath (host : Host) (path : AbsolutePath) : Option EmptyProtectedMetadataPath :=
  if path.fileName.any isProtectedMetadataName then
    match host.files.node? path.names with
    | some (.file content) => if content = [] then some .file else none
    | some .dir => if directoryIsEmpty host path then some .directory else none
    | none => none
  else none

variable (path : AbsolutePath) (allowedWritePaths : List AbsolutePath)

def isWithinAllowedWritePaths : Bool :=
  allowedWritePaths.any fun root => decide (path.StartsWith root)

def ancestorHasGitMetadata (host : Host) (ancestor : AbsolutePath) : Bool :=
  let gitPath := ancestor.join host.toProcessEnv ".git"
  match host.files.node? gitPath.names with
  | some .dir => host.pathExists (gitPath.join host.toProcessEnv "HEAD")
  | some (.file contents) => decide ("gitdir:" <+: contents.trimStart)
  | none => false

def shouldLeaveMissingGitForParentRepoDiscovery (host : Host) (mountRoot : AbsolutePath) (name : Text) : Bool :=
  name == ".git" && (host.isDir mountRoot && !host.pathExists (mountRoot.join host.toProcessEnv name)) &&
    (ancestors mountRoot).tail.any (ancestorHasGitMetadata host)

/-! ## Appending mounts -/

def appendEmptyFileBindDataArgs : Except Text BwrapArgs :=
  match b.preservedFiles with
  | fd :: _ => .ok (b.push [.roBindData fd path])
  | [] => host.devNull.map fun fd => { b.push [.roBindData fd path] with preservedFiles := [fd] }

def emptyDirectoryOptions : List BwrapOption :=
  [.perms "555", .tmpfs path, .remountRo path]

def appendMissingEmptyFileBindDataArgs :
    Except Text BwrapArgs :=
  (appendEmptyFileBindDataArgs host b path).map fun b => b.addTarget ⟨path, .emptyFile, none⟩

def appendMissingReadOnlySubpathArgs : Except Text BwrapArgs :=
  if path.fileName.any isProtectedMetadataName then
    .ok ((b.push (emptyDirectoryOptions path)).addTarget ⟨path, .emptyDirectory, none⟩)
  else appendMissingEmptyFileBindDataArgs host b path

def appendReadOnlySubpathArgs (b : BwrapArgs) (subpath : AbsolutePath) : Except Text BwrapArgs :=
  match transientEmptyMetadataPath host.toHost subpath, isWithinAllowedWritePaths subpath allowedWritePaths with
  | some .file, true => (appendEmptyFileBindDataArgs host b subpath).map fun b =>
      b.addTarget ⟨subpath, .emptyFile, some (host.identity subpath)⟩
  | some .directory, true => .ok ((b.push (emptyDirectoryOptions subpath)).addTarget
      ⟨subpath, .emptyDirectory, some (host.identity subpath)⟩)
  | _, within =>
      if host.pathExists subpath then
        if within then .ok (b.push [.roBind subpath]) else .ok b
      else match findFirstNonExistentComponent host.toHost subpath with
        | none => .ok b
        | some firstMissingComponent =>
            if isWithinAllowedWritePaths firstMissingComponent allowedWritePaths then
              appendMissingReadOnlySubpathArgs host b firstMissingComponent
            else .ok b

def mountTargetParentDirOptions (host : Host) (mountTarget anchor : AbsolutePath) : List BwrapOption :=
  let mountTargetDir := if host.isDir mountTarget then some mountTarget else mountTarget.parent
  match mountTargetDir with
  | none => []
  | some dir => ((ancestors dir).takeWhile (· != anchor)).reverse.map .dir

def appendExistingUnreadablePathArgs (b : BwrapArgs) (unreadableRoot : AbsolutePath) : Except Text BwrapArgs :=
  if host.isDir unreadableRoot then
    let writableDescendants := allowedWritePaths.filter fun path =>
      path != unreadableRoot && decide (path.StartsWith unreadableRoot)
    .ok (b.push ([.perms (if writableDescendants.isEmpty then "000" else "111"), .tmpfs unreadableRoot] ++
      (sortedByDepth writableDescendants).flatMap
        (fun writableDescendant => mountTargetParentDirOptions host.toHost writableDescendant unreadableRoot) ++
      [.remountRo unreadableRoot]))
  else appendEmptyFileBindDataArgs host (b.push [.perms "000"]) unreadableRoot

def appendUnreadableRootArgs (b : BwrapArgs) (unreadableRoot : AbsolutePath) : Except Text BwrapArgs :=
  if host.pathExists unreadableRoot then appendExistingUnreadablePathArgs host allowedWritePaths b unreadableRoot
  else match findFirstNonExistentComponent host.toHost unreadableRoot with
    | none => .ok b
    | some firstMissingComponent =>
        if isWithinAllowedWritePaths firstMissingComponent allowedWritePaths then
          appendMissingEmptyFileBindDataArgs host b firstMissingComponent
        else .ok b

/-! ## The roots -/

def linuxPlatformDefaultReadRoots : List AbsolutePath :=
  ["/bin", "/sbin", "/usr", "/etc", "/lib", "/lib64", "/nix/store", "/run/current-system/sw"].map fun path =>
    AbsolutePath.absolutizeFrom path.toList .root

def devPath : AbsolutePath := ⟨["dev"], by decide⟩

def expandUnreadableGlobsWithRipgrep (patterns : List Text) (cwd : Text) (maxDepth : Option Nat) :
    Except Text (List AbsolutePath) :=
  if patterns.isEmpty || maxDepth == some 0 then .ok [] else host.matchedFiles patterns cwd maxDepth

variable (policy : FileSystemSandboxPolicy) (cwd : Text)

def mountedWritableRoots : List WritableRoot :=
  let writableRoots := (policy.getWritableRootsWithCwd host.toHost cwd).filter fun writableRoot =>
    host.pathExists writableRoot.root
  if writableRoots.isEmpty && policy.hasFullDiskWriteAccess &&
      !(policy.getUnreadableGlobsWithCwd host.toHost cwd).isEmpty then
    [{ root := .root, readOnlySubpaths := [], protectedMetadataNames := [] }]
  else writableRoots

def missingAutoMetadataReadOnlyProjectRootSubpaths :
    List AbsolutePath :=
  (policy.entries.filter fun entry => entry.access == .read).filterMap fun entry =>
    match entry.path with
    | .special (.projectRoots (some subpath)) =>
        if protectedMetadataPathNames.any (samePath subpath) then
          let resolved := resolveAgainstCwd host.toHost subpath cwd
          if host.pathExists resolved then none else some resolved
        else none
    | _ => none

def mountedReadableRoots : List AbsolutePath :=
  let platformRoots := if policy.includePlatformDefaults then
      linuxPlatformDefaultReadRoots.filter fun path => host.pathExists path
    else []
  (sortedAbsolutePaths (policy.getReadableRootsWithCwd host.toHost cwd ++ platformRoots)).destutter (· ≠ ·)

/-- The mounts that everything else is put on. -/
def baseOptions : List BwrapOption :=
  if policy.hasFullDiskReadAccess then [.roBind .root, .dev devPath]
  else
    let readableRoots := mountedReadableRoots host policy cwd
    if readableRoots.any fun root => root == .root then [.roBind .root, .dev devPath]
    else [.tmpfs .root, .dev devPath] ++ (readableRoots.filter fun root => host.pathExists root).map .roBind

def appendMetadataPathMasksForWritableRoot (root : AbsolutePath) (protectedMetadataNames : List Text)
    (readOnlySubpaths : List AbsolutePath) : List AbsolutePath :=
  protectedMetadataNames.foldl (fun subpaths name =>
    let path := root.join host.toProcessEnv name
    if shouldLeaveMissingGitForParentRepoDiscovery host.toHost root name then subpaths
    else if subpaths.contains path then subpaths
    else subpaths ++ [path]) readOnlySubpaths

def protectedCreateTargetsForWritableRoot (root : AbsolutePath) (protectedMetadataNames : List Text)
    (readOnlySubpaths : List AbsolutePath) : List AbsolutePath :=
  (protectedMetadataNames.map fun name => root.join host.toProcessEnv name).filter fun path =>
    !(readOnlySubpaths.contains path || host.pathExists path)

def readOnlySubpathsForMount (unreadableRoots missingAutoMetadata : List AbsolutePath)
    (writableRoot : WritableRoot) : List AbsolutePath :=
  appendMetadataPathMasksForWritableRoot host writableRoot.root writableRoot.protectedMetadataNames
    (writableRoot.readOnlySubpaths.filter fun path => !unreadableRoots.contains path && !missingAutoMetadata.contains path)

def mountPointOptions (unreadableRoots : List AbsolutePath) (root : AbsolutePath) : List BwrapOption :=
  match lastArgmax pathDepth (unreadableRoots.filter fun unreadableRoot => decide (root.StartsWith unreadableRoot)) with
  | none => []
  | some maskingRoot => mountTargetParentDirOptions host.toHost root maskingRoot

def appendWritableRootArgs (unreadableRoots missingAutoMetadata allowedWritePaths : List AbsolutePath)
    (b : BwrapArgs) (writableRoot : WritableRoot) : Except Text BwrapArgs := do
  let root := writableRoot.root
  let subpaths := readOnlySubpathsForMount host unreadableRoots missingAutoMetadata writableRoot
  let b := b.push (mountPointOptions host unreadableRoots root ++ [.bind root])
  let b := { b with protectedCreateTargets := b.protectedCreateTargets ++
    protectedCreateTargetsForWritableRoot host root writableRoot.protectedMetadataNames subpaths }
  let b ← (sortedByDepth subpaths).foldlM (appendReadOnlySubpathArgs host allowedWritePaths) b
  let nestedUnreadableRoots := unreadableRoots.filter fun path => decide (path.StartsWith root)
  (sortedByDepth nestedUnreadableRoots).foldlM (appendUnreadableRootArgs host allowedWritePaths) b

def sortedMountRoots (writableRoots : List WritableRoot) : List WritableRoot :=
  writableRoots.insertionSort fun left right => pathDepth left.root ≤ pathDepth right.root

def createFilesystemArgs
    (globScanMaxDepth : Option Nat) : Except Text BwrapArgs := do
  let writableRoots := mountedWritableRoots host policy cwd
  let missingAutoMetadata := missingAutoMetadataReadOnlyProjectRootSubpaths host policy cwd
  let expanded ← expandUnreadableGlobsWithRipgrep host (policy.getUnreadableGlobsWithCwd host.toHost cwd) cwd
    globScanMaxDepth
  let unreadableRoots :=
    (sortedAbsolutePaths (policy.getUnreadableRootsWithCwd host.toHost cwd ++ expanded)).destutter (· ≠ ·)
  let allowedWritePaths := writableRoots.map WritableRoot.root
  let unreadableAncestorsOfWritableRoots := unreadableRoots.filter fun unreadableRoot =>
    !isWithinAllowedWritePaths unreadableRoot allowedWritePaths &&
      allowedWritePaths.any fun root => decide (root.StartsWith unreadableRoot)
  let rootlessUnreadableRoots := unreadableRoots.filter fun unreadableRoot =>
    !allowedWritePaths.any fun root => decide (unreadableRoot.StartsWith root) || decide (root.StartsWith unreadableRoot)
  let b : BwrapArgs := { options := baseOptions host policy cwd }
  let b ← (sortedByDepth unreadableAncestorsOfWritableRoots).foldlM (appendUnreadableRootArgs host allowedWritePaths) b
  let b ← (sortedMountRoots writableRoots).foldlM
    (appendWritableRootArgs host unreadableRoots missingAutoMetadata allowedWritePaths) b
  (sortedByDepth rootlessUnreadableRoots).foldlM (appendUnreadableRootArgs host allowedWritePaths) b

end CodexStudy.Sandbox
