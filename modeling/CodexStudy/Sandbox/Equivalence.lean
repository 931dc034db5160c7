import CodexStudy.Sandbox.Permissions

/-!
# Semantic equivalence

Two policies count as equivalent if they lay out the same roots for a working directory.
-/

namespace CodexStudy.Sandbox

open CodexStudy.Lib
open CodexStudy.ApplyPatch (AbsolutePath ProcessEnv isAbsolute)

variable (host : Host) (policy : FileSystemSandboxPolicy)

inductive NetworkSandboxPolicy where
  | restricted
  | enabled
  deriving DecidableEq

def NetworkSandboxPolicy.isEnabled (policy : NetworkSandboxPolicy) : Bool := policy == .enabled

inductive NetworkAccess where
  | restricted
  | enabled
  deriving DecidableEq

/-! ## The signature -/

structure FileSystemSemanticSignature where
  hasFullDiskReadAccess : Bool
  hasFullDiskWriteAccess : Bool
  includePlatformDefaults : Bool
  readableRoots : List AbsolutePath
  writableRoots : List WritableRoot
  unreadableRoots : List AbsolutePath
  unreadableGlobs : List Text
  deriving DecidableEq

def sortedWritableRoots (roots : List WritableRoot) : List WritableRoot :=
  let sorted := roots.map fun root =>
    { root with
      readOnlySubpaths := sortedAbsolutePaths root.readOnlySubpaths
      protectedMetadataNames := (root.protectedMetadataNames.insertionSort (· ≤ ·)).destutter (· ≠ ·) }
  sorted.insertionSort fun left right => left.root.names ≤ right.root.names

variable (sandboxPolicy : SandboxPolicy) (cwd : Text)

namespace FileSystemSandboxPolicy

def semanticSignature : FileSystemSemanticSignature where
  hasFullDiskReadAccess := policy.hasFullDiskReadAccess
  hasFullDiskWriteAccess := policy.hasFullDiskWriteAccess
  includePlatformDefaults := policy.includePlatformDefaults
  readableRoots := sortedAbsolutePaths (policy.getReadableRootsWithCwd host cwd)
  writableRoots := sortedWritableRoots (policy.getWritableRootsWithCwd host cwd)
  unreadableRoots := sortedAbsolutePaths (policy.getUnreadableRootsWithCwd host cwd)
  unreadableGlobs := policy.getUnreadableGlobsWithCwd host cwd

def isSemanticallyEquivalentTo (policy other : FileSystemSandboxPolicy) (cwd : Text) : Bool :=
  policy.semanticSignature host cwd == other.semanticSignature host cwd

end FileSystemSandboxPolicy

/-! ## The older form of a policy -/

inductive SandboxPolicy where
  | dangerFullAccess
  | readOnly (networkAccess : Bool)
  | externalSandbox (networkAccess : NetworkAccess)
  | workspaceWrite (writableRoots : List AbsolutePath) (networkAccess excludeTmpdirEnvVar excludeSlashTmp : Bool)
  deriving DecidableEq

/-- The writable roots of the older form; it knows no protected metadata names. -/
def SandboxPolicy.getWritableRootsWithCwd : SandboxPolicy → List WritableRoot
  | .dangerFullAccess | .externalSandbox _ | .readOnly _ => []
  | .workspaceWrite writableRoots _ excludeTmpdirEnvVar excludeSlashTmp =>
      let cwdRoot := AbsolutePath.fromAbsolutePath host.toProcessEnv cwd
      let slashTmp := if !excludeSlashTmp && host.isDir slashTmpPath then [slashTmpPath] else []
      let tmpdir := if excludeTmpdirEnvVar then []
        else (resolveFileSystemSpecialPath host cwdRoot .tmpdir).toList
      (writableRoots ++ cwdRoot.toList ++ slashTmp ++ tmpdir).map fun root =>
        { root
          readOnlySubpaths := defaultReadOnlySubpathsForWritableRoot host root (cwdRoot == some root)
          protectedMetadataNames := [] }

/-- What the entries of a policy ask of the older form. -/
structure LegacyWrites where
  workspaceRootWritable : Bool := false
  writableRoots : List AbsolutePath := []
  tmpdirWritable : Bool := false
  slashTmpWritable : Bool := false
  unbridgeableRootWrite : Bool := false

def LegacyWrites.add (cwd : Option AbsolutePath) (w : LegacyWrites) (entry : FileSystemSandboxEntry) :
    LegacyWrites :=
  if entry.access.canWrite then
    match entry.path with
    | .globPattern _ => w
    | .path path =>
        if cwd == some path then { w with workspaceRootWritable := true }
        else { w with writableRoots := w.writableRoots ++ [path] }
    | .special .root => { w with unbridgeableRootWrite := true }
    | .special .minimal => w
    | .special (.projectRoots none) => { w with workspaceRootWritable := true }
    | .special (.projectRoots (some subpath)) =>
        match resolveFileSystemSpecialPath host cwd (.projectRoots (some subpath)) with
        | some path => { w with writableRoots := w.writableRoots ++ [path] }
        | none => w
    | .special .tmpdir => { w with tmpdirWritable := true }
    | .special .slashTmp => { w with slashTmpWritable := true }
    | .special (.unknown _ _) => w
  else w

def unsupportedWritesError : Text :=
  ("permissions profile requests filesystem writes outside the workspace root, which is not supported until " ++
    "the runtime enforces FileSystemSandboxPolicy directly").toList

def FileSystemSandboxPolicy.toLegacySandboxPolicy
    (networkPolicy : NetworkSandboxPolicy) (cwd : Text) : Except Text SandboxPolicy :=
  match policy.kind with
  | .externalSandbox => .ok (.externalSandbox (if networkPolicy.isEnabled then .enabled else .restricted))
  | .unrestricted =>
      .ok (if networkPolicy.isEnabled then .dangerFullAccess else .externalSandbox .restricted)
  | .restricted =>
      let w := policy.entries.foldl (LegacyWrites.add host (AbsolutePath.fromAbsolutePath host.toProcessEnv cwd)) {}
      if policy.hasFullDiskWriteAccess then
        .ok (if networkPolicy.isEnabled then .dangerFullAccess else .externalSandbox .restricted)
      else if w.workspaceRootWritable then
        .ok (.workspaceWrite (dedupAbsolutePaths host w.writableRoots false) networkPolicy.isEnabled
          (!w.tmpdirWritable) (!w.slashTmpWritable))
      else if w.unbridgeableRootWrite || !w.writableRoots.isEmpty || w.tmpdirWritable || w.slashTmpWritable then
        .error unsupportedWritesError
      else .ok (.readOnly networkPolicy.isEnabled)

/-! ## The policy of the older form -/

variable (entries : List FileSystemSandboxEntry)

def appendDefaultReadOnlyEntryIfNoExplicitRule (path : FileSystemPath) :
    List FileSystemSandboxEntry :=
  if entries.any fun entry => fileSystemPathsShareTarget entry.path path then entries
  else entries ++ [⟨path, .read⟩]

def appendDefaultReadOnlyPathIfNoExplicitRule (path : AbsolutePath) :
    List FileSystemSandboxEntry :=
  appendDefaultReadOnlyEntryIfNoExplicitRule entries (.path path)

def appendDefaultReadOnlyProjectRootSubpathIfNoExplicitRule (subpath : Text) :
    List FileSystemSandboxEntry :=
  appendDefaultReadOnlyEntryIfNoExplicitRule entries (.special (.projectRoots (some subpath)))

def workspaceWriteEntries (writableRoots : List AbsolutePath) (excludeTmpdirEnvVar excludeSlashTmp : Bool) :
    List FileSystemSandboxEntry :=
  [⟨.special .root, .read⟩, ⟨.special (.projectRoots none), .write⟩] ++
    (if excludeSlashTmp then [] else [⟨.special .slashTmp, .write⟩]) ++
    (if excludeTmpdirEnvVar then [] else [⟨.special .tmpdir, .write⟩]) ++
    writableRoots.map fun path => ⟨.path path, .write⟩

def FileSystemSandboxPolicy.workspaceWrite (writableRoots : List AbsolutePath)
    (excludeTmpdirEnvVar excludeSlashTmp : Bool) : FileSystemSandboxPolicy :=
  let entries := protectedMetadataPathNames.foldl appendDefaultReadOnlyProjectRootSubpathIfNoExplicitRule
    (workspaceWriteEntries writableRoots excludeTmpdirEnvVar excludeSlashTmp)
  .restricted (writableRoots.foldl (fun entries writableRoot =>
    (defaultReadOnlySubpathsForWritableRoot host writableRoot false).foldl appendDefaultReadOnlyPathIfNoExplicitRule
      entries) entries)

def FileSystemSandboxPolicy.ofSandboxPolicy : SandboxPolicy → FileSystemSandboxPolicy
  | .dangerFullAccess => .unrestricted
  | .externalSandbox _ => .externalSandbox
  | .readOnly _ => .restricted [⟨.special .root, .read⟩]
  | .workspaceWrite writableRoots _ excludeTmpdirEnvVar excludeSlashTmp =>
      .workspaceWrite host writableRoots excludeTmpdirEnvVar excludeSlashTmp

/-- The older form of policy for a working directory; metadata paths are protected also where they are missing. -/
def FileSystemSandboxPolicy.fromLegacySandboxPolicyForCwd :
    FileSystemSandboxPolicy :=
  let fileSystemPolicy := FileSystemSandboxPolicy.ofSandboxPolicy host sandboxPolicy
  match sandboxPolicy with
  | .workspaceWrite writableRoots _ _ _ =>
      let entries := match AbsolutePath.fromAbsolutePath host.toProcessEnv cwd with
        | none => fileSystemPolicy.entries
        | some cwdRoot => (defaultReadOnlySubpathsForWritableRoot host cwdRoot true).foldl
            appendDefaultReadOnlyPathIfNoExplicitRule fileSystemPolicy.entries
      { fileSystemPolicy with
        entries := writableRoots.foldl (fun entries writableRoot =>
          (defaultReadOnlySubpathsForWritableRoot host writableRoot false).foldl
            appendDefaultReadOnlyPathIfNoExplicitRule entries) entries }
  | _ => fileSystemPolicy

def SandboxPolicy.hasFullNetworkAccess : SandboxPolicy → Bool
  | .dangerFullAccess => true
  | .externalSandbox networkAccess => networkAccess == .enabled
  | .readOnly networkAccess => networkAccess
  | .workspaceWrite _ networkAccess _ _ => networkAccess

def NetworkSandboxPolicy.ofSandboxPolicy : NetworkSandboxPolicy :=
  if sandboxPolicy.hasFullNetworkAccess then .enabled else .restricted

/-- The policy enforced for the older form; the metadata paths of the workspace are protected where they exist. -/
def legacyRuntimeFileSystemPolicyForCwd :
    FileSystemSandboxPolicy :=
  match sandboxPolicy with
  | .workspaceWrite writableRoots _ excludeTmpdirEnvVar excludeSlashTmp =>
      let entries := workspaceWriteEntries writableRoots excludeTmpdirEnvVar excludeSlashTmp
      let entries := match AbsolutePath.fromAbsolutePath host.toProcessEnv cwd with
        | none => entries
        | some cwdRoot => (defaultReadOnlySubpathsForWritableRoot host cwdRoot true).foldl
            appendDefaultReadOnlyPathIfNoExplicitRule entries
      .restricted (writableRoots.foldl (fun entries writableRoot =>
        (defaultReadOnlySubpathsForWritableRoot host writableRoot false).foldl appendDefaultReadOnlyPathIfNoExplicitRule
          entries) entries)
  | sandboxPolicy => .ofSandboxPolicy host sandboxPolicy

/-! ## Which form is enforced -/

def protectedMetadataNamesNeedDirectRuntimeEnforcement (legacyPolicy : SandboxPolicy) (cwd : Text) : Bool :=
  let legacyRoots := legacyPolicy.getWritableRootsWithCwd host cwd
  (policy.getWritableRootsWithCwd host cwd).any fun writableRoot =>
    match legacyRoots.find? fun candidate => candidate.root == writableRoot.root with
    | none => !writableRoot.protectedMetadataNames.isEmpty
    | some legacyRoot => writableRoot.protectedMetadataNames.any fun metadataName =>
        !legacyRoot.readOnlySubpaths.any fun subpath =>
          subpath == writableRoot.root.join host.toProcessEnv metadataName

def FileSystemSandboxPolicy.needsDirectRuntimeEnforcement (networkPolicy : NetworkSandboxPolicy) (cwd : Text) : Bool :=
  if policy.kind ≠ .restricted then false
  else match policy.toLegacySandboxPolicy host networkPolicy cwd with
    | .error _ => true
    | .ok legacyPolicy =>
        if protectedMetadataNamesNeedDirectRuntimeEnforcement host policy legacyPolicy cwd then true
        else policy.semanticSignature host cwd !=
          (legacyRuntimeFileSystemPolicyForCwd host legacyPolicy cwd).semanticSignature host cwd

end CodexStudy.Sandbox
