import CodexStudy.Lib.Text
import CodexStudy.Lib.Effect
import CodexStudy.Lib.FileTree

/-!
# File systems

The patch tool works through an interface that a local or a remote file system implements.
-/

namespace CodexStudy.ApplyPatch

open CodexStudy.Lib List

/-! ## Absolute paths -/

/-- A name that can stand between two slashes of a normalized path. -/
def IsName (n : Text) : Prop := n ≠ [] ∧ n ≠ ['.'] ∧ n ≠ ['.', '.'] ∧ '/' ∉ n

instance (n : Text) : Decidable (IsName n) := inferInstanceAs (Decidable (_ ∧ _ ∧ _ ∧ _))

structure AbsolutePath where
  names : List Text
  normal : ∀ n ∈ names, IsName n
  deriving DecidableEq

variable {p q : AbsolutePath} {path : Text} {out : List Text}

namespace AbsolutePath

theorem ext_names (h : p.names = q.names) : p = q := by
  obtain ⟨ns, _⟩ := p
  obtain ⟨ms, _⟩ := q
  cases h; rfl

def root : AbsolutePath := ⟨[], by simp⟩

def display (p : AbsolutePath) : Text := '/' :: Text.join ['/'] p.names

/-- The directory that contains `p`; the root has none. -/
def parent (p : AbsolutePath) : Option AbsolutePath :=
  if p.names = [] then none
  else some ⟨p.names.dropLast, fun n hn => p.normal n (mem_of_mem_dropLast hn)⟩

theorem names_of_parent (h : p.parent = some q) : q.names = p.names.dropLast := by
  unfold parent at h
  split at h
  · cases h
  · cases h; rfl

end AbsolutePath

/-! ## Normalization -/

def components (path : Text) : List Text := (path.splitOn '/').filter fun n => !n.isEmpty

/-- One round of the normalization: `.` is skipped and `..` takes the last name away. -/
def pushComponent (out : List Text) (c : Text) : List Text :=
  if c = ['.'] then out
  else if c = ['.', '.'] then out.dropLast
  else out ++ [c]

def normalizeNames (cs : List Text) : List Text := cs.foldl pushComponent []

theorem component_ne_nil {n : Text} (h : n ∈ components path) : n ≠ [] ∧ '/' ∉ n := by
  obtain ⟨hmem, hne⟩ := mem_filter.mp h
  exact ⟨by simpa using hne, Text.not_mem_of_mem_splitOn hmem⟩

theorem pushComponent_normal {c : Text} (hc : c ≠ [] ∧ '/' ∉ c) (h : ∀ n ∈ out, IsName n) :
    ∀ n ∈ pushComponent out c, IsName n := by
  unfold pushComponent
  split
  · exact h
  · split
    · exact fun n hn => h n (mem_of_mem_dropLast hn)
    · rename_i h₁ h₂
      intro n hn
      rcases mem_append.mp hn with hn | hn
      · exact h n hn
      · rw [mem_singleton.mp hn]
        exact ⟨hc.1, h₁, h₂, hc.2⟩

theorem foldl_pushComponent_normal {cs : List Text} (hcs : ∀ c ∈ cs, c ≠ [] ∧ '/' ∉ c)
    (h : ∀ n ∈ out, IsName n) : ∀ n ∈ cs.foldl pushComponent out, IsName n := by
  induction cs generalizing out with
  | nil => exact h
  | cons c cs ih =>
      exact ih (fun c' hc' => hcs c' (mem_cons_of_mem _ hc'))
        (pushComponent_normal (hcs c mem_cons_self) h)

theorem foldl_pushComponent_of_normal {ns : List Text} (h : ∀ n ∈ ns, IsName n) (out : List Text) :
    ns.foldl pushComponent out = out ++ ns := by
  induction ns generalizing out with
  | nil => simp
  | cons n ns ih =>
      obtain ⟨_, h₁, h₂, _⟩ := h n mem_cons_self
      rw [foldl_cons, ih fun m hm => h m (mem_cons_of_mem _ hm), pushComponent, if_neg h₁, if_neg h₂]
      simp

theorem normalizeNames_names (p : AbsolutePath) : normalizeNames p.names = p.names :=
  (foldl_pushComponent_of_normal p.normal []).trans (nil_append _)

/-! ## Resolution against a base -/

def joinPath (dir rest : Text) : Text :=
  if dir = [] ∨ dir.getLast? = some '/' then dir ++ rest else dir ++ '/' :: rest

def maybeExpandHomeDirectory (home : Option Text) (path : Text) : Text :=
  match home, path with
  | some dir, ['~'] => dir
  | some dir, '~' :: '/' :: rest => joinPath dir (rest.dropWhile (· == '/'))
  | _, _ => path

def pathWithBase (path : Text) (base : AbsolutePath) : List Text :=
  if path.head? = some '/' then components path else base.names ++ components path

theorem pathWithBase_component {base : AbsolutePath} :
    ∀ c ∈ pathWithBase path base, c ≠ [] ∧ '/' ∉ c := by
  intro c hc
  unfold pathWithBase at hc
  split at hc
  · exact component_ne_nil hc
  · rcases mem_append.mp hc with hc | hc
    · have := base.normal c hc
      exact ⟨this.1, this.2.2.2⟩
    · exact component_ne_nil hc

def resolvePathAgainstBase (home : Option Text) (path : Text) (base : AbsolutePath) : AbsolutePath where
  names := normalizeNames (pathWithBase (maybeExpandHomeDirectory home path) base)
  normal := foldl_pushComponent_normal pathWithBase_component (by simp)

example : (resolvePathAgainstBase none "../b/./c/" ⟨["w", "a"], by decide⟩).names
    = ["w", "b", "c"] := by decide +kernel

inductive IoErrorKind where
  | notFound
  | notADirectory
  | isADirectory
  | alreadyExists
  | directoryNotEmpty
  | invalidInput
  | other
  deriving DecidableEq

structure IoError where
  kind : IoErrorKind
  message : Text
  deriving DecidableEq

structure FileMetadata where
  isDirectory : Bool
  isFile : Bool
  isSymlink : Bool

/-- The calls that the patch tool makes, over the states `S` of the file system; what a call does to the state is left
open, also when it fails. Directories are created with those above them; `remove` is neither recursive nor forced. -/
structure ExecutorFileSystem (S : Type) where
  readFileText : AbsolutePath → Eff IoError S Text
  getMetadata : AbsolutePath → Eff IoError S FileMetadata
  writeFile : AbsolutePath → Text → Eff IoError S Unit
  createDirectory : AbsolutePath → Eff IoError S Unit
  remove : AbsolutePath → Eff IoError S Unit

/-! ## The local file system -/

abbrev Files := FileTree Text Text

def maxReadFileBytes : Nat := 512 * 1024 * 1024

def utf8Length (content : Text) : Nat := (content.map Char.utf8Size).sum

namespace Files

def errorNotFound : IoError := ⟨.notFound, "No such file or directory (os error 2)"⟩
def errorExists : IoError := ⟨.alreadyExists, "File exists (os error 17)"⟩
def errorNotADirectory : IoError := ⟨.notADirectory, "Not a directory (os error 20)"⟩
def errorIsADirectory : IoError := ⟨.isADirectory, "Is a directory (os error 21)"⟩
def errorNotEmpty : IoError := ⟨.directoryNotEmpty, "Directory not empty (os error 39)"⟩

def missing (t : Files) (p : AbsolutePath) : IoError :=
  if t.passable p.names.dropLast then errorNotFound else errorNotADirectory

def readFileText (p : AbsolutePath) (t : Files) : Except IoError Text :=
  match t.node? p.names with
  | some (.file content) =>
      if maxReadFileBytes < utf8Length content then
        .error ⟨.invalidInput, "file is too large to read: limit is 536870912 bytes"⟩
      else .ok content
  | some .dir => .error errorIsADirectory
  | none => .error (missing t p)

def getMetadata (p : AbsolutePath) (t : Files) : Except IoError FileMetadata :=
  match t.node? p.names with
  | some (.file _) => .ok { isDirectory := false, isFile := true, isSymlink := false }
  | some .dir => .ok { isDirectory := true, isFile := false, isSymlink := false }
  | none => .error (missing t p)

/-- Keep the tree that an operation returns, or stop with the error. -/
def commit (t' : Option Files) (e : IoError) : Eff IoError Files Unit :=
  match t' with
  | some t' => Eff.modify fun _ => t'
  | none => Eff.fail e

def writeFile (p : AbsolutePath) (content : Text) : Eff IoError Files Unit := do
  let t ← Eff.read
  commit (t.write p.names content)
    (if t.node? p.names = some .dir then errorIsADirectory else missing t p)

def createDirectory (p : AbsolutePath) : Eff IoError Files Unit := do
  let t ← Eff.read
  commit (t.createDirAll p.names)
    (if t.passable p.names.dropLast then errorExists else errorNotADirectory)

def remove (p : AbsolutePath) : Eff IoError Files Unit := do
  let t ← Eff.read
  match t.node? p.names with
  | some (.file _) => commit (t.removeFile p.names) errorNotFound
  | some .dir => commit (t.removeDir p.names) errorNotEmpty
  | none => Eff.fail (missing t p)

end Files

def localFileSystem : ExecutorFileSystem Files where
  readFileText p := fun t => (Files.readFileText p t, t)
  getMetadata p := fun t => (Files.getMetadata p t, t)
  writeFile := Files.writeFile
  createDirectory := Files.createDirectory
  remove := Files.remove

/-! ## The log of the calls -/

/-- A call that can change what stands at a path. -/
inductive Touch where
  | write (p : AbsolutePath)
  | createDirectory (p : AbsolutePath)
  | remove (p : AbsolutePath)
  deriving DecidableEq

/-- A file system with the calls that have been made to it. -/
structure Logged (S : Type) where
  state : S
  log : List Touch

namespace Logged

variable {S : Type}

def quiet {α : Type} (x : Eff IoError S α) : Eff IoError (Logged S) α := fun s =>
  ((x s.state).1, ⟨(x s.state).2, s.log⟩)

/-- Make the call and add it to the log, also when it fails. -/
def record (τ : Touch) (x : Eff IoError S Unit) : Eff IoError (Logged S) Unit := fun s =>
  ((x s.state).1, ⟨(x s.state).2, s.log ++ [τ]⟩)

end Logged

def logged {S : Type} (fs : ExecutorFileSystem S) : ExecutorFileSystem (Logged S) where
  readFileText p := Logged.quiet (fs.readFileText p)
  getMetadata p := Logged.quiet (fs.getMetadata p)
  writeFile p content := Logged.record (.write p) (fs.writeFile p content)
  createDirectory p := Logged.record (.createDirectory p) (fs.createDirectory p)
  remove p := Logged.record (.remove p) (fs.remove p)

end CodexStudy.ApplyPatch
