import CodexStudy.Lib.LinkedTree
import CodexStudy.NewCore.Runs

/-!
# Projects with links

Reading or writing a file of a project reaches another file where a link stands at its path or above it, or where
the file has a second name. The other paths are plain: there the calls of the operating system do what they do on the
tree that a walk finds.
-/

namespace CodexStudy.NewCore

open CodexStudy.Lib

/-- What the operating system does at a plain path. -/
class LawfulRoot (τ : Type) [Root τ] where
  /-- No link stands at the path or above it, and the file at it has no other name. -/
  Plain : τ → RelPath → Prop
  file?_eq {t : τ} {p : RelPath} : Plain t p → Root.file? t p = (Root.walk t).file? p
  present_eq {t : τ} {p : RelPath} : Plain t p → Root.present t p = (Root.walk t).present p
  lstat?_eq {t : τ} {p : RelPath} : Plain t p → Root.lstat? t p = Root.lstat? (Root.walk t) p
  walk_writeAll {t : τ} {p : RelPath} (c : Content) : Plain t p →
    (Root.writeAll t p c).map Root.walk = (Root.walk t).writeAll p c
  walk_removeFile {t : τ} {p : RelPath} : Plain t p →
    (Root.removeFile t p).map Root.walk = (Root.walk t).removeFile p
  plain_writeAll {t t' : τ} {p q : RelPath} {c : Content} : Plain t p → Root.writeAll t p c = some t' → Plain t q →
    Plain t' q
  plain_removeFile {t t' : τ} {p q : RelPath} : Plain t p → Root.removeFile t p = some t' → Plain t q → Plain t' q

export LawfulRoot (Plain)

instance : LawfulRoot Tree where
  Plain _ _ := True
  file?_eq _ := rfl
  present_eq _ := rfl
  lstat?_eq _ := rfl
  walk_writeAll _ _ := Option.map_id_apply
  walk_removeFile _ := Option.map_id_apply
  plain_writeAll _ _ _ := trivial
  plain_removeFile _ _ _ := trivial

/-! ## Symbolic links -/

abbrev LinkedRoot := LinkedTree String Content

instance : Root LinkedRoot where
  walk := LinkedTree.tree
  file? := LinkedTree.file?
  present := LinkedTree.present
  isDir := LinkedTree.isDir
  lstat? := LinkedTree.lstat?
  writeAll := LinkedTree.writeAll
  removeFile := LinkedTree.removeFile

instance : LawfulRoot LinkedRoot where
  Plain t p := Unlinked t.links p
  file?_eq := LinkedTree.file?_of_unlinked
  present_eq := LinkedTree.present_of_unlinked
  lstat?_eq := LinkedTree.lstat?_of_unlinked
  walk_writeAll _ := LinkedTree.writeAll_of_unlinked
  walk_removeFile := LinkedTree.removeFile_of_unlinked
  plain_writeAll _ h hq := by rw [LinkedTree.links_writeAll h]; exact hq
  plain_removeFile hp h hq := by rw [LinkedTree.links_removeFile hp h]; exact hq

/-! ## The disk without its links -/

section

variable {τ : Type} [Root τ]

/-- The disk with the tree that a walk of the project finds. -/
def DiskOf.walked (d : DiskOf τ) : Disk where
  original := Root.walk d.original
  workspace := d.workspace
  manifest := d.manifest
  record := d.record
  before := d.before
  afterMerge := d.afterMerge
  locks := d.locks

variable [LawfulRoot τ]

/-- The path is plain in the project, and so is the path of the project that a link of the workspace shows there. -/
def PlainAt (ws : Workspace) (original : τ) (p : RelPath) : Prop :=
  Plain original p ∧ ∀ q, ws.resolve p = .inr q → Plain original q

theorem plainAt_ofTree {tree : Tree} {t : τ} {p : RelPath} (h : Plain t p) : PlainAt (.ofTree tree) t p := by
  refine ⟨h, fun q hq => ?_⟩
  cases p <;> cases hq

/-- The paths of a list of entries are plain. -/
def PlainPaths (d : DiskOf τ) (cs : List ChangedFile) : Prop := ∀ c ∈ cs, PlainAt d.workspaceTree d.original c.path

end

/-- A project of two files with a link that leads to the second one. -/
def sampleBase : LinkedRoot where
  tree := sampleTree [(["a.txt"], "base"), (["b.txt"], "base")]
  links := [(["l.txt"], ["b.txt"])]
  apart := by decide +kernel

end CodexStudy.NewCore
