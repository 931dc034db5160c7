import CodexStudy.Lib.FileTree

/-!
# Trees with symbolic links

A link stands at a path of its own and leads to another path of the tree.
-/

namespace CodexStudy.Lib

open List Option

variable {ν κ : Type} [DecidableEq ν]

variable (ν κ) in
structure LinkedTree where
  tree : FileTree ν κ
  links : List (List ν × List ν)
  apart : ∀ link ∈ links, tree.node? link.1 = none

/-- How many links are followed on the way to one path. -/
def maxLinks : Nat := 40

variable (links : List (List ν × List ν))

/-- Where the first link at the path or above it leads the path. -/
def firstLink (p : List ν) : Option (List ν) :=
  p.inits.findSome? fun q => (links.lookup q).map fun target => target ++ p.drop q.length

/-- No link stands at the path or above it. -/
def Unlinked (p : List ν) : Prop := ∀ q, q <+: p → links.lookup q = none

def follow : Nat → List ν → Option (List ν)
  | 0, p => if firstLink links p = none then some p else none
  | n + 1, p =>
    match firstLink links p with
    | none => some p
    | some q => follow n q

/-- Where the directory of a path leads, with the last name of the path in it. -/
def followDir (p : List ν) : Option (List ν) :=
  (follow links maxLinks p.dropLast).map fun dir => dir ++ p.getLast?.toList

section

variable {links : List (List ν × List ν)} {p q : List ν} {n : Nat}

theorem firstLink_eq_none : firstLink links p = none ↔ Unlinked links p := by
  simp [firstLink, Unlinked, findSome?_eq_none_iff]

instance : Decidable (Unlinked links p) := decidable_of_iff _ firstLink_eq_none

theorem Unlinked.of_prefix (h : Unlinked links p) (hq : q <+: p) : Unlinked links q :=
  fun r hr => h r (hr.trans hq)

theorem follow_of_unlinked (h : Unlinked links p) : follow links n p = some p := by
  cases n with
  | zero => rw [follow, if_pos (firstLink_eq_none.mpr h)]
  | succ n => rw [follow, firstLink_eq_none.mpr h]

theorem unlinked_of_follow (h : follow links n p = some q) : Unlinked links q := by
  induction n generalizing p with
  | zero =>
      rw [follow] at h
      split at h
      · rename_i hp
        cases h
        exact firstLink_eq_none.mp hp
      · cases h
  | succ n ih =>
      rw [follow] at h
      split at h
      · rename_i hp
        cases h
        exact firstLink_eq_none.mp hp
      · exact ih h

theorem followDir_of_unlinked (h : Unlinked links p) : followDir links p = some p := by
  rw [followDir, follow_of_unlinked (h.of_prefix ( dropLast_prefix p))]
  rcases eq_nil_or_concat p with rfl | ⟨dir, name, rfl⟩
  · rfl
  · simp

theorem Unlinked.ne_of_mem (h : Unlinked links p) {link : List ν × List ν} (hlink : link ∈ links) : ¬ link.1 <+: p := by
  intro hpre
  have hnone := h link.1 hpre
  rw [lookup_eq_none_iff] at hnone
  simpa using hnone link hlink

end

namespace LinkedTree

/-! ## Reading -/

variable (t : LinkedTree ν κ) (p : List ν)

def file? : Option κ := (follow t.links maxLinks p).bind t.tree.file?

def present : Bool := (follow t.links maxLinks p).any t.tree.present

def isDir [DecidableEq κ] (t : LinkedTree ν κ) (p : List ν) : Bool :=
  (follow t.links maxLinks p).any fun q => t.tree.node? q = some .dir

/-- The regular file that stands at the path itself, if the directory above it can be reached. -/
def lstat? : Option (Option κ) :=
  (followDir t.links p).bind fun q => if t.tree.passable q.dropLast then some (t.tree.file? q) else none

/-! ## Writing -/

variable [DecidableEq κ] {t : LinkedTree ν κ} {p : List ν} {c : κ}

/-- No link above the path leads to something that is no directory: where one does, none can be created. -/
def dirsLead (t : LinkedTree ν κ) (p : List ν) : Bool :=
  p.dropLast.inits.all fun q => (t.links.lookup q).isNone || t.isDir q

theorem apart_write {dir q : List ν} {tree : FileTree ν κ} (hdir : follow t.links maxLinks p.dropLast = some dir)
    (hq : follow t.links maxLinks p = some q) (h : ((t.tree.createDirAll dir).bind fun u => u.write q c) = some tree) :
    ∀ link ∈ t.links, tree.node? link.1 = none := by
  intro link hlink
  obtain ⟨u, hu, hw⟩ := bind_eq_some_iff.mp h
  have hne : link.1 ≠ q := fun heq => (unlinked_of_follow hq).ne_of_mem hlink (heq ▸ prefix_refl _)
  rw [FileTree.write_node? hw, if_neg hne, FileTree.createDirAll_node? hu,
    if_neg ((unlinked_of_follow hdir).ne_of_mem hlink)]
  exact t.apart link hlink

/-- The directories above the path are created, and the file is written where the path leads. -/
def writeAll (t : LinkedTree ν κ) (p : List ν) (c : κ) : Option (LinkedTree ν κ) :=
  if t.dirsLead p then
    match hdir : follow t.links maxLinks p.dropLast, hq : follow t.links maxLinks p with
    | some dir, some q =>
      match h : (t.tree.createDirAll dir).bind fun u => u.write q c with
      | some tree => some { tree, links := t.links, apart := apart_write hdir hq h }
      | none => none
    | _, _ => none
  else none

omit [DecidableEq κ] in
theorem apart_remove {q : List ν} {tree : FileTree ν κ} (h : t.tree.removeFile q = some tree) :
    ∀ link ∈ t.links, tree.node? link.1 = none := by
  intro link hlink
  rw [FileTree.removeFile_node? h, t.apart link hlink, ite_self]

/-- A link is removed itself, not the file it leads to. -/
def removeFile (t : LinkedTree ν κ) (p : List ν) : Option (LinkedTree ν κ) :=
  (followDir t.links p).bind fun q =>
    if (t.links.lookup q).isSome then
      some { tree := t.tree, links := t.links.filter fun link => link.1 ≠ q
             apart := fun link hlink => t.apart link (mem_of_mem_filter hlink) }
    else
      match h : t.tree.removeFile q with
      | some tree => some { tree, links := t.links, apart := apart_remove h }
      | none => none

/-! ## Paths without links -/

section

variable (hp : Unlinked t.links p)

include hp

omit [DecidableEq κ] in
theorem file?_of_unlinked : t.file? p = t.tree.file? p := by
  rw [file?, follow_of_unlinked hp, bind_some]

omit [DecidableEq κ] in
theorem present_of_unlinked : t.present p = t.tree.present p := by
  rw [present, follow_of_unlinked hp, any_some]

omit [DecidableEq κ] in
theorem lstat?_of_unlinked :
    t.lstat? p = if t.tree.passable p.dropLast then some (t.tree.file? p) else none := by
  rw [lstat?, followDir_of_unlinked hp, bind_some]

theorem writeAll_of_unlinked : (t.writeAll p c).map tree = t.tree.writeAll p c := by
  have hdirs : t.dirsLead p = true := by
    rw [dirsLead, List.all_eq_true]
    intro q hq
    rw [hp q (((mem_inits _ _).mp hq).trans ( dropLast_prefix p))]
    rfl
  have hdir : follow t.links maxLinks p.dropLast = some p.dropLast :=
    follow_of_unlinked (hp.of_prefix ( dropLast_prefix p))
  rw [writeAll, if_pos hdirs]
  split
  · rename_i dir q h₁ h₂
    cases hdir.symm.trans h₁
    cases (follow_of_unlinked hp).symm.trans h₂
    split
    · rename_i h; exact h.symm
    · rename_i h; exact h.symm
  · rename_i hno
    exact (hno _ _ hdir (follow_of_unlinked hp)).elim

omit [DecidableEq κ] in
theorem removeFile_of_unlinked : (t.removeFile p).map tree = t.tree.removeFile p := by
  rw [removeFile, followDir_of_unlinked hp, bind_some, hp p (prefix_refl p), if_neg (by simp)]
  split
  · rename_i h; exact h.symm
  · rename_i h; exact h.symm

end

theorem links_writeAll {t' : LinkedTree ν κ} (h : t.writeAll p c = some t') : t'.links = t.links := by
  unfold writeAll at h
  split at h
  · split at h
    · split at h
      · cases h; rfl
      · cases h
    · cases h
  · cases h

omit [DecidableEq κ] in
theorem links_removeFile {t' : LinkedTree ν κ} (hp : Unlinked t.links p) (h : t.removeFile p = some t') :
    t'.links = t.links := by
  rw [removeFile, followDir_of_unlinked hp, bind_some, hp p (prefix_refl p), if_neg (by simp)] at h
  split at h
  · cases h; rfl
  · cases h

end LinkedTree

end CodexStudy.Lib
