import CodexStudy.ApplyPatch.Lemmas.Reversal

/-!
# Exact deltas are reversible

A delta that is marked as exact can be taken back from its last change to its first, wherever the application stopped.
-/

namespace CodexStudy.ApplyPatch

open CodexStudy.Lib Files Eff FileTree

/-! ## The local file system with symbolic links -/

inductive Entry where
  | text (content : Text)
  | link (target : AbsolutePath)
  deriving DecidableEq

abbrev LinkedFiles := FileTree Text Entry

variable (p : AbsolutePath) (t : LinkedFiles)

namespace LinkedFiles

def walk (t : LinkedFiles) : (done rest : List Text) → List Text ⊕ List Text
  | done, [] => .inl done
  | done, n :: rest =>
      match t.node? (done ++ [n]) with
      | some (.file (.link target)) => .inr (target.names ++ rest)
      | _ => walk t (done ++ [n]) rest

def follow (t : LinkedFiles) : (fuel : Nat) → List Text → Option (List Text)
  | 0, _ => none
  | fuel + 1, path =>
      match walk t [] path with
      | .inl canonical => some canonical
      | .inr path' => follow t fuel path'

def maxLinks : Nat := 40

def errorTooManyLinks : IoError := ⟨.other, "Too many levels of symbolic links (os error 40)"⟩

def target (p : List Text) : Except IoError (List Text) :=
  match follow t (maxLinks + 1) p with
  | some q => .ok q
  | none => .error errorTooManyLinks

def place (p : List Text) : Except IoError (List Text) :=
  match p.getLast? with
  | none => .ok []
  | some name => (target t p.dropLast).map fun dir => dir ++ [name]

def missing (q : List Text) : IoError :=
  if t.passable q.dropLast then errorNotFound else errorNotADirectory

def readFileText : Except IoError Text := do
  let q ← target t p.names
  match t.node? q with
  | some (.file (.text content)) =>
      if maxReadFileBytes < utf8Length content then
        .error ⟨.invalidInput, "file is too large to read: limit is 536870912 bytes"⟩
      else return content
  | some (.file (.link _)) => .error errorTooManyLinks
  | some .dir => .error errorIsADirectory
  | none => .error (missing t q)

def getMetadata : Except IoError FileMetadata := do
  let q ← target t p.names
  let r ← place t p.names
  let isSymlink := match t.node? r with
    | some (.file (.link _)) => true
    | _ => false
  match t.node? q with
  | some (.file _) => return { isDirectory := false, isFile := true, isSymlink }
  | some .dir => return { isDirectory := true, isFile := false, isSymlink }
  | none => .error (missing t q)

def commit (r : Except IoError LinkedFiles) : Except IoError Unit × LinkedFiles :=
  match r with
  | .ok t' => (.ok (), t')
  | .error e => (.error e, t)

def writeFile (content : Text) : Eff IoError LinkedFiles Unit := fun t =>
  commit t do
    let q ← target t p.names
    match t.write q (.text content) with
    | some t' => return t'
    | none => .error (if t.node? q = some .dir then errorIsADirectory else missing t q)

def createDirectory : Eff IoError LinkedFiles Unit := fun t =>
  commit t do
    let q ← target t p.names
    match t.createDirAll q with
    | some t' => return t'
    | none => .error (if t.passable q.dropLast then errorExists else errorNotADirectory)

def remove : Eff IoError LinkedFiles Unit := fun t =>
  commit t do
    let r ← place t p.names
    match t.node? r with
    | some (.file _) => match t.removeFile r with
      | some t' => return t'
      | none => .error errorNotFound
    | some .dir => match t.removeDir r with
      | some t' => return t'
      | none => .error errorNotEmpty
    | none => .error (missing t r)

end LinkedFiles

def linkedFileSystem : ExecutorFileSystem LinkedFiles where
  readFileText p := fun t => (LinkedFiles.readFileText p t, t)
  getMetadata p := fun t => (LinkedFiles.getMetadata p t, t)
  writeFile := LinkedFiles.writeFile
  createDirectory := LinkedFiles.createDirectory
  remove := LinkedFiles.remove

section

variable {S ι κ : Type} [DecidableEq ι] {fs : ExecutorFileSystem S} {V : FileView S ι κ} {home : Option Text}
  {cwd : AbsolutePath}

/-- However the application of the hunks ends, their changes can be taken back while they are known
exactly. -/
theorem each_applyHunk_reversible (hl : Lawful fs V) (hq : QuietReads fs V) {hunks : List Hunk} {st : Progress S}
    (htargets : OwnTargets fs V home cwd hunks st) : Reversible V st (each (applyHunk fs home cwd) hunks st).2 := by
  induction hunks generalizing st with
  | nil => exact .refl st
  | cons hunk hunks ih =>
      obtain ⟨hdng, hshared, hrest⟩ := htargets
      have hstep := applyHunk_reversible hl hq hunk st hdng hshared
      rw [each]
      rcases hx : applyHunk fs home cwd hunk st with ⟨e | u, st₁⟩
      · rw [hx] at hstep
        rw [bind_of_error hx]
        exact hstep
      · rw [hx] at hstep
        rw [bind_of_ok hx]
        have hrun := ih (hrest u st₁ hx)
        rcases hy : each (applyHunk fs home cwd) hunks st₁ with ⟨e | us, st₂⟩
        · rw [hy] at hrun
          rw [bind_of_error hy]
          exact hstep.trans hrun
        · rw [hy] at hrun
          rw [bind_of_ok hy]
          exact hstep.trans hrun

/-- The delta that a call of the tool returns, whether it succeeded or failed. -/
def Outcome.delta (o : Outcome S) : AppliedPatchDelta :=
  match o.result with
  | .ok delta => delta
  | .error failure => failure.delta

end

/-! ## Files without links -/

def filesView : FileView Files (List Text) Text where
  encode := id
  loc := AbsolutePath.names
  file t q := t.file? q
  link _ _ := False
  dangling _ _ := False
  shared _ _ := False

theorem lawful_localFileSystem : Lawful localFileSystem filesView where
  metadata_regular _ _ _ _ _ _ _ := id
  metadata_notFound _ _ _ _ _ _ h := h.elim
  metadata_same _ t _ t' h := by
    have ht : t = t' := congrArg Prod.snd h
    exact ht ▸ .refl _ _
  read_ok p t c t' h _ := by
    cases hread : readFileText p t with
    | error e => simp only [localFileSystem, hread] at h; cases h
    | ok c' =>
        simp only [localFileSystem, hread] at h
        cases h
        exact readFileText_eq_ok hread
  read_notFound p t e t' h hkind _ := by
    have hread : readFileText p t = .error e := congrArg Prod.fst h
    unfold readFileText at hread
    split at hread
    · split at hread
      · cases hread; cases hkind
      · cases hread
    · rename_i hnode
      exact file?_eq_none_of_dir hnode
    · rename_i hnode
      exact file?_eq_none_of_none hnode
  read_dangling _ _ _ _ _ := id
  read_same _ t _ t' h := by
    have ht : t = t' := congrArg Prod.snd h
    exact ht ▸ .refl _ _
  write_ok p c t u t' h _ _ := by
    funext q
    change t'.file? q = _
    rw [(writeFile_local h).file q, Function.update_apply]
    rfl
  write_error p c t e t' h _ := by
    intro _ i _
    rw [writeFile_local_error h]
  write_link _ _ _ _ := id
  write_shared _ _ _ _ := id
  create_file p t := by
    funext q
    change (localFileSystem.createDirectory p t).2.file? q = t.file? q
    simp only [localFileSystem, createDirectory, read_bind_apply]
    cases hc : t.createDirAll p.names with
    | none => rfl
    | some t' => exact createDirAll_file? hc q
  create_link _ _ _ := id
  create_shared _ _ _ := id
  remove_ok p t u t' h _ := by
    funext q
    change t'.file? q = Function.update t.file? p.names none q
    rw [Function.update_apply]
    by_cases hdir : t.node? p.names = some .dir
    · simp only [localFileSystem, remove, read_bind_apply, hdir] at h
      rw [removeDir_file? (commit_eq_ok.mp h) q]
      split
      · rename_i hq
        rw [hq]
        exact file?_eq_none_of_dir hdir
      · rfl
    · exact (remove_local hdir h).file? q
  remove_error p t e t' h _ := by
    refine .inl ?_
    simp only [localFileSystem, remove, read_bind_apply] at h
    rcases hnode : t.node? p.names with _ | c | _
    · rw [hnode] at h; cases h; rfl
    · rw [hnode] at h; rw [commit_eq_error h]
    · rw [hnode] at h; rw [commit_eq_error h]
  remove_link _ _ _ := id

theorem quietReads_localFileSystem : QuietReads localFileSystem filesView := by
  refine ⟨?_, ?_⟩
  · intro p t e t' h
    have ht : t = t' := congrArg Prod.snd h
    exact ht ▸ .refl _ _
  · intro p t e t' h
    have ht : t = t' := congrArg Prod.snd h
    exact ht ▸ .refl _ _

theorem ownTargets_filesView (home : Option Text) (cwd : AbsolutePath) (hunks : List Hunk)
    (st : Progress Files) : OwnTargets localFileSystem filesView home cwd hunks st := by
  induction hunks generalizing st with
  | nil => trivial
  | cons hunk hunks ih => exact ⟨fun _ _ => id, fun _ _ => id, fun _ _ _ => ih _⟩

def sampleHunks : List Hunk :=
  List.replicate 2 (.updateFile "a" (some "b")
    [{ changeContext := none, oldLines := ["x"], newLines := ["y"], isEndOfFile := false }])

def linkedView : FileView LinkedFiles (List Text) Text where
  encode := id
  loc := AbsolutePath.names
  file t q := match t.file? q with
    | some (.text content) => some content
    | _ => none
  link t p := ∃ q, t.file? p.names = some (.link q)
  dangling t p := ∃ q, t.file? p.names = some (.link q) ∧ t.node? q.names = none
  shared _ _ := False

def sampleLinks : LinkedFiles :=
  (ofFiles [(["w".toList, "a".toList], Entry.link ⟨["w".toList, "t".toList], by decide⟩)]).getD .empty

end CodexStudy.ApplyPatch
