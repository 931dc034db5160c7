import CodexStudy.ApplyPatch.Lemmas.Local
import Mathlib.Logic.Function.Basic

/-!
# Each hunk can be taken back
-/

namespace CodexStudy.ApplyPatch

open CodexStudy.Lib Eff Function Bool List

/-! ## Taking an application back -/

section

variable {S ι κ : Type}

structure FileView (S ι κ : Type) where
  /-- The content of a file that a text is written to. -/
  encode : Text → κ
  /-- The file that a path leads to when no link stands at the path itself. -/
  loc : AbsolutePath → ι
  file : S → ι → Option κ
  link : S → AbsolutePath → Prop
  /-- A link whose target is missing. -/
  dangling : S → AbsolutePath → Prop
  /-- A file that has another name as well, through a hard link. -/
  shared : S → AbsolutePath → Prop

/-- The regular files and the links are the same. -/
def FileView.Same (V : FileView S ι κ) (s s' : S) : Prop :=
  V.file s' = V.file s ∧ V.link s' = V.link s ∧ V.dangling s' = V.dangling s ∧ V.shared s' = V.shared s

theorem FileView.Same.refl (V : FileView S ι κ) (s : S) : V.Same s s := ⟨rfl, rfl, rfl, rfl⟩

theorem FileView.Same.trans {V : FileView S ι κ} {s s₁ s' : S} (h₁ : V.Same s s₁) (h₂ : V.Same s₁ s') : V.Same s s' :=
  ⟨h₂.1.trans h₁.1, h₂.2.1.trans h₁.2.1, h₂.2.2.1.trans h₁.2.2.1, h₂.2.2.2.trans h₁.2.2.2⟩

/-- What the calls of a file system may be relied on to do. -/
structure Lawful [DecidableEq ι] (fs : ExecutorFileSystem S) (V : FileView S ι κ) : Prop where
  metadata_regular : ∀ p s m s', fs.getMetadata p s = (.ok m, s') → m.isFile = true → m.isSymlink = false →
    ¬ V.link s p
  metadata_notFound : ∀ p s e s', fs.getMetadata p s = (.error e, s') → e.kind = .notFound → V.link s p →
    V.dangling s p
  metadata_same : ∀ p s m s', fs.getMetadata p s = (.ok m, s') → V.Same s s'
  read_ok : ∀ p s c s', fs.readFileText p s = (.ok c, s') → ¬ V.link s p → V.file s (V.loc p) = some (V.encode c)
  read_notFound : ∀ p s e s', fs.readFileText p s = (.error e, s') → e.kind = .notFound → ¬ V.link s p →
    V.file s (V.loc p) = none
  read_dangling : ∀ p s c s', fs.readFileText p s = (.ok c, s') → ¬ V.dangling s p
  read_same : ∀ p s c s', fs.readFileText p s = (.ok c, s') → V.Same s s'
  write_ok : ∀ p c s u s', fs.writeFile p c s = (.ok u, s') → ¬ V.link s p → ¬ V.shared s p →
    V.file s' = update (V.file s) (V.loc p) (some (V.encode c))
  write_error : ∀ p c s e s', fs.writeFile p c s = (.error e, s') → ¬ V.link s p → ¬ V.shared s p →
    ∀ i, i ≠ V.loc p → V.file s' i = V.file s i
  write_link : ∀ p c s q, V.link (fs.writeFile p c s).2 q → V.link s q
  write_shared : ∀ p c s q, V.shared (fs.writeFile p c s).2 q → V.shared s q
  create_file : ∀ p s, V.file (fs.createDirectory p s).2 = V.file s
  create_link : ∀ p s q, V.link (fs.createDirectory p s).2 q → V.link s q
  create_shared : ∀ p s q, V.shared (fs.createDirectory p s).2 q → V.shared s q
  remove_ok : ∀ p s u s', fs.remove p s = (.ok u, s') → ¬ V.link s p →
    V.file s' = update (V.file s) (V.loc p) none
  remove_error : ∀ p s e s', fs.remove p s = (.error e, s') → ¬ V.link s p →
    V.file s' = V.file s ∨ V.file s' = update (V.file s) (V.loc p) none
  remove_link : ∀ p s q, V.link (fs.remove p s).2 q → V.link s q

/-- A call that only looks changes no file and no link when it fails. -/
def QuietReads (fs : ExecutorFileSystem S) (V : FileView S ι κ) : Prop :=
  (∀ p s e s', fs.getMetadata p s = (.error e, s') → V.Same s s') ∧
    ∀ p s e s', fs.readFileText p s = (.error e, s') → V.Same s s'

/-! ## Undoing changes -/

section

variable [DecidableEq ι]

def undoChange (V : FileView S ι κ) (c : AppliedPatchChange) (files : ι → Option κ) : ι → Option κ :=
  match c.change with
  | .add _ overwritten => update files (V.loc c.path) (overwritten.map V.encode)
  | .delete content => update files (V.loc c.path) (some (V.encode content))
  | .update none old _ _ => update files (V.loc c.path) (some (V.encode old))
  | .update (some dest) old overwritten _ =>
      update (update files (V.loc dest) (overwritten.map V.encode)) (V.loc c.path)
        (some (V.encode old))

/-- Take changes back from the last to the first. -/
def undoChanges (V : FileView S ι κ) (changes : List AppliedPatchChange) (files : ι → Option κ) : ι → Option κ :=
  changes.foldr (undoChange V) files

theorem undoChanges_append (V : FileView S ι κ) (as bs : List AppliedPatchChange) (files : ι → Option κ) :
    undoChanges V (as ++ bs) files = undoChanges V as (undoChanges V bs files) := foldr_append

end

/-! ## Links whose target is missing, and files with several names -/

def Hunk.targets (home : Option Text) (cwd : AbsolutePath) : Hunk → List AbsolutePath
  | addFile path _ => [resolvePathAgainstBase home path cwd]
  | deleteFile _ => []
  | updateFile _ movePath _ => (movePath.map fun dest => resolvePathAgainstBase home dest cwd).toList

/-- When a hunk is applied, no link with a missing target stands at a path it adds or moves to, and no file with several
names at the path it writes to. -/
def OwnTargets (fs : ExecutorFileSystem S) (V : FileView S ι κ) (home : Option Text) (cwd : AbsolutePath) :
    List Hunk → Progress S → Prop
  | [], _ => True
  | hunk :: hunks, st =>
      (∀ p ∈ hunk.targets home cwd, ¬ V.dangling st.fs p) ∧ (∀ p ∈ hunk.written home cwd, ¬ V.shared st.fs p) ∧
        ∀ u st', applyHunk fs home cwd hunk st = (.ok u, st') → OwnTargets fs V home cwd hunks st'

end

variable {S ι κ : Type} [DecidableEq ι] {fs : ExecutorFileSystem S} {V : FileView S ι κ} {home : Option Text}
  {cwd : AbsolutePath}

def Reversible (V : FileView S ι κ) (st st' : Progress S) : Prop :=
  st'.delta.exact = true → st.delta.exact = true ∧ ∃ added, st'.delta.changes = st.delta.changes ++ added ∧
    undoChanges V added (V.file st'.fs) = V.file st.fs

theorem Reversible.refl (st : Progress S) : Reversible V st st :=
  fun h => ⟨h, [], (append_nil _).symm, rfl⟩

variable {st st₁ st' : Progress S} {p : AbsolutePath} {c : Text} {u : Unit} {overwritten : Option Text}

theorem Reversible.trans (h₁ : Reversible V st st₁) (h₂ : Reversible V st₁ st') :
    Reversible V st st' := by
  intro hex
  obtain ⟨hex₁, bs, hbs, hundo₂⟩ := h₂ hex
  obtain ⟨hex₀, as, has, hundo₁⟩ := h₁ hex₁
  refine ⟨hex₀, as ++ bs, by rw [hbs, has, append_assoc], ?_⟩
  rw [undoChanges_append, hundo₂, hundo₁]

structure Looked (V : FileView S ι κ) (st st' : Progress S) : Prop where
  same : V.Same st.fs st'.fs
  changes : st'.delta.changes = st.delta.changes
  exact : st'.delta.exact = true → st.delta.exact = true

omit [DecidableEq ι] in
theorem Looked.trans (h₁ : Looked V st st₁) (h₂ : Looked V st₁ st') : Looked V st st' :=
  ⟨h₁.same.trans h₂.same, h₂.changes.trans h₁.changes, fun h => h₁.exact (h₂.exact h)⟩

theorem Looked.reversible (h : Looked V st st') : Reversible V st st' :=
  fun hex => ⟨h.exact hex, [], by rw [h.changes, append_nil], h.same.1⟩

section

variable (hl : Lawful fs V) (hq : QuietReads fs V)

include hl hq

theorem metadata_looked (p : AbsolutePath) (s : S) : V.Same s (fs.getMetadata p s).2 := by
  rcases hx : fs.getMetadata p s with ⟨e | m, s'⟩
  · exact hq.1 p s e s' hx
  · exact hl.metadata_same p s m s' hx

theorem read_looked (p : AbsolutePath) (s : S) : V.Same s (fs.readFileText p s).2 := by
  rcases hx : fs.readFileText p s with ⟨e | c, s'⟩
  · exact hq.2 p s e s' hx
  · exact hl.read_same p s c s' hx

/-! ## Looking -/

theorem noteExistingPathDeltaSupport_spec (p : AbsolutePath) (st : Progress S) :
    ∃ st', noteExistingPathDeltaSupport fs p st = (.ok (), st') ∧ Looked V st st' ∧
      (st'.delta.exact = true → V.link st.fs p → V.dangling st.fs p) := by
  have hsame := metadata_looked hl hq p st.fs
  rcases hx : fs.getMetadata p st.fs with ⟨e | m, s'⟩
  · rw [hx] at hsame
    refine ⟨(setExact (e.kind == .notFound) { st with fs := s' }).2, ?_, ⟨hsame, rfl, ?_⟩, ?_⟩
    · simp only [noteExistingPathDeltaSupport, bind_apply, observe, hx]
      rfl
    · exact fun h => (and_eq_true_iff.mp h).1
    · intro h
      exact hl.metadata_notFound p st.fs e s' hx (by simpa using (and_eq_true_iff.mp h).2)
  · rw [hx] at hsame
    refine ⟨(setExact (m.isFile && !m.isSymlink) { st with fs := s' }).2, ?_, ⟨hsame, rfl, ?_⟩, ?_⟩
    · simp only [noteExistingPathDeltaSupport, bind_apply, observe, hx]
      rfl
    · exact fun h => (and_eq_true_iff.mp h).1
    · intro h hlink
      have hregular := and_eq_true_iff.mp (and_eq_true_iff.mp h).2
      exact absurd hlink (hl.metadata_regular p st.fs m s' hx hregular.1 (by simpa using hregular.2))

theorem readOptionalFileTextForDelta_spec (p : AbsolutePath) (st : Progress S) :
    ∃ overwritten st', readOptionalFileTextForDelta fs p st = (.ok overwritten, st') ∧ Looked V st st' ∧
      (st'.delta.exact = true → ¬ V.dangling st.fs p →
        ¬ V.link st.fs p ∧ V.file st.fs (V.loc p) = overwritten.map V.encode) := by
  obtain ⟨st₁, hnote, hlkd, hlink⟩ := noteExistingPathDeltaSupport_spec hl hq p st
  have hsame := read_looked hl hq p st₁.fs
  obtain ⟨hfile₁, hlink₁, -⟩ := hlkd.same
  rcases hx : fs.readFileText p st₁.fs with ⟨e | c, s'⟩
  · rw [hx] at hsame
    refine ⟨none, (setExact (e.kind == .notFound) { st₁ with fs := s' }).2, ?_, ?_, ?_⟩
    · simp only [readOptionalFileTextForDelta, bind_apply, hnote, observe, hx]
      rfl
    · exact hlkd.trans ⟨hsame, rfl, fun h => (and_eq_true_iff.mp h).1⟩
    · intro h hdng
      obtain ⟨h₁, hkind⟩ := and_eq_true_iff.mp h
      have hno : ¬ V.link st.fs p := fun hl => hdng (hlink h₁ hl)
      refine ⟨hno, ?_⟩
      rw [← hfile₁]
      exact hl.read_notFound p st₁.fs e s' hx (by simpa using hkind) (by rwa [hlink₁])
  · rw [hx] at hsame
    refine ⟨some c, { st₁ with fs := s' }, ?_, hlkd.trans ⟨hsame, rfl, id⟩, ?_⟩
    · simp only [readOptionalFileTextForDelta, bind_apply, hnote, observe, hx]
      rfl
    · intro h hdng
      have hno : ¬ V.link st.fs p := fun hl => hdng (hlink h hl)
      refine ⟨hno, ?_⟩
      rw [← hfile₁]
      exact hl.read_ok p st₁.fs c s' hx (by rwa [hlink₁])

theorem deriveNewContents_spec (p : AbsolutePath) (chunks : List UpdateFileChunk) (st : Progress S) :
    Eff.Post st (onFs .patch (deriveNewContentsFromChunks fs p chunks)) fun r st' => Looked V st st' ∧
      st'.delta = st.delta ∧ ∀ patch, r = .ok patch → (V.link st.fs p → V.dangling st.fs p) →
        ¬ V.link st.fs p ∧ V.file st.fs (V.loc p) = some (V.encode patch.originalContents) := by
  have hsame := read_looked hl hq p st.fs
  unfold Eff.Post
  simp only [onFs, deriveNewContentsFromChunks]
  rcases hx : fs.readFileText p st.fs with ⟨e | c, s'⟩
  · rw [hx] at hsame
    exact ⟨⟨hsame, rfl, id⟩, rfl, fun _ h => by cases h⟩
  · rw [hx] at hsame
    dsimp only
    cases newContentsFromChunks p.display c chunks with
    | error message => exact ⟨⟨hsame, rfl, id⟩, rfl, fun _ h => by cases h⟩
    | ok newContents =>
        refine ⟨⟨hsame, rfl, id⟩, rfl, ?_⟩
        intro patch hpatch hlink
        cases hpatch
        have hno : ¬ V.link st.fs p := fun h => hl.read_dangling p st.fs c s' hx (hlink h)
        exact ⟨hno, hl.read_ok p st.fs c s' hx hno⟩

/-! ## Writing and removing -/

omit [DecidableEq ι] hl hq in
theorem writeFileWithMissingParentRetry_delta
    (h : writeFileWithMissingParentRetry fs p c st = (.ok u, st')) : st'.delta = st.delta := by
  obtain ⟨written, st₁, hobserve, h₁⟩ := bind_eq_ok.mp h
  cases hobserve
  rcases hx : fs.writeFile p c st.fs with ⟨e | u', s₁⟩
  · rw [hx] at h₁
    dsimp only at h₁
    by_cases hkind : e.kind = .notFound
    · rw [if_pos hkind] at h₁
      obtain ⟨_, st₂, hcreate, h₂⟩ := bind_eq_ok.mp h₁
      refine (onFs_eq_ok h₂).2.trans ?_
      unfold createParentDirectories at hcreate
      cases hparent : p.parent with
      | none => rw [hparent] at hcreate; cases hcreate; rfl
      | some parent => rw [hparent] at hcreate; exact (onFs_eq_ok hcreate).2
    · rw [if_neg hkind] at h₁
      cases h₁
  · rw [hx] at h₁
    cases h₁
    rfl

omit hq in
/-- A write that is retried has failed once and may have changed its target before it succeeds. -/
theorem writeFileWithMissingParentRetry_ok
    (h : writeFileWithMissingParentRetry fs p c st = (.ok u, st')) (hlink : ¬ V.link st.fs p)
    (hshared : ¬ V.shared st.fs p) : V.file st'.fs = update (V.file st.fs) (V.loc p) (some (V.encode c)) ∧
      ∀ q, V.link st'.fs q → V.link st.fs q := by
  obtain ⟨written, st₁, hobserve, h₁⟩ := bind_eq_ok.mp h
  cases hobserve
  have hmono := hl.write_link p c st.fs
  have hmonoShared := hl.write_shared p c st.fs
  rcases hx : fs.writeFile p c st.fs with ⟨e | u', s₁⟩
  · rw [hx] at h₁ hmono hmonoShared
    have hothers := hl.write_error p c st.fs e s₁ hx hlink hshared
    dsimp only at h₁
    by_cases hkind : e.kind = .notFound
    · rw [if_pos hkind] at h₁
      obtain ⟨_, st₂, hcreate, h₂⟩ := bind_eq_ok.mp h₁
      obtain ⟨hwrite, -⟩ := onFs_eq_ok h₂
      obtain ⟨hfile₂, hmono₂, hmonoShared₂⟩ : V.file st₂.fs = V.file s₁ ∧ (∀ q, V.link st₂.fs q → V.link s₁ q) ∧
          ∀ q, V.shared st₂.fs q → V.shared s₁ q := by
        unfold createParentDirectories at hcreate
        cases hparent : p.parent with
        | none =>
            rw [hparent] at hcreate
            cases hcreate
            exact ⟨rfl, fun _ h => h, fun _ h => h⟩
        | some parent =>
            rw [hparent] at hcreate
            obtain ⟨hcreated, -⟩ := onFs_eq_ok hcreate
            have hf := hl.create_file parent s₁
            have hm := hl.create_link parent s₁
            have hms := hl.create_shared parent s₁
            rw [hcreated] at hf hm hms
            exact ⟨hf, hm, hms⟩
      have hlink₂ : ¬ V.link st₂.fs p := fun h => hlink (hmono p (hmono₂ p h))
      have hshared₂ : ¬ V.shared st₂.fs p := fun h => hshared (hmonoShared p (hmonoShared₂ p h))
      refine ⟨?_, ?_⟩
      · rw [hl.write_ok p c st₂.fs u st'.fs hwrite hlink₂ hshared₂, hfile₂]
        funext i
        by_cases hi : i = V.loc p
        · rw [hi, update_self, update_self]
        · rw [update_of_ne hi, update_of_ne hi, hothers i hi]
      · intro q hqlink
        have hm := hl.write_link p c st₂.fs q
        rw [hwrite] at hm
        exact hmono q (hmono₂ q (hm hqlink))
    · rw [if_neg hkind] at h₁
      cases h₁
  · rw [hx] at h₁ hmono
    cases h₁
    exact ⟨hl.write_ok p c st.fs u' s₁ hx hlink hshared, hmono⟩

theorem removeOriginal_spec (context : Text) (p : AbsolutePath) (expected : Option Text) (st : Progress S)
    (hlink : ¬ V.link st.fs p) :
    Eff.Post st (removeOriginal fs context p expected) fun r st' =>
      st'.delta.changes = st.delta.changes ∧ (st'.delta.exact = true → st.delta.exact = true) ∧
        match r with
        | .ok _ => V.file st'.fs = update (V.file st.fs) (V.loc p) none ∧ st'.delta.exact = st.delta.exact
        | .error _ => st'.delta.exact = true → V.file st'.fs = V.file st.fs := by
  have hmeta := metadata_looked hl hq p st.fs
  refine post_bind ?_ ?_
  · -- The path could not be looked at, or it is a directory.
    intro e st' h
    have hsame : V.Same st.fs st'.fs ∧ st'.delta = st.delta := by
      simp only [ensureNotDirectory, bind_apply, onFs] at h
      rcases hx : fs.getMetadata p st.fs with ⟨e' | m, s'⟩
      · rw [hx] at h hmeta
        cases h
        exact ⟨hmeta, rfl⟩
      · rw [hx] at h hmeta
        dsimp only at h
        by_cases hdir : m.isDirectory = true
        · rw [if_pos hdir] at h; cases h; exact ⟨hmeta, rfl⟩
        · rw [if_neg hdir] at h; cases h
    exact ⟨by rw [hsame.2], fun h => by rwa [hsame.2] at h, fun _ => hsame.1.1⟩
  · intro _ st₁ h
    have hsame : V.Same st.fs st₁.fs ∧ st₁.delta = st.delta := by
      obtain ⟨m, st₂, hm, h₁⟩ := bind_eq_ok.mp h
      obtain ⟨hx, hdel⟩ := onFs_eq_ok hm
      rw [hx] at hmeta
      by_cases hdir : m.isDirectory = true
      · rw [if_pos hdir] at h₁; cases h₁
      · rw [if_neg hdir] at h₁; cases h₁; exact ⟨hmeta, hdel⟩
    obtain ⟨⟨hfile₁, hlink₁, -⟩, hdel₁⟩ := hsame
    have hno₁ : ¬ V.link st₁.fs p := by rwa [hlink₁]
    have hmono := hl.remove_link p st₁.fs
    unfold Eff.Post
    simp only [bind_apply, observe]
    rcases hx : fs.remove p st₁.fs with ⟨e | u, s₂⟩
    · rw [hx] at hmono
      have hno₂ : ¬ V.link s₂ p := fun h => hno₁ (hmono p h)
      dsimp only
      cases expected with
      | none =>
          refine ⟨by rw [← hdel₁]; rfl, ?_, ?_⟩
          · intro h; cases (and_eq_true_iff.mp h).2
          · intro h; cases (and_eq_true_iff.mp h).2
      | some expected =>
          have hread := read_looked hl hq p s₂
          rcases hy : fs.readFileText p s₂ with ⟨e' | c, s₃⟩
          · rw [hy] at hread
            simp only [removeFailureWasSideEffectFree, bind_apply, observe, hy]
            refine ⟨by rw [← hdel₁]; rfl, ?_, ?_⟩
            · intro h; cases (and_eq_true_iff.mp h).2
            · intro h; cases (and_eq_true_iff.mp h).2
          · rw [hy] at hread
            simp only [removeFailureWasSideEffectFree, bind_apply, observe, hy]
            refine ⟨by rw [← hdel₁]; rfl, ?_, ?_⟩
            · intro h
              rw [← hdel₁]
              exact (and_eq_true_iff.mp h).1
            · intro _
              change V.file s₃ = _
              rw [hread.1, ← hfile₁]
              rcases hl.remove_error p st₁.fs e s₂ hx hno₁ with hkept | hgone
              · exact hkept
              · have hc := hl.read_ok p s₂ c s₃ hy hno₂
                rw [hgone, update_self] at hc
                cases hc
    · refine ⟨by rw [← hdel₁]; rfl, fun h => by rw [← hdel₁]; exact h, ?_, by rw [← hdel₁]; rfl⟩
      change V.file s₂ = _
      rw [hl.remove_ok p st₁.fs u s₂ hx hno₁, hfile₁]

end

/-! ## Knowledge that is lost stays lost -/

def ExactBefore (st st' : Progress S) : Prop := st'.delta.exact = true → st.delta.exact = true

instance : Std.Refl (ExactBefore (S := S)) := ⟨fun _ h => h⟩

instance : IsTrans (Progress S) ExactBefore := ⟨fun _ _ _ h₁ h₂ h => h₁ (h₂ h)⟩

theorem exactBefore_modify {f : Progress S → Progress S} (h : ∀ st, (f st).delta.exact = true → st.delta.exact = true) :
    Eff.Respects ExactBefore (modify f : Eff ApplyError (Progress S) Unit) := respects_modify h

theorem exactBefore_onFs {ε α : Type} (wrap : ε → ApplyError) (x : Eff ε S α) :
    Eff.Respects ExactBefore (onFs wrap x) := by
  intro st h
  simp only [onFs] at h
  rcases hx : x st.fs with ⟨_ | _, _⟩
  · rw [hx] at h; exact h
  · rw [hx] at h; exact h

theorem exactBefore_observe {ε α : Type} (x : Eff ε S α) : Eff.Respects ExactBefore (observe x) := fun _ h => h

theorem exactBefore_removeOriginal (context : Text) (p : AbsolutePath) (expected : Option Text) :
    Eff.Respects ExactBefore (removeOriginal fs context p expected) := by
  have hensure : Eff.Respects ExactBefore (ensureNotDirectory fs context p) := by
    refine (exactBefore_onFs _ _).bind fun m => ?_
    split
    · exact respects_fail _
    · exact respects_pure _
  refine hensure.bind fun _ => (exactBefore_observe _).bind fun removed => ?_
  cases removed with
  | ok _ => exact respects_pure _
  | error e =>
      refine Eff.Respects.bind ?_ fun keep =>
        (exactBefore_modify fun _ h => (and_eq_true_iff.mp h).1).bind fun _ => respects_fail _
      cases expected with
      | none => exact respects_pure _
      | some expected => exact (exactBefore_observe _).bind fun _ => respects_pure _

theorem exactBefore_afterRead (context affected : Text) (p : AbsolutePath) (content : Option Text) :
    Eff.Respects ExactBefore (do
      removeOriginal fs context p content
      pushDeleted p content
      pushAffected fun a => { a with deleted := a.deleted ++ [affected] }) := by
  refine (exactBefore_removeOriginal _ _ _).bind fun _ => Eff.Respects.bind ?_ fun _ => exactBefore_modify fun _ h => h
  cases content with
  | some content => exact exactBefore_modify fun _ h => h
  | none => exact respects_pure _

theorem Reversible.of_inexact (h : st'.delta.exact = false) : Reversible V st st' := by
  intro hex
  rw [h] at hex
  cases hex

theorem Reversible.after (st₁ : Progress S) (hlkd : Looked V st st₁) (hmono : ExactBefore st₁ st')
    (h : st₁.delta.exact = true → Reversible V st₁ st') : Reversible V st st' :=
  fun hex => hlkd.reversible.trans (h (hmono hex)) hex

theorem tryWrite_error {α : Type} {x : Eff ApplyError (Progress S) α} {e : ApplyError}
    (h : tryWrite x st = (.error e, st')) : st'.delta.exact = false := by
  unfold tryWrite at h
  rcases hx : x st with ⟨_ | a, st₁⟩
  · rw [hx] at h; cases h; rfl
  · rw [hx] at h; cases h

/-! ## Hunks -/

section

variable (hl : Lawful fs V) (hq : QuietReads fs V)

include hl hq

/-- A file has been written after what stood there was read. -/
structure Overwrote (V : FileView S ι κ) (p : AbsolutePath) (c : Text) (overwritten : Option Text)
    (st st' : Progress S) : Prop where
  changes : st'.delta.changes = st.delta.changes
  exact : st'.delta.exact = true → st.delta.exact = true
  file : st'.delta.exact = true → V.file st'.fs = update (V.file st.fs) (V.loc p) (some (V.encode c))
  before : st'.delta.exact = true → V.file st.fs (V.loc p) = overwritten.map V.encode
  link : st'.delta.exact = true → ∀ q, V.link st'.fs q → V.link st.fs q

omit hl hq in
theorem Overwrote.undo (h : Overwrote V p c overwritten st st') (hexact : st'.delta.exact = true) :
    update (V.file st'.fs) (V.loc p) (overwritten.map V.encode) = V.file st.fs := by
  rw [h.file hexact, update_idem, ← h.before hexact, update_eq_self]

theorem overwrote_of_write {st₂ : Progress S}
    (hdng : ¬ V.dangling st.fs p) (hshared : ¬ V.shared st.fs p)
    (hread : readOptionalFileTextForDelta fs p st = (.ok overwritten, st₁))
    (hwr : tryWrite (writeFileWithMissingParentRetry fs p c) st₁ = (.ok (), st₂)) :
    Overwrote V p c overwritten st st₂ := by
  obtain ⟨ov, st', hread', hlkd, hbef⟩ := readOptionalFileTextForDelta_spec hl hq p st
  rw [hread] at hread'
  cases hread'
  obtain ⟨hfile₁, hlink₁, -, hshared₁⟩ := hlkd.same
  have hwr := tryWrite_eq_ok.mp hwr
  have hok : st₁.delta.exact = true → V.file st₂.fs = update (V.file st₁.fs) (V.loc p) (some (V.encode c)) ∧
      ∀ q, V.link st₂.fs q → V.link st₁.fs q := by
    intro h
    have hno : ¬ V.link st₁.fs p := by rw [hlink₁]; exact (hbef h hdng).1
    exact writeFileWithMissingParentRetry_ok hl hwr hno (by rwa [hshared₁])
  have hdel : st₂.delta = st₁.delta := writeFileWithMissingParentRetry_delta hwr
  refine ⟨?_, ?_, ?_, ?_, ?_⟩
  · rw [hdel, hlkd.changes]
  · intro h; rw [hdel] at h; exact hlkd.exact h
  · intro h; rw [hdel] at h; rw [(hok h).1, hfile₁]
  · intro h; rw [hdel] at h; exact (hbef h hdng).2
  · intro h q hqlink; rw [hdel] at h; rw [← hlink₁]; exact (hok h).2 q hqlink

theorem applyAddFile_reversible (affected : Text) (p : AbsolutePath) (c : Text) (st : Progress S)
    (hdng : ¬ V.dangling st.fs p) (hshared : ¬ V.shared st.fs p) : Reversible V st (applyAddFile fs affected p c st).2 := by
  obtain ⟨overwritten, st₁, hread, hlkd, -⟩ := readOptionalFileTextForDelta_spec hl hq p st
  rw [applyAddFile, bind_of_ok hread]
  rcases hx : tryWrite (writeFileWithMissingParentRetry fs p c) st₁ with ⟨e | u, st₂⟩
  · rw [bind_of_error hx]
    exact .of_inexact (tryWrite_error hx)
  · rw [bind_of_ok hx]
    have hover := overwrote_of_write hl hq hdng hshared hread hx
    intro hex
    have hex₂ : st₂.delta.exact = true := hex
    refine ⟨hover.exact hex₂, [⟨p, .add c overwritten⟩], ?_, hover.undo hex₂⟩
    change st₂.delta.changes ++ _ = _
    rw [hover.changes]

theorem remove_then_push (context affected : Text) (p : AbsolutePath) (content : Text) (st : Progress S)
    (hlink : ¬ V.link st.fs p) (hcont : V.file st.fs (V.loc p) = some (V.encode content)) :
    Reversible V st ((do
      removeOriginal fs context p (some content)
      pushDeleted p (some content)
      pushAffected fun a => { a with deleted := a.deleted ++ [affected] }) st).2 := by
  have hspec := post_iff.mp (removeOriginal_spec hl hq context p (some content) st hlink)
  rcases hx : removeOriginal fs context p (some content) st with ⟨e | u, st₁⟩
  · obtain ⟨hchgs, hex, hsame⟩ := hspec _ _ hx
    rw [bind_of_error hx]
    exact fun h => ⟨hex h, [], by rw [hchgs, append_nil], hsame h⟩
  · obtain ⟨hchgs, hex, hgone, -⟩ := hspec _ _ hx
    rw [bind_of_ok hx]
    intro h
    refine ⟨hex h, [⟨p, .delete content⟩], ?_, ?_⟩
    · change st₁.delta.changes ++ _ = _
      rw [hchgs]
    · change update (V.file st₁.fs) (V.loc p) (some (V.encode content)) = _
      rw [hgone, update_idem, ← hcont, update_eq_self]

theorem applyDeleteFile_reversible (affected : Text) (p : AbsolutePath) (st : Progress S) :
    Reversible V st (applyDeleteFile fs affected p st).2 := by
  obtain ⟨st₁, hnote, hlkd, hlink⟩ := noteExistingPathDeltaSupport_spec hl hq p st
  rw [applyDeleteFile, bind_of_ok hnote]
  have hsame := read_looked hl hq p st₁.fs
  rcases hx : fs.readFileText p st₁.fs with ⟨e | content, s₂⟩
  · -- What is removed could not be read, so the changes are not known exactly.
    rw [hx] at hsame
    have hread : observe (fs.readFileText p) st₁ = (.ok (.error e), { st₁ with fs := s₂ }) := by
      simp only [observe, hx]
    rw [bind_of_ok hread]
    refine Reversible.after (setExact false { st₁ with fs := s₂ }).2
      (hlkd.trans ⟨hsame, rfl, fun h => (and_eq_true_iff.mp h).1⟩) (exactBefore_afterRead _ _ _ _ _) ?_
    intro h
    cases (and_eq_true_iff.mp h).2
  · rw [hx] at hsame
    have hread : observe (fs.readFileText p) st₁ = (.ok (.ok content), { st₁ with fs := s₂ }) := by
      simp only [observe, hx]
    rw [bind_of_ok hread]
    refine Reversible.after (setExact true { st₁ with fs := s₂ }).2
      (hlkd.trans ⟨hsame, rfl, fun h => (and_eq_true_iff.mp h).1⟩) (exactBefore_afterRead _ _ _ _ _) ?_
    intro h
    have hno₁ : ¬ V.link st₁.fs p := by
      rw [hlkd.same.2.1]
      intro hl'
      have hd := hlink (and_eq_true_iff.mp h).1 hl'
      rw [← hlkd.same.2.2.1] at hd
      exact hl.read_dangling p st₁.fs content s₂ hx hd
    have hcont := hl.read_ok p st₁.fs content s₂ hx hno₁
    refine remove_then_push hl hq _ _ p content _ ?_ ?_
    · change ¬ V.link s₂ p
      rwa [hsame.2.1]
    · change V.file s₂ (V.loc p) = _
      rw [hsame.1, hcont]

omit hq in
theorem applyOverwrite_reversible (p : AbsolutePath) (patch : AppliedPatch) (st : Progress S)
    (hshared : ¬ V.shared st.fs p) (hlink : st.delta.exact = true → ¬ V.link st.fs p ∧
      V.file st.fs (V.loc p) = some (V.encode patch.originalContents)) :
    Reversible V st (applyOverwrite fs p patch st).2 := by
  rw [applyOverwrite]
  rcases hx : tryWrite (onFs (.io (failedToWrite p)) (fs.writeFile p patch.newContents)) st with ⟨e | u, st₁⟩
  · rw [bind_of_error hx]
    exact .of_inexact (tryWrite_error hx)
  · rw [bind_of_ok hx]
    obtain ⟨hwrite, hdelta⟩ := onFs_eq_ok (tryWrite_eq_ok.mp hx)
    intro hexact
    have hexact₁ : st₁.delta.exact = true := hexact
    rw [hdelta] at hexact₁
    obtain ⟨hno, hold⟩ := hlink hexact₁
    refine ⟨hexact₁, [⟨p, .update none patch.originalContents none patch.newContents⟩], ?_, ?_⟩
    · change st₁.delta.changes ++ _ = _
      rw [hdelta]
    · change update (V.file st₁.fs) (V.loc p) (some (V.encode patch.originalContents)) = _
      rw [hl.write_ok p _ st.fs u st₁.fs hwrite hno hshared, update_idem, ← hold, update_eq_self]

omit [DecidableEq ι] hl hq in
theorem pushChange_spec (c : AppliedPatchChange) (st : Progress S) :
    ∃ st', pushChange c st = (.ok (), st') ∧ st'.fs = st.fs ∧ st'.delta.changes = st.delta.changes ++ [c] ∧
      st'.delta.exact = st.delta.exact := ⟨_, rfl, rfl, rfl, rfl⟩

/-- The two writes of a move are undone together: the destination first, then the source. -/
theorem applyMove_reversible (p dest : AbsolutePath) (patch : AppliedPatch) (st : Progress S)
    (hdng : ¬ V.dangling st.fs dest) (hshared : ¬ V.shared st.fs dest)
    (hlink : st.delta.exact = true → ¬ V.link st.fs p ∧
      V.file st.fs (V.loc p) = some (V.encode patch.originalContents)) :
    Reversible V st (applyMove fs p dest patch st).2 := by
  obtain ⟨overwritten, st₁, hread, hlkd, -⟩ := readOptionalFileTextForDelta_spec hl hq dest st
  rw [applyMove, bind_of_ok hread]
  rcases hx : tryWrite (writeFileWithMissingParentRetry fs dest patch.newContents) st₁ with ⟨e | u, st₂⟩
  · rw [bind_of_error hx]
    exact .of_inexact (tryWrite_error hx)
  · obtain ⟨st₃, hpush, hfs, hchgs₃, hex₃⟩ := pushChange_spec ⟨dest, .add patch.newContents overwritten⟩ st₂
    rw [bind_of_ok hx, bind_of_ok hpush]
    have hover := overwrote_of_write hl hq hdng hshared hread hx
    intro hex
    have hmono : Eff.Respects ExactBefore (do
        removeOriginal fs ("Failed to remove original " ++ p.display) p (some patch.originalContents)
        replaceLastChange ⟨p, .update (some dest) patch.originalContents overwritten patch.newContents⟩) :=
      (exactBefore_removeOriginal _ _ _).bind fun _ => exactBefore_modify fun _ h => h
    have hex₂ : st₂.delta.exact = true := by
      rw [← hex₃]
      exact hmono st₃ hex
    have hex₀ := hover.exact hex₂
    obtain ⟨hno, hold⟩ := hlink hex₀
    have hno₃ : ¬ V.link st₃.fs p := by
      rw [hfs]
      exact fun h => hno (hover.link hex₂ p h)
    have hspec := post_iff.mp (removeOriginal_spec hl hq ("Failed to remove original " ++ p.display) p
      (some patch.originalContents) st₃ hno₃)
    rcases hy : removeOriginal fs ("Failed to remove original " ++ p.display) p (some patch.originalContents)
        st₃ with ⟨e | u', st₄⟩
    · -- The destination has been written and the source is still there.
      obtain ⟨hchgs, -, hsame⟩ := hspec _ _ hy
      rw [bind_of_error hy] at hex ⊢
      refine ⟨hex₀, [⟨dest, .add patch.newContents overwritten⟩], ?_, ?_⟩
      · rw [hchgs, hchgs₃, hover.changes]
      · change update (V.file st₄.fs) (V.loc dest) (overwritten.map V.encode) = _
        rw [hsame hex, hfs]
        exact hover.undo hex₂
    · obtain ⟨hchgs, -, hgone, -⟩ := hspec _ _ hy
      rw [bind_of_ok hy] at hex ⊢
      refine ⟨hex₀, [⟨p, .update (some dest) patch.originalContents overwritten patch.newContents⟩], ?_, ?_⟩
      · change st₄.delta.changes.dropLast ++ _ = _
        rw [hchgs, hchgs₃, dropLast_concat, hover.changes]
      · change update (update (V.file st₄.fs) (V.loc dest) (overwritten.map V.encode)) (V.loc p)
          (some (V.encode patch.originalContents)) = _
        have hundo := hover.undo hex₂
        rw [hgone, hfs]
        funext i
        by_cases hi : i = V.loc p
        · rw [hi, update_self, hold]
        · rw [update_of_ne hi]
          by_cases hd : i = V.loc dest
          · rw [hd, update_self, hover.before hex₂]
          · rw [update_of_ne hd, update_of_ne hi, ← hundo, update_of_ne hd]

/-- However the application of a hunk ends, its changes can be taken back while they are known exactly. -/
theorem applyHunk_reversible (hunk : Hunk) (st : Progress S) (hdng : ∀ p ∈ hunk.targets home cwd, ¬ V.dangling st.fs p)
    (hshared : ∀ p ∈ hunk.written home cwd, ¬ V.shared st.fs p) :
    Reversible V st (applyHunk fs home cwd hunk st).2 := by
  cases hunk with
  | addFile path contents => exact applyAddFile_reversible hl hq _ _ _ st (hdng _ mem_cons_self) (hshared _ mem_cons_self)
  | deleteFile path => exact applyDeleteFile_reversible hl hq _ _ st
  | updateFile path movePath chunks =>
      change Reversible V st (applyUpdateFile fs _ _ _ chunks st).2
      generalize hp : (Hunk.updateFile path movePath chunks).resolvePath home cwd = p
      obtain ⟨st₁, hnote, hlkd, hlink⟩ := noteExistingPathDeltaSupport_spec hl hq p st
      rw [applyUpdateFile, bind_of_ok hnote]
      have hspec := post_iff.mp (deriveNewContents_spec hl hq p chunks st₁)
      rcases hx : onFs .patch (deriveNewContentsFromChunks fs p chunks) st₁ with ⟨e | patch, st₂⟩
      · rw [bind_of_error hx]
        exact (hlkd.trans (hspec _ _ hx).1).reversible
      · rw [bind_of_ok hx]
        obtain ⟨hlkd₂, hdel₂, hpatch⟩ := hspec _ _ hx
        have hlook := hlkd.trans hlkd₂
        have hknown : st₂.delta.exact = true → ¬ V.link st₂.fs p ∧
            V.file st₂.fs (V.loc p) = some (V.encode patch.originalContents) := by
          intro h
          rw [hdel₂] at h
          have := hpatch patch rfl (by rw [hlkd.same.2.1, hlkd.same.2.2.1]; exact hlink h)
          rwa [hlkd₂.same.1, hlkd₂.same.2.1]
        have hpush : ∀ st₃ : Progress S, Reversible V st₂ st₃ → Reversible V st (pushAffected
            (fun a => { a with modified := a.modified ++ [(Hunk.updateFile path movePath chunks).path] }) st₃).2 :=
          fun st₃ h => hlook.reversible.trans h
        have hnew : Reversible V st₂ (applyNewContents fs p
            (movePath.map fun dest => resolvePathAgainstBase home dest cwd) patch st₂).2 := by
          cases movePath with
          | none =>
              refine applyOverwrite_reversible hl p patch st₂ ?_ hknown
              rw [hlook.same.2.2.2, ← hp]
              exact hshared _ mem_cons_self
          | some dest =>
              refine applyMove_reversible hl hq p _ patch st₂ ?_ ?_ hknown
              · rw [hlook.same.2.2.1]
                exact hdng _ mem_cons_self
              · rw [hlook.same.2.2.2]
                exact hshared _ mem_cons_self
        rcases hy : applyNewContents fs p (movePath.map fun dest => resolvePathAgainstBase home dest cwd) patch st₂ with
          ⟨e | u, st₃⟩
        · rw [hy] at hnew
          rw [bind_of_error hy]
          exact hlook.reversible.trans hnew
        · rw [hy] at hnew
          rw [bind_of_ok hy]
          exact hpush st₃ hnew

end

end CodexStudy.ApplyPatch
