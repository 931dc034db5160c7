import CodexStudy.ApplyPatch.Lemmas.Touches

/-!
# Hunks on the local file system
-/

namespace CodexStudy.ApplyPatch

open CodexStudy.Lib Eff List FileTree Files Hunk

/-! ## The changes of a preview -/

section

variable {S : Type} {fs : ExecutorFileSystem S} {unifiedDiff : Text → Text → Text} {home : Option Text}
  {cwd : AbsolutePath} {s s' : S}

/-- The hunk is one of the hunks, and no later one starts from the same path. -/
def Hunk.IsLast (home : Option Text) (cwd : AbsolutePath) (hunks : List Hunk) (hunk : Hunk) : Prop :=
  ∃ before after, hunks = before ++ hunk :: after ∧
    ∀ other ∈ after, other.resolvePath home cwd ≠ hunk.resolvePath home cwd

variable {hunks : List Hunk} {hunk : Hunk} {action : ApplyPatchAction} {args : ApplyPatchArgs}

theorem Hunk.IsLast.mem (h : hunk.IsLast home cwd hunks) : hunk ∈ hunks := by
  obtain ⟨before, after, rfl, _⟩ := h
  simp

theorem Hunk.IsLast.cons (h : hunk.IsLast home cwd hunks) (first : Hunk) :
    hunk.IsLast home cwd (first :: hunks) := by
  obtain ⟨before, after, rfl, haft⟩ := h
  exact ⟨first :: before, after, rfl, haft⟩

variable (home cwd) in
theorem exists_isLast {hunks : List Hunk} {hunk : Hunk} (h : hunk ∈ hunks) :
    ∃ last : Hunk, last.IsLast home cwd hunks ∧ last.resolvePath home cwd = hunk.resolvePath home cwd := by
  induction hunks generalizing hunk with
  | nil => cases h
  | cons first rest ih =>
      by_cases hlater : ∃ other ∈ rest, other.resolvePath home cwd = hunk.resolvePath home cwd
      · obtain ⟨other, hother, hpath⟩ := hlater
        obtain ⟨last, hlast, hlastpath⟩ := ih hother
        exact ⟨last, hlast.cons first, hlastpath.trans hpath⟩
      · rcases mem_cons.mp h with rfl | h
        · exact ⟨hunk, ⟨[], rest, rfl, fun other hother hpath => hlater ⟨other, hother, hpath⟩⟩, rfl⟩
        · exact absurd ⟨hunk, h, rfl⟩ hlater

theorem isLast_cons {first : Hunk} : hunk.IsLast home cwd (first :: hunks) ↔ hunk.IsLast home cwd hunks ∨
      hunk = first ∧ ∀ other ∈ hunks, other.resolvePath home cwd ≠ hunk.resolvePath home cwd := by
  constructor
  · rintro ⟨before, after, h, haft⟩
    cases before with
    | nil => cases h; exact .inr ⟨rfl, haft⟩
    | cons b before => cases h; exact .inl ⟨before, after, rfl, haft⟩
  · rintro (h | ⟨rfl, h⟩)
    · exact h.cons first
    · exact ⟨[], hunks, rfl, h⟩

/-! ## The entries of the changes -/

def Previews (fs : ExecutorFileSystem S) (unifiedDiff : Text → Text → Text) (home : Option Text) (cwd : AbsolutePath)
    (I : S → Prop) (hunk : Hunk) (c : ApplyPatchFileChange) : Prop :=
  ∃ s s', I s ∧ previewHunk fs unifiedDiff home cwd hunk s = (.ok c, s')

structure ChangesOf (fs : ExecutorFileSystem S) (unifiedDiff : Text → Text → Text) (home : Option Text)
    (cwd : AbsolutePath) (I : S → Prop) (hunks : List Hunk)
    (changes : Finmap fun _ : AbsolutePath => ApplyPatchFileChange) : Prop where
  source : ∀ p c, changes.lookup p = some c → ∃ hunk : Hunk, hunk.IsLast home cwd hunks ∧
    hunk.resolvePath home cwd = p ∧ Previews fs unifiedDiff home cwd I hunk c
  entry : ∀ hunk : Hunk, hunk.IsLast home cwd hunks →
    ∃ c, changes.lookup (hunk.resolvePath home cwd) = some c ∧ Previews fs unifiedDiff home cwd I hunk c

theorem previewHunks_changes {I : S → Prop}
    (hI : ∀ hunk s c s', I s → previewHunk fs unifiedDiff home cwd hunk s = (.ok c, s') → I s')
    {m changes : Finmap fun _ : AbsolutePath => ApplyPatchFileChange} (hs : I s)
    (h : previewHunks fs unifiedDiff home cwd hunks m s = (.ok changes, s')) : (∀ p c, changes.lookup p = some c →
      (∃ hunk : Hunk, hunk.IsLast home cwd hunks ∧ hunk.resolvePath home cwd = p ∧
        Previews fs unifiedDiff home cwd I hunk c) ∨
      (∀ hunk ∈ hunks, hunk.resolvePath home cwd ≠ p) ∧ m.lookup p = some c) ∧
    (∀ hunk : Hunk, hunk.IsLast home cwd hunks →
      ∃ c, changes.lookup (hunk.resolvePath home cwd) = some c ∧ Previews fs unifiedDiff home cwd I hunk c) ∧
    ∀ p, (∀ hunk ∈ hunks, hunk.resolvePath home cwd ≠ p) → changes.lookup p = m.lookup p := by
  induction hunks generalizing m s with
  | nil =>
      cases h
      refine ⟨fun p c hc => .inr ⟨by simp, hc⟩, ?_, fun p _ => rfl⟩
      intro hunk hlast
      cases hlast.mem
  | cons first rest ih =>
      obtain ⟨change, s₁, hchg, h⟩ := bind_eq_ok.mp h
      have hs₁ := hI first s change s₁ hs hchg
      have hfst : Previews fs unifiedDiff home cwd I first change := ⟨s, s₁, hs, hchg⟩
      obtain ⟨hsrc, hent, hframe⟩ := ih hs₁ h
      refine ⟨?_, ?_, ?_⟩
      · intro p c hc
        rcases hsrc p c hc with ⟨hunk, hlast, hpath, hpreview⟩ | ⟨hnone, hc⟩
        · exact .inl ⟨hunk, hlast.cons first, hpath, hpreview⟩
        · by_cases hp : p = first.resolvePath home cwd
          · subst hp
            rw [Finmap.lookup_insert] at hc
            cases hc
            exact .inl ⟨first, isLast_cons.mpr (.inr ⟨rfl, hnone⟩), rfl, hfst⟩
          · rw [Finmap.lookup_insert_of_ne _ hp] at hc
            refine .inr ⟨?_, hc⟩
            intro hunk hmem
            rcases mem_cons.mp hmem with rfl | hmem
            · exact Ne.symm hp
            · exact hnone hunk hmem
      · intro hunk hlast
        rcases isLast_cons.mp hlast with hlast | ⟨rfl, hnone⟩
        · exact hent hunk hlast
        · refine ⟨change, ?_, hfst⟩
          rw [hframe _ hnone, Finmap.lookup_insert]
      · intro p hnone
        rw [hframe p fun hunk hmem => hnone hunk (mem_cons_of_mem _ hmem)]
        exact Finmap.lookup_insert_of_ne _ (hnone first mem_cons_self).symm

theorem verifyApplyPatchArgs_eq_body (h : verifyApplyPatchArgs fs unifiedDiff home args cwd s = (.body action, s')) :
    action.patch = args.patch ∧ action.cwd = effectiveCwd home args.workdir cwd ∧
      previewHunks fs unifiedDiff home action.cwd args.hunks ∅ s = (.ok action.changes, s') := by
  unfold verifyApplyPatchArgs at h
  dsimp only at h
  split at h
  · rename_i hpreview
    cases h
    exact ⟨rfl, rfl, hpreview⟩
  · cases h

theorem verifyApplyPatchArgs_changes {I : S → Prop}
    (hI : ∀ cwd hunk s c s', I s → previewHunk fs unifiedDiff home cwd hunk s = (.ok c, s') → I s') (hs : I s)
    (h : verifyApplyPatchArgs fs unifiedDiff home args cwd s = (.body action, s')) :
    ChangesOf fs unifiedDiff home action.cwd I args.hunks action.changes := by
  obtain ⟨_, _, hpreview⟩ := verifyApplyPatchArgs_eq_body h
  obtain ⟨hsrc, hent, _⟩ := previewHunks_changes (hI action.cwd) hs hpreview
  refine ⟨?_, hent⟩
  intro p c hc
  rcases hsrc p c hc with hlast | ⟨_, hnone⟩
  · exact hlast
  · rw [Finmap.lookup_empty] at hnone; cases hnone

/-! ## The paths of the changes -/

theorem previewHunk_paths {c : ApplyPatchFileChange} (h : previewHunk fs unifiedDiff home cwd hunk s = (.ok c, s')) :
    c.paths (hunk.resolvePath home cwd) = hunk.touched home cwd := by
  cases hunk with
  | addFile path contents => cases h; rfl
  | deleteFile path =>
      unfold previewHunk at h
      dsimp only at h
      split at h
      · cases h; rfl
      · cases h
  | updateFile path movePath chunks =>
      obtain ⟨patch, _, _, h⟩ := bind_eq_ok.mp h
      cases h
      cases movePath with
      | none => rfl
      | some dest => rfl

/-- The path is the key of a change or the destination of a move. -/
def ApplyPatchAction.Covers (action : ApplyPatchAction) (p : AbsolutePath) : Prop :=
  ∃ key change, action.changes.lookup key = some change ∧ p ∈ change.paths key

theorem covers_iff (h : verifyApplyPatchArgs fs unifiedDiff home args cwd s = (.body action, s')) (p : AbsolutePath) :
    action.Covers p ↔ (∃ hunk ∈ args.hunks, hunk.resolvePath home action.cwd = p) ∨
      ∃ hunk : Hunk, hunk.IsLast home action.cwd args.hunks ∧ ∃ dest, hunk.movePath = some dest ∧
        resolvePathAgainstBase home dest action.cwd = p := by
  have hchgs := verifyApplyPatchArgs_changes (I := fun _ => True) (fun _ _ _ _ _ _ _ => trivial) trivial h
  constructor
  · rintro ⟨key, change, hlk, hp⟩
    obtain ⟨hunk, hlast, rfl, _, _, _, hpreview⟩ := hchgs.source key change hlk
    rw [previewHunk_paths hpreview] at hp
    rcases mem_cons.mp hp with rfl | hp
    · exact .inl ⟨hunk, hlast.mem, rfl⟩
    · obtain ⟨dest, hdest, rfl⟩ := Option.map_eq_some_iff.mp (Option.mem_toList.mp hp)
      exact .inr ⟨hunk, hlast, dest, hdest, rfl⟩
  · rintro (⟨hunk, hmem, rfl⟩ | ⟨hunk, hlast, dest, hdest, rfl⟩)
    · obtain ⟨last, hlast, hpath⟩ := exists_isLast home action.cwd hmem
      obtain ⟨c, hc, _, _, _, hpreview⟩ := hchgs.entry last hlast
      refine ⟨_, c, hc, ?_⟩
      rw [previewHunk_paths hpreview, ← hpath]
      exact mem_cons_self
    · obtain ⟨c, hc, _, _, _, hpreview⟩ := hchgs.entry hunk hlast
      refine ⟨_, c, hc, ?_⟩
      rw [previewHunk_paths hpreview]
      exact mem_cons_of_mem _ (Option.mem_toList.mpr (Option.map_eq_some_iff.mpr ⟨dest, hdest, rfl⟩))

end

variable {unifiedDiff : Text → Text → Text} {home : Option Text} {cwd : AbsolutePath}

/-! ## The preview -/

variable {t t' t₁ : Files} {p : AbsolutePath} {e : IoError} {u : Unit} {c : Text} {st' st : Progress Files}
    {hunk : Hunk} {q : List Text}

theorem readFileText_eq_ok {content : Text} (h : readFileText p t = .ok content) : t.file? p.names = some content := by
  unfold readFileText at h
  split at h
  · rename_i hnode
    split at h
    · cases h
    · cases h
      exact file?_eq_some.mpr hnode
  · cases h
  · cases h

theorem deriveNewContents_local (p : AbsolutePath) (chunks : List UpdateFileChunk) (t : Files) :
    (deriveNewContentsFromChunks localFileSystem p chunks t).2 = t := by
  simp only [deriveNewContentsFromChunks, localFileSystem]
  cases readFileText p t with
  | error e => rfl
  | ok content =>
      dsimp only
      cases newContentsFromChunks p.display content chunks with
      | error _ => rfl
      | ok _ => rfl

theorem deriveNewContents_eq_ok {chunks : List UpdateFileChunk} {patch : AppliedPatch}
    (h : deriveNewContentsFromChunks localFileSystem p chunks t = (.ok patch, t')) :
    t' = t ∧ t.file? p.names = some patch.originalContents ∧
      newContentsFromChunks p.display patch.originalContents chunks = .ok patch.newContents := by
  have ht' : t' = t := by
    have := deriveNewContents_local p chunks t
    rw [h] at this
    exact this
  refine ⟨ht', ?_⟩
  simp only [deriveNewContentsFromChunks, localFileSystem] at h
  cases hread : readFileText p t with
  | error e => rw [hread] at h; cases h
  | ok content =>
      rw [hread] at h
      dsimp only at h
      cases hnew : newContentsFromChunks p.display content chunks with
      | error _ => rw [hnew] at h; cases h
      | ok newContents =>
          rw [hnew] at h
          cases h
          exact ⟨readFileText_eq_ok hread, hnew⟩

variable (unifiedDiff home cwd) in
theorem previewHunk_local (hunk : Hunk) (t : Files) :
    (previewHunk localFileSystem unifiedDiff home cwd hunk t).2 = t := by
  cases hunk with
  | addFile path contents => rfl
  | deleteFile path =>
      simp only [previewHunk, localFileSystem]
      cases readFileText ((deleteFile path).resolvePath home cwd) t with
      | error e => rfl
      | ok content => rfl
  | updateFile path movePath chunks =>
      have h := deriveNewContents_local ((updateFile path movePath chunks).resolvePath home cwd) chunks t
      simp only [previewHunk, bind_apply]
      rcases hx : deriveNewContentsFromChunks localFileSystem ((updateFile path movePath chunks).resolvePath home cwd)
          chunks t with ⟨_ | patch, t'⟩
      · rw [hx] at h; exact h
      · rw [hx] at h; exact h

variable (unifiedDiff home cwd) in
theorem previewHunks_local (hunks : List Hunk) (m : Finmap fun _ : AbsolutePath => ApplyPatchFileChange) (t : Files) :
    (previewHunks localFileSystem unifiedDiff home cwd hunks m t).2 = t := by
  induction hunks generalizing m with
  | nil => rfl
  | cons hunk hunks ih =>
      have h := previewHunk_local unifiedDiff home cwd hunk t
      simp only [previewHunks, bind_apply]
      rcases hx : previewHunk localFileSystem unifiedDiff home cwd hunk t with ⟨_ | change, t'⟩
      · rw [hx] at h; exact h
      · rw [hx] at h
        cases h
        exact ih _

theorem verify_local_state (unifiedDiff : Text → Text → Text) (home : Option Text) (args : ApplyPatchArgs)
    (cwd : AbsolutePath) (t : Files) : (verifyApplyPatchArgs localFileSystem unifiedDiff home args cwd t).2 = t := by
  have h := previewHunks_local unifiedDiff home
    (effectiveCwd home args.workdir cwd) args.hunks ∅ t
  unfold verifyApplyPatchArgs
  dsimp only
  rcases hx : previewHunks localFileSystem unifiedDiff home (effectiveCwd home args.workdir cwd) args.hunks ∅ t with
    ⟨_ | changes, t'⟩
  · rw [hx] at h; exact h
  · rw [hx] at h; exact h

/-! ## Writing and removing -/

structure Written (t t' : Files) (p : AbsolutePath) (c : Text) : Prop where
  file : ∀ q, t'.file? q = if q = p.names then some c else t.file? q
  vacant : ∀ q, t.node? q = none → ¬ q <+: p.names → t'.node? q = none
  dir : ∀ q, t.node? q = some .dir → t'.node? q = some .dir

structure Removed (t t' : Files) (p : AbsolutePath) : Prop where
  file : t.file? p.names ≠ none
  node : ∀ q, t'.node? q = if q = p.names then none else t.node? q

theorem Removed.file? (h : Removed t t' p) (q : List Text) :
    t'.file? q = if q = p.names then none else t.file? q := by
  have hnode := h.node q
  by_cases hq : q = p.names
  · rw [if_pos hq] at hnode ⊢; exact FileTree.file?_eq_none_of_none hnode
  · rw [if_neg hq] at hnode ⊢; simp [FileTree.file?, hnode]

theorem commit_eq_ok {t' : Option Files} : commit t' e t = (.ok u, t₁) ↔ t' = some t₁ := by
  cases t' with
  | none =>
      constructor
      · intro h; cases h
      · intro h; cases h
  | some t' =>
      constructor
      · intro h; cases h; rfl
      · intro h; cases h; rfl

theorem written_of_write (h : t.write p.names c = some t') : Written t t' p c := by
  have hw : t.writable p.names := write_isSome.mp (by rw [h]; rfl)
  refine ⟨write_file? h, ?_, ?_⟩
  · intro q hq hpre
    rw [write_node? h, if_neg]
    · exact hq
    · rintro rfl
      exact hpre (prefix_refl _)
  · intro q hq
    rw [write_node? h, if_neg]
    · exact hq
    · rintro rfl
      exact hw.2.1 hq

theorem writeFile_local (h : localFileSystem.writeFile p c t = (.ok u, t')) : Written t t' p c :=
  written_of_write (commit_eq_ok.mp h)

theorem commit_eq_error {t' : Option Files} {e' : IoError} (h : commit t' e t = (.error e', t₁)) : t₁ = t := by
  cases t' with
  | none => cases h; rfl
  | some _ => cases h

theorem writeFile_local_error (h : localFileSystem.writeFile p c t = (.error e, t')) : t' = t := by
  simp only [localFileSystem, writeFile, read_bind_apply] at h
  exact commit_eq_error h

theorem createDirectory_local
    (h : localFileSystem.createDirectory p t = (.ok u, t')) : t.createDirAll p.names = some t' :=
  commit_eq_ok.mp h

theorem Written.of_createDirAll {parent : AbsolutePath} (hparent : p.parent = some parent)
    (h₁ : t.createDirAll parent.names = some t₁) (h : Written t₁ t' p c) : Written t t' p c := by
  have hnms := AbsolutePath.names_of_parent hparent
  refine ⟨?_, ?_, ?_⟩
  · intro q
    rw [h.file, createDirAll_file? h₁]
  · intro q hq hpre
    refine h.vacant q ?_ hpre
    rw [createDirAll_node? h₁, if_neg]
    · exact hq
    · intro hq'
      rw [hnms] at hq'
      exact hpre (hq'.trans ( dropLast_prefix _))
  · intro q hq
    refine h.dir q ?_
    rw [createDirAll_node? h₁]
    split
    · rfl
    · exact hq

theorem remove_local (hdir : t.node? p.names ≠ some .dir)
    (h : localFileSystem.remove p t = (.ok u, t')) : Removed t t' p := by
  simp only [localFileSystem, remove, read_bind_apply] at h
  cases hnode : t.node? p.names with
  | none => rw [hnode] at h; cases h
  | some node =>
      cases node with
      | dir => exact absurd hnode hdir
      | file c =>
          rw [hnode] at h
          have hremove := commit_eq_ok.mp h
          exact ⟨by rw [file?_eq_some.mpr hnode]; simp, removeFile_node? hremove⟩

/-! ## The application of a hunk -/

theorem onFs_eq_ok {S ε α : Type} {wrap : ε → ApplyError} {x : Eff ε S α} {st st' : Progress S} {a : α}
    (h : onFs wrap x st = (.ok a, st')) : x st.fs = (.ok a, st'.fs) ∧ st'.delta = st.delta := by
  simp only [onFs] at h
  split at h
  · rename_i hx
    cases h
    exact ⟨hx, rfl⟩
  · cases h

theorem fs_of_modify {S : Type} {f : Progress S → AppliedPatchDelta} {g : Progress S → AffectedPaths}
    {st st' : Progress S} {r : Except ApplyError Unit}
    (h : (modify (fun st => ⟨st.fs, f st, g st⟩) : Eff ApplyError (Progress S) Unit) st = (r, st')) :
    st'.fs = st.fs := by
  cases h
  rfl

theorem noteExistingPathDeltaSupport_local (p : AbsolutePath) (st : Progress Files) :
    (noteExistingPathDeltaSupport localFileSystem p st).2.fs = st.fs := by
  simp only [noteExistingPathDeltaSupport, bind_apply, observe, localFileSystem]
  cases getMetadata p st.fs with
  | ok metadata => rfl
  | error source => rfl

theorem readOptionalFileTextForDelta_local (p : AbsolutePath) (st : Progress Files) :
    (readOptionalFileTextForDelta localFileSystem p st).2.fs = st.fs := by
  have hnote := noteExistingPathDeltaSupport_local p st
  simp only [readOptionalFileTextForDelta, bind_apply]
  rcases hx : noteExistingPathDeltaSupport localFileSystem p st with ⟨_ | u, st₁⟩
  · rw [hx] at hnote; exact hnote
  · rw [hx] at hnote
    dsimp only [observe, localFileSystem]
    cases readFileText p st₁.fs with
    | ok content => exact hnote
    | error source => exact hnote

theorem writeFileWithMissingParentRetry_local
    (h : writeFileWithMissingParentRetry localFileSystem p c st = (.ok u, st')) : Written st.fs st'.fs p c := by
  obtain ⟨written, st₁, hobserve, h⟩ := bind_eq_ok.mp h
  cases hobserve
  rcases hx : localFileSystem.writeFile p c st.fs with ⟨e | u', t₁⟩
  · rw [hx] at h
    have ht₁ := writeFile_local_error hx
    subst ht₁
    dsimp only at h
    by_cases hkind : e.kind = .notFound
    · rw [if_pos hkind] at h
      obtain ⟨_, st₂, hcr, h⟩ := bind_eq_ok.mp h
      have hwr := writeFile_local (onFs_eq_ok h).1
      unfold createParentDirectories at hcr
      cases hparent : p.parent with
      | some parent =>
          rw [hparent] at hcr
          exact hwr.of_createDirAll hparent (createDirectory_local (onFs_eq_ok hcr).1)
      | none =>
          rw [hparent] at hcr
          cases hcr
          exact hwr
    · rw [if_neg hkind] at h
      cases h
  · rw [hx] at h
    cases h
    exact writeFile_local hx

theorem getMetadata_eq_ok {metadata : FileMetadata} (h : getMetadata p t = .ok metadata)
    (hdir : metadata.isDirectory = false) : t.node? p.names ≠ some .dir := by
  intro hnode
  simp only [getMetadata, hnode] at h
  cases h
  cases hdir

theorem removeOriginal_local {context : Text} {expected : Option Text}
    (h : removeOriginal localFileSystem context p expected st = (.ok u, st')) : Removed st.fs st'.fs p := by
  obtain ⟨_, st₁, hensure, h⟩ := bind_eq_ok.mp h
  obtain ⟨metadata, st₂, hmetadata, hensure⟩ := bind_eq_ok.mp hensure
  obtain ⟨hmeta, -⟩ := onFs_eq_ok hmetadata
  rw [localFileSystem, Prod.mk.injEq] at hmeta
  split at hensure
  · cases hensure
  · rename_i hdir
    cases hensure
    obtain ⟨removed, st₃, hremove, h⟩ := bind_eq_ok.mp h
    cases hremove
    rcases hx : localFileSystem.remove p st₁.fs with ⟨e | u', t₁⟩
    · rw [hx] at h
      obtain ⟨_, _, _, h⟩ := bind_eq_ok.mp h
      obtain ⟨_, _, _, h⟩ := bind_eq_ok.mp h
      cases h
    · rw [hx] at h
      cases h
      rw [← hmeta.2] at hx
      exact remove_local (getMetadata_eq_ok hmeta.1 (by simpa using hdir)) hx

inductive HunkEffect (home : Option Text) (cwd : AbsolutePath) : Hunk → Files → Files → Prop where
  | add {path contents t t'} : Written t t' (resolvePathAgainstBase home path cwd) contents →
      HunkEffect home cwd (.addFile path contents) t t'
  | delete {path t t'} : Removed t t' (resolvePathAgainstBase home path cwd) →
      HunkEffect home cwd (.deleteFile path) t t'
  | update {path chunks t t' old new} : t.file? (resolvePathAgainstBase home path cwd).names = some old →
      newContentsFromChunks (resolvePathAgainstBase home path cwd).display old chunks = .ok new →
      Written t t' (resolvePathAgainstBase home path cwd) new →
      HunkEffect home cwd (.updateFile path none chunks) t t'
  | move {path dest chunks t t₁ t' old new} : t.file? (resolvePathAgainstBase home path cwd).names = some old →
      newContentsFromChunks (resolvePathAgainstBase home path cwd).display old chunks = .ok new →
      Written t t₁ (resolvePathAgainstBase home dest cwd) new →
      Removed t₁ t' (resolvePathAgainstBase home path cwd) →
      HunkEffect home cwd (.updateFile path (some dest) chunks) t t'

theorem applyHunk_local
    (h : applyHunk localFileSystem home cwd hunk st = (.ok u, st')) : HunkEffect home cwd hunk st.fs st'.fs := by
  cases hunk with
  | addFile path contents =>
      obtain ⟨_, st₁, hread, h⟩ := bind_eq_ok.mp h
      obtain ⟨_, st₂, hwr, h⟩ := bind_eq_ok.mp h
      cases h
      have hst₁ := readOptionalFileTextForDelta_local ((addFile path contents).resolvePath home cwd) st
      rw [hread] at hst₁
      have hwritten := writeFileWithMissingParentRetry_local (tryWrite_eq_ok.mp hwr)
      rw [hst₁] at hwritten
      exact .add hwritten
  | deleteFile path =>
      obtain ⟨_, st₁, hnote, h₁⟩ := bind_eq_ok.mp h
      obtain ⟨content, st₂, hread, h₂⟩ := bind_eq_ok.mp h₁
      obtain ⟨_, st₃, hex, h₃⟩ := bind_eq_ok.mp h₂
      obtain ⟨_, st₄, hremove, h₄⟩ := bind_eq_ok.mp h₃
      have hst₂ : st₂.fs = st₁.fs := by cases hread; rfl
      have hst₃ : st₃.fs = st₂.fs := fs_of_modify hex
      have hst₁ := noteExistingPathDeltaSupport_local ((deleteFile path).resolvePath home cwd) st
      rw [hnote] at hst₁
      have hrem := removeOriginal_local hremove
      have hst' : st'.fs = st₄.fs := by
        obtain ⟨_, st₅, hpush, hdone⟩ := bind_eq_ok.mp h₄
        rw [fs_of_modify hdone]
        cases hcont : content.toOption with
        | some _ => rw [hcont, pushDeleted] at hpush; exact fs_of_modify hpush
        | none => rw [hcont] at hpush; cases hpush; rfl
      have hfs : st₁.fs = st.fs := hst₁
      rw [hst₃, hst₂, hfs] at hrem
      rw [hst']
      exact .delete hrem
  | updateFile path movePath chunks =>
      obtain ⟨_, st₁, hnote, h⟩ := bind_eq_ok.mp h
      obtain ⟨patch, st₂, hderive, h⟩ := bind_eq_ok.mp h
      obtain ⟨_, st₃, hnew, hdone⟩ := bind_eq_ok.mp h
      rw [fs_of_modify hdone]
      have hst₁ := noteExistingPathDeltaSupport_local ((updateFile path movePath chunks).resolvePath home cwd) st
      rw [hnote] at hst₁
      obtain ⟨hst₂, hold, hconts⟩ := deriveNewContents_eq_ok (onFs_eq_ok hderive).1
      rw [hst₁] at hold hst₂
      cases movePath with
      | none =>
          obtain ⟨_, st₄, hwr, hnew⟩ := bind_eq_ok.mp hnew
          rw [fs_of_modify hnew]
          have hwritten := writeFile_local (onFs_eq_ok (tryWrite_eq_ok.mp hwr)).1
          rw [hst₂] at hwritten
          exact .update hold hconts hwritten
      | some dest =>
          obtain ⟨_, st₄, hread, hnew⟩ := bind_eq_ok.mp hnew
          obtain ⟨_, st₅, hwr, hnew⟩ := bind_eq_ok.mp hnew
          obtain ⟨_, st₆, hpush, hnew⟩ := bind_eq_ok.mp hnew
          obtain ⟨_, st₇, hremove, hnew⟩ := bind_eq_ok.mp hnew
          rw [fs_of_modify hnew]
          have hst₆ : st₆.fs = st₅.fs := fs_of_modify hpush
          have hst₄ := readOptionalFileTextForDelta_local (resolvePathAgainstBase home dest cwd) st₂
          rw [hread] at hst₄
          have hwritten := writeFileWithMissingParentRetry_local (tryWrite_eq_ok.mp hwr)
          rw [hst₄, hst₂] at hwritten
          have hrem := removeOriginal_local hremove
          rw [hst₆] at hrem
          exact .move hold hconts hwritten hrem

/-! ## The application of all hunks -/

def Hunk.written (home : Option Text) (cwd : AbsolutePath) : Hunk → List AbsolutePath
  | addFile path _ => [resolvePathAgainstBase home path cwd]
  | deleteFile _ => []
  | updateFile path movePath _ => [resolvePathAgainstBase home (movePath.getD path) cwd]

def Hunk.removed (home : Option Text) (cwd : AbsolutePath) : Hunk → List AbsolutePath
  | addFile _ _ => []
  | deleteFile path => [resolvePathAgainstBase home path cwd]
  | updateFile path movePath _ => if movePath.isSome then [resolvePathAgainstBase home path cwd] else []

theorem Hunk.written_subset (h : p ∈ hunk.written home cwd) : p ∈ hunk.touched home cwd := by
  cases hunk with
  | addFile path contents => exact h
  | deleteFile path => cases h
  | updateFile path movePath chunks =>
      cases movePath with
      | none => exact h
      | some dest => exact mem_cons_of_mem _ h

theorem Written.frame (h : Written t t' p c) (hq : q ≠ p.names) : t'.file? q = t.file? q := (h.file q).trans (if_neg hq)

theorem Removed.frame (h : Removed t t' p) (hq : q ≠ p.names) :
    t'.file? q = t.file? q := (h.file? q).trans (if_neg hq)

theorem HunkEffect.frame (h : HunkEffect home cwd hunk t t')
    (hq : ∀ p ∈ hunk.touched home cwd, q ≠ p.names) : t'.file? q = t.file? q := by
  cases h with
  | add hw => exact hw.frame (hq _ mem_cons_self)
  | delete hr => exact hr.frame (hq _ mem_cons_self)
  | update _ _ hw => exact hw.frame (hq _ mem_cons_self)
  | move _ _ hw hr =>
      have hdest := hq _ (mem_cons_of_mem _ mem_cons_self)
      exact (hr.frame (hq _ mem_cons_self)).trans (hw.frame hdest)

/-- Where nothing stands a hunk puts something only on the way to a path it writes. -/
theorem HunkEffect.vacant (h : HunkEffect home cwd hunk t t') (hnone : t.node? q = none)
    (hq : ∀ p ∈ hunk.written home cwd, ¬ q <+: p.names) : t'.node? q = none := by
  cases h with
  | add hw => exact hw.vacant q hnone (hq _ mem_cons_self)
  | delete hr => rw [hr.node, hnone, ite_self]
  | update _ _ hw => exact hw.vacant q hnone (hq _ mem_cons_self)
  | move _ _ hw hr => rw [hr.node, hw.vacant q hnone (hq _ mem_cons_self), ite_self]

theorem Removed.dir (h : Removed t t' p) (hq : t.node? q = some .dir) : t'.node? q = some .dir := by
  rw [h.node, if_neg]
  · exact hq
  · rintro rfl
    exact h.file (file?_eq_none_of_dir hq)

theorem HunkEffect.dir (h : HunkEffect home cwd hunk t t') (hq : t.node? q = some .dir) : t'.node? q = some .dir := by
  cases h with
  | add hw => exact hw.dir q hq
  | delete hr => exact hr.dir hq
  | update _ _ hw => exact hw.dir q hq
  | move _ _ hw hr => exact hr.dir (hw.dir q hq)

inductive HunksEffect (home : Option Text) (cwd : AbsolutePath) : List Hunk → Files → Files → Prop where
  | nil {t : Files} : HunksEffect home cwd [] t t
  | cons {hunk : Hunk} {hunks : List Hunk} {t t₁ t' : Files} : HunkEffect home cwd hunk t t₁ → HunksEffect home cwd hunks t₁ t' →
      HunksEffect home cwd (hunk :: hunks) t t'

namespace HunksEffect

variable {hunks : List Hunk} {t t' : Files} {q : List Text}

theorem frame (h : HunksEffect home cwd hunks t t') (hq : ∀ hunk ∈ hunks, ∀ p ∈ hunk.touched home cwd, q ≠ p.names) :
    t'.file? q = t.file? q := by
  induction h with
  | nil => rfl
  | cons h _ ih =>
      rw [ih fun hunk hmem => hq hunk (mem_cons_of_mem _ hmem)]
      exact h.frame (hq _ mem_cons_self)

theorem vacant (h : HunksEffect home cwd hunks t t') (hnone : t.node? q = none)
    (hq : ∀ hunk ∈ hunks, ∀ p ∈ hunk.written home cwd, ¬ q <+: p.names) : t'.node? q = none := by
  induction h with
  | nil => exact hnone
  | cons h _ ih =>
      exact ih (h.vacant hnone (hq _ mem_cons_self)) fun hunk hmem => hq hunk (mem_cons_of_mem _ hmem)

theorem dir (h : HunksEffect home cwd hunks t t') (hq : t.node? q = some .dir) : t'.node? q = some .dir := by
  induction h with
  | nil => exact hq
  | cons h _ ih => exact ih (h.dir hq)

theorem split {before after : List Hunk} (h : HunksEffect home cwd (before ++ hunk :: after) t t') :
    ∃ t₁ t₂, HunksEffect home cwd before t t₁ ∧ HunkEffect home cwd hunk t₁ t₂ ∧ HunksEffect home cwd after t₂ t' := by
  induction before generalizing t with
  | nil =>
      cases h with
      | cons h hrest => exact ⟨t, _, .nil, h, hrest⟩
  | cons first before ih =>
      cases h with
      | cons h hrest =>
          obtain ⟨t₁, t₂, h₁, h₂, h₃⟩ := ih hrest
          exact ⟨t₁, t₂, .cons h h₁, h₂, h₃⟩

end HunksEffect

theorem each_applyHunk_local {hunks : List Hunk} {us : List Unit}
    (h : each (applyHunk localFileSystem home cwd) hunks st = (.ok us, st')) :
    HunksEffect home cwd hunks st.fs st'.fs := by
  induction hunks generalizing st us with
  | nil => cases h; exact .nil
  | cons hunk hunks ih =>
      obtain ⟨_, st₁, hhunk, h₁⟩ := bind_eq_ok.mp h
      obtain ⟨_, st₂, hrest, h₂⟩ := bind_eq_ok.mp h₁
      cases h₂
      exact .cons (applyHunk_local hhunk) (ih hrest)

theorem applyHunks_local {hunks : List Hunk} {delta : AppliedPatchDelta}
    (h : (applyHunks localFileSystem home cwd hunks t).result = .ok delta) :
    HunksEffect home cwd hunks t (applyHunks localFileSystem home cwd hunks t).fs := by
  unfold applyHunks at h ⊢
  rcases hx : applyHunksToFiles localFileSystem home cwd hunks (Progress.start t) with ⟨_ | affected, st⟩
  · rw [hx] at h; cases h
  · unfold applyHunksToFiles at hx
    by_cases hnil : hunks = []
    · rw [if_pos hnil] at hx; cases hx
    · rw [if_neg hnil] at hx
      obtain ⟨_, st₁, heach, hread⟩ := bind_eq_ok.mp hx
      cases hread
      exact each_applyHunk_local heach

/-! ## A small machine -/

def sampleDir : AbsolutePath := ⟨["w"], by decide⟩

def sampleFiles : Files := (ofFiles [(["w".toList, "a".toList], "x\n".toList)]).getD empty

end CodexStudy.ApplyPatch
