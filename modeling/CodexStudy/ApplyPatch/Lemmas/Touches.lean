import CodexStudy.ApplyPatch.Apply

/-!
# What an application touches
-/

namespace CodexStudy.ApplyPatch

open CodexStudy.Lib Eff List Progress Hunk

variable {S : Type} {fs : ExecutorFileSystem S} {home : Option Text} {cwd : AbsolutePath}

/-! ## The calls that are made -/

def Progress.forget (st : Progress (Logged S)) : Progress S := ⟨st.fs.state, st.delta, st.affected⟩

def Hunk.touched (home : Option Text) (cwd : AbsolutePath) (hunk : Hunk) : List AbsolutePath :=
  hunk.resolvePath home cwd :: (hunk.movePath.map fun dest => resolvePathAgainstBase home dest cwd).toList

def Touch.Within (ps : List AbsolutePath) : Touch → Prop
  | write p => p ∈ ps
  | remove p => p ∈ ps
  | createDirectory p => ∃ q ∈ ps, q.parent = some p

variable {τ : Touch} {contents : Text} {hunks : List Hunk}

theorem Touch.Within.mono {ps qs : List AbsolutePath} (h : τ.Within ps) (hsub : ∀ p ∈ ps, p ∈ qs) :
    τ.Within qs := by
  cases τ with
  | write p => exact hsub p h
  | remove p => exact hsub p h
  | createDirectory p =>
      obtain ⟨q, hq, hp⟩ := h
      exact ⟨q, hsub q hq, hp⟩

def LogGrows (ps : List AbsolutePath) (st st' : Progress (Logged S)) : Prop :=
  ∃ added, st'.fs.log = st.fs.log ++ added ∧ ∀ τ ∈ added, τ.Within ps

instance (ps : List AbsolutePath) : Std.Refl (LogGrows (S := S) ps) := ⟨fun _ => ⟨[], by simp, by simp⟩⟩

instance (ps : List AbsolutePath) : IsTrans (Progress (Logged S)) (LogGrows ps) where
  trans := by
    rintro st st' st'' ⟨as, ha, has⟩ ⟨bs, hb, hbs⟩
    refine ⟨as ++ bs, by rw [hb, ha, append_assoc], ?_⟩
    intro τ hτ
    rcases mem_append.mp hτ with hτ | hτ
    · exact has τ hτ
    · exact hbs τ hτ

theorem LogGrows.mem {ps : List AbsolutePath} {st st' : Progress (Logged S)} (h : LogGrows ps st st')
    (hτ : τ ∈ st.fs.log) : τ ∈ st'.fs.log := by
  obtain ⟨as, ha, _⟩ := h
  rw [ha]
  exact mem_append_left _ hτ

section Growth

variable {ps : List AbsolutePath}

variable {st' st : Progress (Logged S)} {α : Type} {p : AbsolutePath} {u : Unit}

theorem logGrows_of_same (h : st'.fs = st.fs) : LogGrows ps st st' := by
  refine ⟨[], ?_, by simp⟩
  rw [h, append_nil]

def Adds {ε α : Type} (ps : List AbsolutePath) (x : Eff ε (Logged S) α) : Prop :=
  ∀ s, ∃ added, (x s).2.log = s.log ++ added ∧ ∀ τ ∈ added, Touch.Within ps τ

/-! ## The log changes nothing -/

/-- What `y` asks of a file system is asked by `x` of one with a log, and its calls are within the paths. -/
def Calls {ε α : Type} (ps : List AbsolutePath) (x : Eff ε (Logged S) α) (y : Eff ε S α) : Prop :=
  Eff.Forgets Logged.state x y ∧ Adds ps x

def Mirrors {α : Type} (ps : List AbsolutePath) (x : Eff ApplyError (Progress (Logged S)) α)
    (y : Eff ApplyError (Progress S) α) : Prop :=
  Eff.Forgets forget x y ∧ Eff.Respects (LogGrows ps) x

theorem calls_quiet (x : Eff IoError S α) : Calls ps (Logged.quiet x) x :=
  ⟨fun _ => rfl, fun s => ⟨[], (append_nil s.log).symm, by simp⟩⟩

theorem calls_record (x : Eff IoError S Unit) (hτ : τ.Within ps) : Calls ps (Logged.record τ x) x :=
  ⟨fun _ => rfl, fun _ => ⟨[τ], rfl, by simpa using hτ⟩⟩

theorem mirrors_pure (a : α) : Mirrors ps (pure a : Eff ApplyError (Progress (Logged S)) α) (pure a) :=
  ⟨forgets_pure a, respects_pure a⟩

theorem mirrors_fail (e : ApplyError) : Mirrors ps (fail e : Eff ApplyError (Progress (Logged S)) α) (fail e) :=
  ⟨forgets_fail e, respects_fail e⟩

theorem Mirrors.bind {β : Type} {x : Eff ApplyError (Progress (Logged S)) α} {y : Eff ApplyError (Progress S) α}
    {f : α → Eff ApplyError (Progress (Logged S)) β} {g : α → Eff ApplyError (Progress S) β} (h : Mirrors ps x y)
    (hf : ∀ a, Mirrors ps (f a) (g a)) : Mirrors ps (x >>= f) (y >>= g) :=
  ⟨h.1.bind fun a => (hf a).1, h.2.bind fun a => (hf a).2⟩

theorem mirrors_modify {f : Progress (Logged S) → Progress (Logged S)} {g : Progress S → Progress S}
    (hforget : ∀ st, g st.forget = (f st).forget) (hfs : ∀ st, (f st).fs = st.fs) : Mirrors ps (modify f) (modify g) :=
  ⟨forgets_modify hforget, respects_modify fun st => logGrows_of_same (hfs st)⟩

theorem mirrors_setExact (keep : Bool) :
    Mirrors ps (setExact keep : Eff ApplyError (Progress (Logged S)) Unit) (setExact keep) :=
  mirrors_modify (fun _ => rfl) fun _ => rfl

theorem mirrors_pushChange (c : AppliedPatchChange) :
    Mirrors ps (pushChange c : Eff ApplyError (Progress (Logged S)) Unit) (pushChange c) :=
  mirrors_modify (fun _ => rfl) fun _ => rfl

theorem mirrors_pushDeleted (p : AbsolutePath) (content : Option Text) :
    Mirrors ps (pushDeleted p content : Eff ApplyError (Progress (Logged S)) Unit) (pushDeleted p content) := by
  cases content with
  | some content => exact mirrors_pushChange _
  | none => exact mirrors_pure _

theorem mirrors_pushAffected (f : AffectedPaths → AffectedPaths) :
    Mirrors ps (pushAffected f : Eff ApplyError (Progress (Logged S)) Unit) (pushAffected f) :=
  mirrors_modify (fun _ => rfl) fun _ => rfl

theorem mirrors_replaceLastChange (c : AppliedPatchChange) :
    Mirrors ps (replaceLastChange c : Eff ApplyError (Progress (Logged S)) Unit) (replaceLastChange c) :=
  mirrors_modify (fun _ => rfl) fun _ => rfl

theorem mirrors_onFs {ε : Type} (wrap : ε → ApplyError) {x : Eff ε (Logged S) α} {y : Eff ε S α}
    (h : Calls ps x y) : Mirrors ps (onFs wrap x) (onFs wrap y) := by
  constructor
  · intro st
    have hst : y st.forget.fs = ((x st.fs).1, (x st.fs).2.state) := h.1 st.fs
    simp only [onFs]
    rw [hst]
    rcases x st.fs with ⟨_ | a, s⟩
    · rfl
    · rfl
  · intro st
    obtain ⟨added, hadd, hin⟩ := h.2 st.fs
    refine ⟨added, ?_, hin⟩
    simp only [onFs]
    rcases hx : x st.fs with ⟨_ | _, _⟩
    · rw [hx] at hadd; exact hadd
    · rw [hx] at hadd; exact hadd

theorem mirrors_observe {ε : Type} {x : Eff ε (Logged S) α} {y : Eff ε S α} (h : Calls ps x y) :
    Mirrors ps (observe x) (observe y) := by
  refine ⟨fun st => ?_, fun st => h.2 st.fs⟩
  have hst : y st.forget.fs = ((x st.fs).1, (x st.fs).2.state) := h.1 st.fs
  simp only [observe]
  rw [hst]
  rfl

theorem mirrors_tryWrite {x : Eff ApplyError (Progress (Logged S)) α} {y : Eff ApplyError (Progress S) α}
    (h : Mirrors ps x y) : Mirrors ps (tryWrite x) (tryWrite y) := by
  constructor
  · intro st
    simp only [tryWrite]
    rw [h.1 st]
    rcases x st with ⟨_ | a, st'⟩
    · rfl
    · rfl
  · intro st
    have hst := h.2 st
    simp only [tryWrite]
    rcases hx : x st with ⟨_ | a, st'⟩
    · rw [hx] at hst; exact hst
    · rw [hx] at hst; exact hst

theorem mirrors_noteExistingPathDeltaSupport (p : AbsolutePath) :
    Mirrors ps (noteExistingPathDeltaSupport (logged fs) p) (noteExistingPathDeltaSupport fs p) := by
  refine (mirrors_observe (calls_quiet _)).bind fun metadata => ?_
  cases metadata with
  | ok metadata => exact mirrors_setExact _
  | error source => exact mirrors_setExact _

theorem mirrors_readOptionalFileTextForDelta (p : AbsolutePath) :
    Mirrors ps (readOptionalFileTextForDelta (logged fs) p) (readOptionalFileTextForDelta fs p) := by
  refine (mirrors_noteExistingPathDeltaSupport p).bind fun _ => ?_
  refine (mirrors_observe (calls_quiet _)).bind fun content => ?_
  cases content with
  | ok content => exact mirrors_pure _
  | error source => exact (mirrors_setExact _).bind fun _ => mirrors_pure _

theorem mirrors_createParentDirectories (hp : p ∈ ps) :
    Mirrors ps (createParentDirectories (logged fs) p) (createParentDirectories fs p) := by
  unfold createParentDirectories
  cases hparent : p.parent with
  | some parent => exact mirrors_onFs _ (calls_record _ ⟨p, hp, hparent⟩)
  | none => exact mirrors_pure _

theorem mirrors_retry (hp : p ∈ ps) (contents : Text) (written : Except IoError Unit) :
    Mirrors ps
      (match written with
      | .ok () => (pure () : Eff ApplyError (Progress (Logged S)) Unit)
      | .error e =>
          if e.kind = .notFound then do
            createParentDirectories (logged fs) p
            onFs (.io (failedToWrite p)) ((logged fs).writeFile p contents)
          else fail (.io (failedToWrite p) e)) (match written with
      | .ok () => pure ()
      | .error e =>
          if e.kind = .notFound then do
            createParentDirectories fs p
            onFs (.io (failedToWrite p)) (fs.writeFile p contents)
          else fail (.io (failedToWrite p) e)) := by
  cases written with
  | ok _ => exact mirrors_pure _
  | error e =>
      dsimp only
      split
      · exact (mirrors_createParentDirectories hp).bind fun _ => mirrors_onFs _ (calls_record _ hp)
      · exact mirrors_fail _

theorem mirrors_writeFileWithMissingParentRetry (hp : p ∈ ps) (contents : Text) :
    Mirrors ps (writeFileWithMissingParentRetry (logged fs) p contents)
      (writeFileWithMissingParentRetry fs p contents) :=
  (mirrors_observe (calls_record (τ := .write p) _ hp)).bind fun written => mirrors_retry hp contents written

theorem calls_deriveNewContentsFromChunks (p : AbsolutePath) (chunks : List UpdateFileChunk) :
    Calls ps (deriveNewContentsFromChunks (logged fs) p chunks) (deriveNewContentsFromChunks fs p chunks) := by
  have hread : ∀ s, (logged fs).readFileText p s =
      ((fs.readFileText p s.state).1, ⟨(fs.readFileText p s.state).2, s.log⟩) := fun _ => rfl
  refine ⟨fun s => ?_, fun s => ⟨[], ?_, by simp⟩⟩
  all_goals
    simp only [deriveNewContentsFromChunks, hread, append_nil]
    rcases fs.readFileText p s.state with ⟨_ | content, s'⟩
    · rfl
    · dsimp only
      cases newContentsFromChunks p.display content chunks with
      | error _ => rfl
      | ok _ => rfl

theorem mirrors_afterRemove (context : Text) (p : AbsolutePath) (expected : Option Text)
    (removed : Except IoError Unit) :
    Mirrors ps
      (match removed with
      | .ok () => (pure () : Eff ApplyError (Progress (Logged S)) Unit)
      | .error e => do
          let keep ← removeFailureWasSideEffectFree (logged fs) p expected
          setExact keep
          fail (.io context e)) (match removed with
      | .ok () => pure ()
      | .error e => do
          let keep ← removeFailureWasSideEffectFree fs p expected
          setExact keep
          fail (.io context e)) := by
  cases removed with
  | ok _ => exact mirrors_pure _
  | error e =>
      refine Mirrors.bind ?_ fun keep => (mirrors_setExact keep).bind fun _ => mirrors_fail _
      cases expected with
      | none => exact mirrors_pure _
      | some expected => exact (mirrors_observe (calls_quiet _)).bind fun _ => mirrors_pure _

theorem mirrors_removeOriginal (context : Text) (hp : p ∈ ps) (expected : Option Text) :
    Mirrors ps (removeOriginal (logged fs) context p expected) (removeOriginal fs context p expected) := by
  have hensure : Mirrors ps (ensureNotDirectory (logged fs) context p) (ensureNotDirectory fs context p) := by
    refine (mirrors_onFs _ (calls_quiet _)).bind fun metadata => ?_
    split
    · exact mirrors_fail _
    · exact mirrors_pure _
  refine hensure.bind fun _ => (mirrors_observe (calls_record (τ := .remove p) _ hp)).bind fun removed => ?_
  exact mirrors_afterRemove context p expected removed

variable (fs home cwd) in
theorem mirrors_applyHunk (hunk : Hunk) :
    Mirrors (hunk.touched home cwd) (applyHunk (logged fs) home cwd hunk) (applyHunk fs home cwd hunk) := by
  cases hunk with
  | addFile path contents =>
      refine (mirrors_readOptionalFileTextForDelta _).bind fun _ => ?_
      refine (mirrors_tryWrite (mirrors_writeFileWithMissingParentRetry mem_cons_self _)).bind fun _ => ?_
      exact (mirrors_pushChange _).bind fun _ => mirrors_pushAffected _
  | deleteFile path =>
      refine (mirrors_noteExistingPathDeltaSupport _).bind fun _ => ?_
      refine (mirrors_observe (calls_quiet _)).bind fun content => (mirrors_setExact _).bind fun _ => ?_
      refine (mirrors_removeOriginal _ mem_cons_self _).bind fun _ => ?_
      exact (mirrors_pushDeleted _ _).bind fun _ => mirrors_pushAffected _
  | updateFile path movePath chunks =>
      refine (mirrors_noteExistingPathDeltaSupport _).bind fun _ => ?_
      refine (mirrors_onFs _ (calls_deriveNewContentsFromChunks _ _)).bind fun patch => ?_
      refine Mirrors.bind ?_ fun _ => mirrors_pushAffected _
      cases movePath with
      | none =>
          refine (mirrors_tryWrite (mirrors_onFs _ (calls_record _ ?_))).bind fun _ => mirrors_pushChange _
          exact mem_cons_self
      | some dest =>
          have hdest : resolvePathAgainstBase home dest cwd ∈
              (updateFile path (some dest) chunks).touched home cwd := by
            simp [touched, movePath]
          refine (mirrors_readOptionalFileTextForDelta _).bind fun _ => ?_
          refine (mirrors_tryWrite (mirrors_writeFileWithMissingParentRetry hdest _)).bind fun _ => ?_
          refine (mirrors_pushChange _).bind fun _ => ?_
          exact (mirrors_removeOriginal _ mem_cons_self _).bind fun _ => mirrors_replaceLastChange _

variable (fs home cwd) in
theorem forgets_applyHunksToFiles (hunks : List Hunk) :
    Eff.Forgets forget (applyHunksToFiles (logged fs) home cwd hunks) (applyHunksToFiles fs home cwd hunks) := by
  unfold applyHunksToFiles
  split
  · exact forgets_fail _
  · refine (Eff.Forgets.each (fun hunk => (mirrors_applyHunk fs home cwd hunk).1) hunks).bind fun _ => ?_
    exact forgets_read_bind fun st => forgets_pure _

variable (fs home cwd) in
theorem applyHunks_logged (hunks : List Hunk) (s : S) (log : List Touch) :
    (applyHunks (logged fs) home cwd hunks ⟨s, log⟩).result = (applyHunks fs home cwd hunks s).result ∧
      (applyHunks (logged fs) home cwd hunks ⟨s, log⟩).fs.state = (applyHunks fs home cwd hunks s).fs := by
  have h := forgets_applyHunksToFiles fs home cwd hunks (start ⟨s, log⟩)
  have hstart : (start (⟨s, log⟩ : Logged S)).forget = start s := rfl
  rw [hstart] at h
  unfold applyHunks
  rw [h]
  rcases applyHunksToFiles (logged fs) home cwd hunks (start ⟨s, log⟩) with ⟨_ | affected, st⟩
  · exact ⟨rfl, rfl⟩
  · exact ⟨rfl, rfl⟩

/-! ## The calls of a run that succeeds -/

def Wrote (st : Progress (Logged S)) (p : AbsolutePath) : Prop := .write p ∈ st.fs.log ∨ .remove p ∈ st.fs.log

theorem LogGrows.wrote (h : LogGrows ps st st') (hp : Wrote st p) : Wrote st' p := by
  rcases hp with hp | hp
  · exact .inl (h.mem hp)
  · exact .inr (h.mem hp)

variable (ps) in
theorem wrote_of_bind {α β : Type} {x : Eff ApplyError (Progress (Logged S)) α}
    {f : α → Eff ApplyError (Progress (Logged S)) β} {st st' : Progress (Logged S)} {b : β} {p : AbsolutePath}
    (h : (x >>= f) st = (.ok b, st')) (hx : ∀ a st₁, x st = (.ok a, st₁) → Wrote st₁ p)
    (hf : ∀ a, Eff.Respects (LogGrows ps) (f a)) : Wrote st' p := by
  obtain ⟨a, st₁, h₁, h₂⟩ := bind_eq_ok.mp h
  have hgrows := hf a st₁
  rw [h₂] at hgrows
  exact hgrows.wrote (hx a st₁ h₁)

theorem tryWrite_eq_ok {x : Eff ApplyError (Progress S) α} {st st' : Progress S} {a : α} :
    tryWrite x st = (.ok a, st') ↔ x st = (.ok a, st') := by
  unfold tryWrite
  rcases x st with ⟨_ | b, st₁⟩
  · simp
  · rfl

theorem wrote_of_retry
    (h : writeFileWithMissingParentRetry (logged fs) p contents st = (.ok u, st')) : Wrote st' p := by
  refine wrote_of_bind [p] h ?_ fun written => (mirrors_retry mem_cons_self contents written).2
  intro _ _ h₁
  cases h₁
  exact .inl (mem_append_right _ mem_cons_self)

theorem wrote_of_removeOriginal {context : Text} {expected : Option Text}
    (h : removeOriginal (logged fs) context p expected st = (.ok u, st')) : Wrote st' p := by
  obtain ⟨_, st₁, _, h⟩ := bind_eq_ok.mp h
  refine wrote_of_bind [p] h ?_ fun removed => (mirrors_afterRemove context p expected removed).2
  intro _ _ h₁
  cases h₁
  exact .inr (mem_append_right _ mem_cons_self)

theorem wrote_of_onFs {wrap : IoError → ApplyError}
    (h : onFs wrap ((logged fs).writeFile p contents) st = (.ok u, st')) : Wrote st' p := by
  simp only [onFs, logged, Logged.record] at h
  split at h
  · rename_i hx
    cases h
    rw [Prod.mk.injEq] at hx
    rw [← hx.2]
    exact .inl (mem_append_right _ mem_cons_self)
  · cases h

theorem applyHunk_wrote {hunk : Hunk}
    (h : applyHunk (logged fs) home cwd hunk st = (.ok u, st')) : ∀ p ∈ hunk.touched home cwd, Wrote st' p := by
  cases hunk with
  | addFile path contents =>
      intro p hp
      cases mem_singleton.mp hp
      obtain ⟨_, _, _, h⟩ := bind_eq_ok.mp h
      refine wrote_of_bind [] h (fun _ _ h₁ => wrote_of_retry (tryWrite_eq_ok.mp h₁)) fun _ => ?_
      exact ((mirrors_pushChange _).bind fun _ => mirrors_pushAffected _).2
  | deleteFile path =>
      intro p hp
      cases mem_singleton.mp hp
      obtain ⟨_, _, _, h⟩ := bind_eq_ok.mp h
      obtain ⟨_, _, _, h⟩ := bind_eq_ok.mp h
      obtain ⟨_, _, _, h⟩ := bind_eq_ok.mp h
      refine wrote_of_bind [] h (fun _ _ h₁ => wrote_of_removeOriginal h₁) fun _ => ?_
      exact ((mirrors_pushDeleted _ _).bind fun _ => mirrors_pushAffected _).2
  | updateFile path movePath chunks =>
      obtain ⟨_, _, _, h⟩ := bind_eq_ok.mp h
      obtain ⟨_, _, _, h⟩ := bind_eq_ok.mp h
      intro p hp
      refine wrote_of_bind [] h ?_ fun _ => (mirrors_pushAffected _).2
      intro _ _ h
      cases movePath with
      | none =>
          cases mem_singleton.mp hp
          refine wrote_of_bind [] h ?_ fun _ => (mirrors_pushChange _).2
          exact fun _ _ h₁ => wrote_of_onFs (tryWrite_eq_ok.mp h₁)
      | some dest =>
          obtain ⟨_, _, _, h⟩ := bind_eq_ok.mp h
          rcases mem_cons.mp hp with rfl | hp
          · obtain ⟨_, _, _, h⟩ := bind_eq_ok.mp h
            obtain ⟨_, _, _, h⟩ := bind_eq_ok.mp h
            refine wrote_of_bind [] h (fun _ _ h₁ => wrote_of_removeOriginal h₁) fun _ => ?_
            exact (mirrors_replaceLastChange _).2
          · cases mem_singleton.mp hp
            refine wrote_of_bind [(updateFile path (some dest) chunks).resolvePath home cwd] h
              (fun _ _ h₁ => wrote_of_retry (tryWrite_eq_ok.mp h₁)) fun _ => ?_
            refine Eff.Respects.bind (mirrors_pushChange _).2 fun _ => ?_
            exact ((mirrors_removeOriginal _ mem_cons_self _).bind fun _ => mirrors_replaceLastChange _).2

/-! ## The calls of the whole run -/

variable (fs home cwd) in
theorem each_applyHunk_log (hunks : List Hunk) : Eff.Respects (LogGrows (hunks.flatMap (touched home cwd)))
      (each (applyHunk (logged fs) home cwd) hunks) := by
  refine Eff.Respects.each fun hunk hmem st => ?_
  obtain ⟨added, hadded, hwithin⟩ := (mirrors_applyHunk fs home cwd hunk).2 st
  exact ⟨added, hadded, fun τ hτ => (hwithin τ hτ).mono fun p hp => mem_flatMap.mpr ⟨hunk, hmem, hp⟩⟩

theorem applyHunks_log (hunks : List Hunk) (s : S) : ∀ τ ∈ (applyHunks (logged fs) home cwd hunks ⟨s, []⟩).fs.log,
      τ.Within (hunks.flatMap (touched home cwd)) := by
  have hrun : Eff.Respects (LogGrows (hunks.flatMap (touched home cwd)))
      (applyHunksToFiles (logged fs) home cwd hunks) := by
    unfold applyHunksToFiles
    split
    · exact respects_fail _
    · exact (each_applyHunk_log fs home cwd hunks).bind fun _ => respects_read.bind fun _ => respects_pure _
  obtain ⟨added, hadd, hin⟩ := hrun (start ⟨s, []⟩)
  have hlog : (applyHunks (logged fs) home cwd hunks ⟨s, []⟩).fs.log = added := by
    unfold applyHunks
    rcases hx : applyHunksToFiles (logged fs) home cwd hunks (start ⟨s, []⟩) with ⟨_ | _, st⟩
    · rw [hx] at hadd; exact hadd
    · rw [hx] at hadd; exact hadd
  rw [hlog]
  exact hin

theorem each_applyHunk_wrote {us : List Unit} (h : each (applyHunk (logged fs) home cwd) hunks st = (.ok us, st')) :
    ∀ hunk ∈ hunks, ∀ p ∈ hunk.touched home cwd, Wrote st' p := by
  induction hunks generalizing st us with
  | nil => intro _ hmem; cases hmem
  | cons hunk hunks ih =>
      obtain ⟨u, st₁, h₁, h⟩ := bind_eq_ok.mp h
      obtain ⟨us', st₂, h₂, h⟩ := bind_eq_ok.mp h
      cases h
      intro hunk' hmem p hp
      rcases mem_cons.mp hmem with rfl | hmem
      · have hgr := each_applyHunk_log fs home cwd hunks st₁
        rw [h₂] at hgr
        exact hgr.wrote (applyHunk_wrote h₁ p hp)
      · exact ih h₂ hunk' hmem p hp

theorem applyHunks_wrote {s : S} {delta : AppliedPatchDelta}
    (h : (applyHunks (logged fs) home cwd hunks ⟨s, []⟩).result = .ok delta) :
    ∀ hunk ∈ hunks, ∀ p ∈ hunk.touched home cwd, .write p ∈ (applyHunks (logged fs) home cwd hunks ⟨s, []⟩).fs.log ∨
        .remove p ∈ (applyHunks (logged fs) home cwd hunks ⟨s, []⟩).fs.log := by
  unfold applyHunks at h ⊢
  rcases hx : applyHunksToFiles (logged fs) home cwd hunks (start ⟨s, []⟩) with ⟨_ | affected, st⟩
  · rw [hx] at h; cases h
  · unfold applyHunksToFiles at hx
    split at hx
    · cases hx
    · obtain ⟨_, st₁, h₁, hx⟩ := bind_eq_ok.mp hx
      cases hx
      exact each_applyHunk_wrote h₁

end Growth

end CodexStudy.ApplyPatch
