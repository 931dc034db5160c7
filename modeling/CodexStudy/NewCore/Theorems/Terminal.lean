import CodexStudy.Lib.Lists
import CodexStudy.NewCore.Lemmas.Sessions

/-!
# A terminal status is not final

The operations on a task write their status over a terminal one.
-/

namespace CodexStudy.NewCore

open CodexStudy.Lib Eff ProjectAction Option List Eff.Respects

variable {σ : Setting} {host : Host} {io : IoPlan} {now : Nat} {d d' : Disk}

/-! ## Operations that stop before they write the status -/

/-- One of the calls fails. -/
def Faulty (io : IoPlan) (pts : List IoPoint) : Prop := ∃ pt ∈ pts, io pt ≠ none

def RefreshStops (io : IoPlan) (d : Disk) : Prop :=
  d.manifest = none ∨ d.workspace = none ∨
    Faulty io [.indexOriginal, .indexWorkspace, .fullDiff, .refreshManifest, .refreshStatus]

def Unreadable (io : IoPlan) (t : Tree) (c : ChangedFile) : Prop :=
  io (.rollbackHash c.path) ≠ none ∨ ¬ Readable t c

/-- The first file that is not as the merge left it cannot be read. -/
def ChecksStop (host : Host) (io : IoPlan) (t : Tree) : List ChangedFile → Prop
  | [] => False
  | c :: cs =>
      Unreadable io t c ∨ hashText host.sha256 (t.file? c.path) = c.afterMergeHash ∧ ChecksStop host io t cs

/-- Every file is as the merge left it. -/
def ChecksPass (host : Host) (io : IoPlan) (t : Tree) (cs : List ChangedFile) : Prop :=
  ∀ c ∈ cs, ¬ Unreadable io t c ∧ hashText host.sha256 (t.file? c.path) = c.afterMergeHash

/-- The restore loop of a rollback fails. -/
def RestoreFails (host : Host) (io : IoPlan) (selection : RollbackSelection) (m : TaskManifest) (d : Disk) : Prop :=
  ∃ e d', each (rollbackChanged host io (selectedRollbackPaths m.changedFiles selection)
    (rollbackHunkSelections selection)) m.changedFiles d = (.error e, d')

/-- A rollback finds no manifest or merged file, cannot read or restore a file, or cannot write the manifest or the
status. -/
def RollbackStops (host : Host) (io : IoPlan) (selection : RollbackSelection) (d : Disk) : Prop :=
  ∀ m, d.manifest = some m →
    selectedRollbackPaths m.changedFiles selection = [] ∨ Faulty io [.rollbackManifest, .rollbackStatus] ∨
      ChecksStop host io d.original (chosenToUndo m selection) ∨
      ChecksPass host io d.original (chosenToUndo m selection) ∧ RestoreFails host io selection m d

/-- A resume finds no manifest, cannot recover the workspace, cannot write the manifest or the status, or finds a
terminal status and nothing to recover. -/
def ResumeKeeps (σ : Setting) (io : IoPlan) (now : Nat) (d : Disk) : Prop :=
  ∀ m, d.manifest = some m →
    Faulty io [.resumeManifest, .resumeStatus] ∨
      (d.workspace = none ∧
        (io .resumeWorkspace ≠ none ∨ ∃ e, recoveredWorkspace σ.git σ.project m d.original = .error e)) ∨
      (d.workspace ≠ none ∧ m.status.isTerminal = true ∧
        (revalidated σ.env now d.original m).environmentBinding.all fun b => b.validation.isValid)

/-- The action writes no status over the terminal one of the task, or a terminal one again. -/
def LeavesTerminal (σ : Setting) (d : Disk) : Action → Prop
  | .editOriginal _ | .editWorkspace _ | .archive _ _ _ => True
  | .refresh io _ | .merge io _ _ => RefreshStops io d
  | .rollback io _ selection => RollbackStops σ.host io selection d
  | .runTest io _ _ => d.manifest = none ∨ Faulty io [.testDir, .testStarted, .testRunning]
  | .review io _ => d.manifest = none ∨ Faulty io [.reviewDiff, .reviewReport, .reviewStatus]
  | .summarize io _ => d.manifest = none ∨ Faulty io [.summary, .summaryTimeline, .summaryStatus]
  | .resume io now => ResumeKeeps σ io now d

/-! ## One action on a terminal task -/

def Verdict (G : Prop) (d : Disk) : Prop := (Terminal d ∧ G) ∨ (Open d ∧ ¬ G)

theorem Verdict.terminal_iff {G : Prop} (h : Verdict G d) : Terminal d ↔ G := by
  rcases h with ⟨hterm, hG⟩ | ⟨hopen, hG⟩
  · exact ⟨fun _ => hG, fun _ => hterm⟩
  · exact ⟨fun hterm => absurd hterm hopen.not_terminal, fun h => absurd h hG⟩

section

variable {α : Type} {G : Prop}

theorem open_withStatus (h : Terminal d) (now : Nat) {status : TaskStatus} (hstatus : status.isTerminal = false) :
    Open { d with record := d.record.map fun r => r.withStatus now status } := by
  obtain ⟨r, hr, -⟩ := h
  exact ⟨r.withStatus now status, by rw [hr]; rfl, hstatus⟩

theorem verdict_of_open {x : Op α} (hopen : Open d) (hG : ¬ G) (hx : Eff.Respects KeepsOpen x) :
    Eff.Post d x fun _ d' => Verdict G d' := .inr ⟨(hx d).stays hopen, hG⟩

end

variable (host io now) in
theorem refreshChanges_verdict (h : Terminal d) : Eff.Post d (refreshChanges host io now) fun r d' =>
      Verdict (RefreshStops io d) d' ∧ (RefreshStops io d → ∃ e, r = .error e) := by
  have hstop : ∀ d' e, d'.record = d.record → RefreshStops io d → Verdict (RefreshStops io d) d' ∧
      (RefreshStops io d → ∃ e', (.error e : Except CodexNewError TaskManifest) = .error e') :=
    fun d' e hrec hG => ⟨.inl ⟨h.of_record_eq hrec, hG⟩, fun _ => ⟨e, rfl⟩⟩
  have hfault : ∀ pt ∈ [.indexOriginal, .indexWorkspace, .fullDiff, .refreshManifest, .refreshStatus],
      io pt ≠ none → RefreshStops io d := fun pt hpt hio => .inr (.inr ⟨pt, hpt, hio⟩)
  unfold refreshChanges
  refine post_readManifest (fun hm => hstop d _ rfl (.inl hm)) fun m hm => ?_
  refine post_attempt (fun hio => hstop d _ rfl (hfault _ (by simp) hio)) fun h₁ => ?_
  refine post_attempt (fun hio => hstop d _ rfl (hfault _ (by simp) hio)) fun h₂ => ?_
  refine post_read ?_
  refine post_check (fun hws => hstop d _ rfl (.inr (.inl (by simpa using hws)))) fun hws => ?_
  refine post_attempt (fun hio => hstop d _ rfl (hfault _ (by simp) hio)) fun h₃ => ?_
  refine post_writeManifest (fun old hio _ => hstop _ _ rfl (hfault _ (by simp) hio)) fun h₄ => ?_
  refine post_writeTaskStatus (fun hio => hstop _ _ rfl (hfault _ (by simp) hio)) fun h₅ => ?_
  have hG : ¬ RefreshStops io d := by
    simp [RefreshStops, Faulty, hm, h₁, h₂, h₃, h₄, h₅, isSome_iff_ne_none.mp hws]
  refine ⟨verdict_of_open (open_withStatus (h.of_record_eq rfl) now refreshedManifest_open) hG ?_,
    fun hstops => absurd hstops hG⟩
  refine bind (each fun c _ => keepsOpen_attempt) fun _ => ?_
  exact bind keepsOpen_attempt fun _ => respects_pure _

theorem merge_verdict {selection : MergeSelection} (h : Terminal d) :
    Eff.Post d (merge host io now selection) fun _ d' => Verdict (RefreshStops io d) d' := by
  have hrfr := post_iff.mp (refreshChanges_verdict host io now h)
  refine post_bind (fun e d₁ h₁ => (hrfr _ _ h₁).1) fun m d₁ h₁ => ?_
  obtain ⟨hverdict, herr⟩ := hrfr _ _ h₁
  rcases hverdict with ⟨-, hG⟩ | ⟨hopen, hG⟩
  · obtain ⟨e, he⟩ := herr hG
    cases he
  · exact verdict_of_open hopen hG (keepsOpen_withLock keepsOpen_mergeLocked)

theorem runTest_verdict {command : TestCommand} (h : Terminal d) :
    Eff.Post d (runTestCommandRequest io now command) fun _ d' =>
      Verdict (d.manifest = none ∨ Faulty io [.testDir, .testStarted, .testRunning]) d' := by
  unfold runTestCommandRequest
  refine post_readManifest (fun hm => .inl ⟨h, .inl hm⟩) fun m hm => ?_
  refine post_attempt (fun hio => .inl ⟨h, .inr ⟨_, by simp, hio⟩⟩) fun h₁ => ?_
  refine post_attempt (fun hio => .inl ⟨h, .inr ⟨_, by simp, hio⟩⟩) fun h₂ => ?_
  refine post_writeTaskStatus (fun hio => .inl ⟨h, .inr ⟨_, by simp, hio⟩⟩) fun h₃ => ?_
  refine verdict_of_open (open_withStatus h now rfl) (by simp [Faulty, hm, h₁, h₂, h₃]) ?_
  refine bind keepsOpen_attempt fun _ => ?_
  refine bind (respects_modify fun d => keepsOpen_of_record_eq rfl) fun _ => ?_
  refine bind keepsOpen_attempt fun _ => ?_
  refine bind (keepsOpen_writeTaskStatus (by split <;> rfl)) fun _ => ?_
  exact bind keepsOpen_attempt fun _ => respects_pure _

theorem review_verdict {project : ProjectRecord} (h : Terminal d) : Eff.Post d (reviewTask io now project) fun _ d' =>
      Verdict (d.manifest = none ∨ Faulty io [.reviewDiff, .reviewReport, .reviewStatus]) d' := by
  unfold reviewTask
  refine post_readManifest (fun hm => .inl ⟨h, .inl hm⟩) fun m hm => ?_
  refine post_attempt (fun hio => .inl ⟨h, .inr ⟨_, by simp, hio⟩⟩) fun h₁ => ?_
  refine post_attempt (fun hio => .inl ⟨h, .inr ⟨_, by simp, hio⟩⟩) fun h₂ => ?_
  refine post_writeTaskStatus (fun hio => .inl ⟨h, .inr ⟨_, by simp, hio⟩⟩) fun h₃ => ?_
  refine verdict_of_open (open_withStatus h now (by split <;> rfl)) (by simp [Faulty, hm, h₁, h₂, h₃]) ?_
  exact bind keepsOpen_attempt fun _ => respects_pure _

theorem summary_verdict (h : Terminal d) : Eff.Post d (writeTaskSummary io now) fun _ d' =>
      Verdict (d.manifest = none ∨ Faulty io [.summary, .summaryTimeline, .summaryStatus]) d' := by
  unfold writeTaskSummary
  refine post_readManifest (fun hm => .inl ⟨h, .inl hm⟩) fun m hm => ?_
  refine post_attempt (fun hio => .inl ⟨h, .inr ⟨_, by simp, hio⟩⟩) fun h₁ => ?_
  refine post_attempt (fun hio => .inl ⟨h, .inr ⟨_, by simp, hio⟩⟩) fun h₂ => ?_
  unfold writeTaskStatus
  refine post_attempt (fun hio => .inl ⟨h, .inr ⟨_, by simp, hio⟩⟩) fun h₃ => ?_
  exact .inr ⟨open_withStatus h now rfl, by simp [Faulty, hm, h₁, h₂, h₃]⟩

/-! ## A rollback of a terminal task -/

variable (host io now) in
theorem checkRollback_verdict {m : TaskManifest} (h : Terminal d) (c : ChangedFile) :
    Eff.Post d (checkRollback host io now m c) fun r d' => ((∃ u, r = .ok u) ∧ d' = d ∧ ¬ Unreadable io d.original c ∧
        hashText host.sha256 (d.original.file? c.path) = c.afterMergeHash) ∨
      (∃ e, r = .error e) ∧ (Terminal d' ∧ Unreadable io d.original c ∨
        ¬ Unreadable io d.original c ∧ hashText host.sha256 (d.original.file? c.path) ≠ c.afterMergeHash ∧
          Verdict (Faulty io [.rollbackManifest, .rollbackStatus]) d') := by
  unfold checkRollback
  refine post_lift (fun e he => .inr ⟨⟨e, rfl⟩, .inl ⟨h, .inr fun hread => ?_⟩⟩) fun path hpath => ?_
  · rw [checkedJoin_eq_ok.mpr ⟨hread.1, rfl⟩] at he
    cases he
  obtain ⟨hdots, rfl⟩ := checkedJoin_eq_ok.mp hpath
  refine post_attempt (fun hio => .inr ⟨⟨_, rfl⟩, .inl ⟨h, .inl hio⟩⟩) fun hio => ?_
  refine post_read ?_
  refine post_lift (fun e he => .inr ⟨⟨e, rfl⟩, .inl ⟨h, .inr fun hread => ?_⟩⟩) fun hash hhash => ?_
  · rw [fileHash_eq_ok.mpr ⟨hread.2, rfl⟩] at he
    cases he
  obtain ⟨hpass, rfl⟩ := fileHash_eq_ok.mp hhash
  have hread : ¬ Unreadable io d.original c := by
    rintro (hne | hnot)
    · exact hne hio
    · exact hnot ⟨hdots, hpass⟩
  split
  · rename_i heq
    exact .inl ⟨⟨(), rfl⟩, rfl, hread, heq⟩
  · rename_i hne
    refine post_writeManifest (fun old hio _ => ?_) fun h₁ => ?_
    · exact .inr ⟨⟨_, rfl⟩, .inr ⟨hread, hne, .inl ⟨h.of_record_eq rfl, _, by simp, hio⟩⟩⟩
    refine post_writeTaskStatus (fun hio => ?_) fun h₂ => ?_
    · exact .inr ⟨⟨_, rfl⟩, .inr ⟨hread, hne, .inl ⟨h.of_record_eq rfl, _, by simp, hio⟩⟩⟩
    refine .inr ⟨⟨_, rfl⟩, .inr ⟨hread, hne, .inr ⟨?_, by simp [Faulty, h₁, h₂]⟩⟩⟩
    exact open_withStatus (h.of_record_eq rfl) now rfl

variable (host io now) in
theorem checkRollbacks_verdict {m : TaskManifest} (h : Terminal d) (cs : List ChangedFile) :
    Eff.Post d (each (checkRollback host io now m) cs) fun r d' =>
      ((∃ us, r = .ok us) ∧ d' = d ∧ ChecksPass host io d.original cs) ∨
      (∃ e, r = .error e) ∧ ¬ ChecksPass host io d.original cs ∧
        Verdict (Faulty io [.rollbackManifest, .rollbackStatus] ∨ ChecksStop host io d.original cs) d' := by
  induction cs with
  | nil => exact .inl ⟨⟨[], rfl⟩, rfl, fun c hc => by cases hc⟩
  | cons c cs ih =>
      have hc := post_iff.mp (checkRollback_verdict host io now (m := m) h c)
      have hcs := post_iff.mp ih
      refine post_bind (fun e d₁ h₁ => ?_) fun u d₁ h₁ => ?_
      · rcases hc _ _ h₁ with ⟨⟨u, hu⟩, -⟩ | ⟨-, ⟨hterm, hun⟩ | ⟨hread, hne, hv⟩⟩
        · cases hu
        · exact .inr ⟨⟨e, rfl⟩, fun hp => (hp c mem_cons_self).1 hun, .inl ⟨hterm, .inr (.inl hun)⟩⟩
        · refine .inr ⟨⟨e, rfl⟩, fun hp => hne (hp c mem_cons_self).2, ?_⟩
          rcases hv with ⟨hterm, hG⟩ | ⟨hopen, hG⟩
          · exact .inl ⟨hterm, .inl hG⟩
          · refine .inr ⟨hopen, ?_⟩
            rintro (hG' | hun | ⟨heq, -⟩)
            · exact hG hG'
            · exact hread hun
            · exact hne heq
      · rcases hc _ _ h₁ with ⟨-, rfl, hread, heq⟩ | ⟨⟨e, he⟩, -⟩
        · have hstop : ChecksStop host io d₁.original (c :: cs) ↔ ChecksStop host io d₁.original cs := by
            simp [ChecksStop, hread, heq]
          have hpass : ChecksPass host io d₁.original (c :: cs) ↔ ChecksPass host io d₁.original cs := by
            simp [ChecksPass, hread, heq]
          rw [hstop, hpass]
          refine post_bind (fun e d₂ h₂ => ?_) fun us d₂ h₂ => ?_
          · rcases hcs _ _ h₂ with ⟨⟨us, hus⟩, -⟩ | ⟨-, hrest⟩
            · cases hus
            · exact .inr ⟨⟨e, rfl⟩, hrest⟩
          · rcases hcs _ _ h₂ with ⟨-, rfl, hp⟩ | ⟨⟨e, he⟩, -⟩
            · exact .inl ⟨⟨_, rfl⟩, rfl, hp⟩
            · cases he
        · cases he

theorem not_checksStop_of_pass {t : Tree} {cs : List ChangedFile} (h : ChecksPass host io t cs) :
    ¬ ChecksStop host io t cs := by
  induction cs with
  | nil => exact id
  | cons c cs ih =>
      rintro (hun | ⟨-, hstop⟩)
      · exact (h c mem_cons_self).1 hun
      · exact ih (fun c' hc' => h c' (mem_cons_of_mem _ hc')) hstop

theorem rollback_verdict {selection : RollbackSelection} (h : Terminal d) :
    Eff.Post d (rollback host io now selection) fun _ d' => Verdict (RollbackStops host io selection d) d' := by
  unfold rollback
  refine post_readManifest (fun hm => .inl ⟨h, fun m hm' => by rw [hm] at hm'; cases hm'⟩) fun m hm => ?_
  have hiff : RollbackStops host io selection d ↔ selectedRollbackPaths m.changedFiles selection = [] ∨
      Faulty io [.rollbackManifest, .rollbackStatus] ∨
      ChecksStop host io d.original (chosenToUndo m selection) ∨
      ChecksPass host io d.original (chosenToUndo m selection) ∧ RestoreFails host io selection m d := by
    simp [RollbackStops, hm]
  rw [hiff]
  refine post_check (fun hnil => .inl ⟨h, .inl (by simpa using hnil)⟩) fun hne => ?_
  have hne : selectedRollbackPaths m.changedFiles selection ≠ [] := by simpa using hne
  have hchecks := post_iff.mp (checkRollbacks_verdict host io now (m := m) h
    (chosenToUndo m selection))
  refine post_bind (fun e d₁ h₁ => ?_) fun us d₁ h₁ => ?_
  · rcases hchecks _ _ h₁ with ⟨⟨us, hus⟩, -⟩ | ⟨-, hnot, hv⟩
    · cases hus
    · rcases hv with ⟨hterm, hG⟩ | ⟨hopen, hG⟩
      · rcases hG with hG | hG
        · exact .inl ⟨hterm, .inr (.inl hG)⟩
        · exact .inl ⟨hterm, .inr (.inr (.inl hG))⟩
      · refine .inr ⟨hopen, ?_⟩
        rintro (hnil | hG' | hG' | ⟨hp, -⟩)
        · exact hne hnil
        · exact hG (.inl hG')
        · exact hG (.inr hG')
        · exact hnot hp
  · rcases hchecks _ _ h₁ with ⟨-, rfl, hpass⟩ | ⟨⟨e, he⟩, -⟩
    swap
    · cases he
    have hloop : ∀ r d₂, each (rollbackChanged host io (selectedRollbackPaths m.changedFiles selection)
        (rollbackHunkSelections selection)) m.changedFiles d₁ = (r, d₂) → d₂.record = d₁.record := by
      intro r d₂ h₂
      have hws : Eff.Respects (WritesOnly Set.univ) (each (rollbackChanged host io
          (selectedRollbackPaths m.changedFiles selection) (rollbackHunkSelections selection)) m.changedFiles) :=
        each fun _ _ => writesOnly_rollbackChanged fun _ => trivial
      have hrec := (hws d₁).record
      rw [h₂] at hrec
      exact hrec
    refine post_bind (fun e d₂ h₂ => ?_) fun cs d₂ h₂ => ?_
    · exact .inl ⟨h.of_record_eq (hloop _ _ h₂), .inr (.inr (.inr ⟨hpass, e, d₂, h₂⟩))⟩
    have hterm : Terminal d₂ := h.of_record_eq (hloop _ _ h₂)
    refine post_writeManifest (fun old hio _ => ?_) fun h₃ => ?_
    · exact .inl ⟨hterm.of_record_eq rfl, .inr (.inl ⟨_, by simp, hio⟩)⟩
    refine post_writeTaskStatus (fun hio => ?_) fun h₄ => ?_
    · exact .inl ⟨hterm.of_record_eq rfl, .inr (.inl ⟨_, by simp, hio⟩)⟩
    refine verdict_of_open (open_withStatus (hterm.of_record_eq rfl) now (by split <;> rfl)) ?_ ?_
    · rintro (hnil | hfault | hstop | ⟨-, e, d', herr⟩)
      · exact hne hnil
      · simp [Faulty, h₃, h₄] at hfault
      · exact not_checksStop_of_pass hpass hstop
      · rw [h₂] at herr
        cases herr
    · exact bind keepsOpen_attempt fun _ => respects_pure _

/-! ## A resume of a terminal task -/

theorem recoverManifest_isTerminal (m : TaskManifest) : (recoverManifest true m).status.isTerminal = true ↔
      m.status.isTerminal = true ∧ (m.environmentBinding.all fun b => b.validation.isValid) = true := by
  have hrec : m.status.recoverable = true → m.status.isTerminal = false := by
    cases m.status <;> simp [TaskStatus.recoverable, TaskStatus.isTerminal]
  unfold recoverManifest
  rcases hb : m.environmentBinding with _ | b
  · by_cases hr : m.status.recoverable = true
    · by_cases hnil : m.changedFiles = [] <;> simp [hr, hrec hr, hnil] <;> decide
    · simp [hr]
  · cases hv : b.validation.isValid
    · simp [hv]; decide
    · by_cases hr : m.status.recoverable = true
      · by_cases hnil : m.changedFiles = [] <;> simp [hv, hr, hrec hr, hnil] <;> decide
      · simp [hv, hr]

variable (io) in
theorem recoverTaskWorkspace_spec (git : GitHost) (project : ProjectRecord) (m : TaskManifest) (d : Disk) :
    Eff.Post d (recoverTaskWorkspace io git project m) fun r d' => (d.workspace ≠ none ∧ r = .ok m ∧ d' = d) ∨
      (d.workspace = none ∧ (∃ e, r = .error e) ∧ d' = d ∧
        (io .resumeWorkspace ≠ none ∨ ∃ e, recoveredWorkspace git project m d.original = .error e)) ∨
      (d.workspace = none ∧ io .resumeWorkspace = none ∧
        ∃ root ws, recoveredWorkspace git project m d.original = .ok (root, ws) ∧
          r = .ok { m with workspaceRoot := root, status := .workspaceReady } ∧ d' = { d with workspace := some ws }) := by
  unfold recoverTaskWorkspace
  refine post_read ?_
  split
  · rename_i hws
    exact .inl ⟨isSome_iff_ne_none.mp hws, rfl, rfl⟩
  · rename_i hws
    have hnone : d.workspace = none := by simpa using hws
    refine post_attempt (fun hio => .inr (.inl ⟨hnone, ⟨_, rfl⟩, rfl, .inl hio⟩)) fun hio => ?_
    refine post_lift (fun e he => .inr (.inl ⟨hnone, ⟨e, rfl⟩, rfl, .inr ⟨e, he⟩⟩)) fun found hfound => ?_
    exact .inr (.inr ⟨hnone, hio, found.1, found.2, hfound, rfl, rfl⟩)

theorem resume_verdict (h : Terminal d) :
    Eff.Post d (resumeTask σ.env σ.git io now σ.project) fun _ d' => Verdict (ResumeKeeps σ io now d) d' := by
  unfold resumeTask
  refine post_readManifest (fun hm => .inl ⟨h, fun m hm' => by rw [hm] at hm'; cases hm'⟩) fun m hm => ?_
  have hiff : ResumeKeeps σ io now d ↔ Faulty io [.resumeManifest, .resumeStatus] ∨
      (d.workspace = none ∧
        (io .resumeWorkspace ≠ none ∨ ∃ e, recoveredWorkspace σ.git σ.project m d.original = .error e)) ∨
      (d.workspace ≠ none ∧ m.status.isTerminal = true ∧
        (revalidated σ.env now d.original m).environmentBinding.all fun b => b.validation.isValid) := by
    simp [ResumeKeeps, hm]
  rw [hiff]
  -- What follows on the recovery of the workspace, for the manifest that it returns.
  have hrest : ∀ (m₁ : TaskManifest) (d₁ : Disk) (G : Prop), d₁.record = d.record → d₁.workspace.isSome = true →
      (G ↔ Faulty io [.resumeManifest, .resumeStatus] ∨
        (recoverManifest true (revalidated σ.env now d₁.original m₁)).status.isTerminal = true) →
      Eff.Post d₁ (do
        let d ← read
        let manifest := recoverManifest d.workspace.isSome (revalidated σ.env now d.original m₁)
        writeManifest io .resumeManifest manifest
        writeTaskStatus io .resumeStatus now manifest.status
        io.attempt .overview
        check d.record.isSome (.other ("missing task record for " ++ manifest.taskId.toList))
        return manifest : Op TaskManifest) fun _ d' => Verdict G d' := by
    intro m₁ d₁ G hrec hws hG
    refine post_read ?_
    rw [hws]
    generalize recoverManifest true (revalidated σ.env now d₁.original m₁) = m₂ at hG ⊢
    refine post_writeManifest (fun old hio _ => ?_) fun h₁ => ?_
    · exact .inl ⟨h.of_record_eq hrec, hG.mpr (.inl ⟨_, by simp, hio⟩)⟩
    refine post_writeTaskStatus (fun hio => ?_) fun h₂ => ?_
    · exact .inl ⟨h.of_record_eq hrec, hG.mpr (.inl ⟨_, by simp, hio⟩)⟩
    obtain ⟨r, hr, -⟩ := h
    have hverdict : ∀ d₂ : Disk, d₂.record = some (r.withStatus now m₂.status) → Verdict G d₂ := by
      intro d₂ hr₂
      cases hstatus : m₂.status.isTerminal with
      | true => exact .inl ⟨⟨_, hr₂, hstatus⟩, hG.mpr (.inr hstatus)⟩
      | false =>
          refine .inr ⟨⟨_, hr₂, hstatus⟩, fun hg => ?_⟩
          rcases hG.mp hg with hfault | hterm
          · simp [Faulty, h₁, h₂] at hfault
          · rw [hstatus] at hterm; cases hterm
    have hd₂ : ∀ d₂ : Disk, d₂.record = d₁.record.map (fun r => r.withStatus now m₂.status) → Verdict G d₂ := by
      intro d₂ hd₂
      refine hverdict d₂ ?_
      rw [hd₂, hrec, hr]
      rfl
    refine post_attempt (fun _ => hd₂ _ rfl) fun _ => ?_
    exact post_check (fun _ => hd₂ _ rfl) fun _ => hd₂ _ rfl
  have hspec := post_iff.mp (recoverTaskWorkspace_spec io σ.git σ.project m d)
  refine post_bind (fun e d₁ h₁ => ?_) fun m₁ d₁ h₁ => ?_
  · rcases hspec _ _ h₁ with ⟨-, hr, -⟩ | ⟨hws, -, rfl, hstop⟩ | ⟨-, -, root, ws, -, hr, -⟩
    · cases hr
    · exact .inl ⟨h, .inr (.inl ⟨hws, hstop⟩)⟩
    · cases hr
  · rcases hspec _ _ h₁ with ⟨hws, hr, rfl⟩ | ⟨-, ⟨e, he⟩, -⟩ | ⟨hws, hio, root, ws, hfnd, hr, rfl⟩
    · cases hr
      refine hrest m d₁ _ rfl (isSome_iff_ne_none.mpr hws) ?_
      rw [recoverManifest_isTerminal]
      simp [hws, revalidated]
    · cases he
    · cases hr
      refine hrest _ _ _ rfl rfl ?_
      rw [recoverManifest_isTerminal]
      simp [hws, hio, hfnd, revalidated, TaskStatus.isTerminal]

theorem perform_terminal_iff (h : Terminal d) (a : Action) : Terminal (a.perform σ d) ↔ LeavesTerminal σ d a := by
  cases a with
  | editOriginal tree => exact ⟨fun _ => trivial, fun _ => h⟩
  | editWorkspace ws => exact ⟨fun _ => trivial, fun _ => h⟩
  | refresh io now => exact (refreshChanges_verdict _ io now h).1.terminal_iff
  | merge io now selection => exact (merge_verdict h).terminal_iff
  | rollback io now selection => exact (rollback_verdict h).terminal_iff
  | runTest io now command => exact (runTest_verdict h).terminal_iff
  | review io now => exact (review_verdict h).terminal_iff
  | summarize io now => exact (summary_verdict h).terminal_iff
  | resume io now => exact (resume_verdict h).terminal_iff
  | archive io now taskId => exact ⟨fun _ => trivial, fun _ => h.archive⟩

/-! ## Runs of a project -/

variable {s s' : Session} {fresh : Fresh} {t : String}

/-- The task `t` is terminal. -/
def TerminalAt (s : Session) (t : String) : Prop := ∃ files, s.tasks.lookup t = some files ∧ Terminal (s.disk files)

/-- An action on the task `t` leaves it terminal. -/
def LeavesTerminalAt (σ : Setting) (t : String) (s : Session) : ProjectAction → Prop
  | .session _ => True
  | .task u a => u = t → ∀ files, s.tasks.lookup t = some files → LeavesTerminal σ (s.disk files) a

/-- No request for an active task, in whatever conversation, gets the task `t`. -/
def NotHandedBack (σ : Setting) (s : Session) (t : String) : Prop :=
  ∀ io fresh listing title conversationId response, fresh.uuid ∉ s.tasks →
    (resolveOrCreateTask σ io fresh listing ⟨title, conversationId, .reuseActive⟩ s).1 = .ok response →
      response.task.id ≠ t

theorem terminalAt_putDisk {d : Disk} : TerminalAt (s.putDisk t d) t ↔ Terminal d := by
  constructor
  · rintro ⟨files, hfs, hterm⟩
    rw [Session.putDisk, Finmap.lookup_insert] at hfs
    cases hfs
    exact hterm
  · exact fun h => ⟨_, Finmap.lookup_insert _, h⟩

theorem TerminalAt.of_lookup_eq (h : TerminalAt s t) (heq : s'.tasks.lookup t = s.tasks.lookup t) : TerminalAt s' t := by
  obtain ⟨files, hfs, hterm⟩ := h
  exact ⟨files, heq.trans hfs, hterm⟩

theorem TerminalAt.task_iff (h : TerminalAt s t) (taskId : String) (a : Action) :
    TerminalAt ((task taskId a).perform σ s) t ↔ LeavesTerminalAt σ t s (.task taskId a) := by
  obtain ⟨files, hfs, hterm⟩ := h
  simp only [perform, LeavesTerminalAt]
  rcases hfs' : s.tasks.lookup taskId with _ | files'
  · refine ⟨fun _ ht => ?_, fun _ => ⟨files, hfs, hterm⟩⟩
    subst ht
    cases hfs.symm.trans hfs'
  · by_cases ht : t = taskId
    · subst ht
      cases hfs.symm.trans hfs'
      rw [terminalAt_putDisk, perform_terminal_iff hterm a]
      simp [hfs]
    · refine ⟨fun _ ht' => absurd ht'.symm ht, fun _ => ?_⟩
      exact TerminalAt.of_lookup_eq ⟨files, hfs, hterm⟩ (Finmap.lookup_insert_of_ne _ ht)

theorem TerminalAt.perform_iff {a : ProjectAction} (h : TerminalAt s t) (hfr : FreshTaskIds s a) :
    TerminalAt (a.perform σ s) t ↔ LeavesTerminalAt σ t s a := by
  cases a with
  | session a =>
      refine ⟨fun _ => trivial, fun _ => ?_⟩
      cases a with
      | resolve io fresh listing request =>
          refine h.of_lookup_eq ((grows_resolveOrCreateTask (σ := σ) listing request s).others t ?_)
          rintro rfl
          obtain ⟨files, hfs, -⟩ := h
          exact hfr (Finmap.mem_of_lookup_eq_some hfs)
      | archive io now taskId =>
          rw [perform, SessionAction.perform, archiveTaskIn_state σ, h.task_iff]
          exact fun _ files _ => trivial
  | task taskId a => exact h.task_iff taskId a

/-! ## Requests for an active task -/

theorem findLatestUnfinishedTask_open {listing : List String} {r : TaskRecord}
    (h : findLatestUnfinishedTask listing s = some r) : ∃ u, s.record u = some r ∧ r.status.isTerminal = false := by
  unfold findLatestUnfinishedTask at h
  refine (mem_or_of_foldl (fun best task r hr => ?_) h).elim (fun hmem => ?_) fun hnone => ?_
  -- The later of two tasks is one of them.
  · split at hr
    · exact .inl (some.inj hr).symm
    · split at hr
      · exact .inl (some.inj hr).symm
      · exact .inr hr
  · obtain ⟨hmem, hopen⟩ := mem_filter.mp hmem
    obtain ⟨u, -, hu⟩ := mem_filterMap.mp hmem
    exact ⟨u, hu, by simpa using hopen⟩
  · cases hnone

variable (io fresh) in
theorem chooseTask_open (listing : List String) (title : String) (c : Option String) (s : Session) :
    Eff.Post s (chooseTask σ io fresh listing ⟨title, c, .reuseActive⟩) fun r _ => ∀ task, r = .ok task →
      task.1.id = fresh.uuid ∨ ∃ u, s.record u = some task.1 ∧ task.1.status.isTerminal = false := by
  have hcreate : Eff.Post s (createTaskIn σ io fresh title >>= fun created =>
      (pure (created.1, false) : SessionOp (TaskRecord × Bool))) fun r _ => ∀ task, r = .ok task →
        task.1.id = fresh.uuid ∨ ∃ u, s.record u = some task.1 ∧ task.1.status.isTerminal = false := by
    have hid := post_iff.mp (createTaskIn_id σ io fresh title s)
    refine post_bind (fun e s' _ task htask => by cases htask) fun new s' hs' task htask => ?_
    cases htask
    exact .inl (hid _ _ hs' new rfl)
  have hbound : Eff.Post s (boundTask io ⟨title, c, .reuseActive⟩) fun r s' => s' = s ∧
      ∀ task, r = .ok (some task) → ∃ u, s.record u = some task := by
    unfold boundTask
    split
    · refine post_read ?_
      refine post_check (fun _ => ⟨rfl, fun task h => by cases h⟩) fun _ => ?_
      split
      · exact ⟨rfl, fun task h => by cases h⟩
      · rename_i u _
        refine post_check (fun _ => ⟨rfl, fun task h => by cases h⟩) fun _ => ?_
        exact ⟨rfl, fun task h => ⟨u, Except.ok.inj h⟩⟩
    · exact ⟨rfl, fun task h => by cases h⟩
  have hbound := post_iff.mp hbound
  unfold chooseTask
  refine post_bind (fun e s' _ task htask => by cases htask) fun bound s' hs' => ?_
  obtain ⟨rfl, hfound⟩ := hbound _ _ hs'
  split
  · rename_i r hr
    obtain ⟨rfl, hopen⟩ := filter_eq_some_iff.mp hr
    intro task htask
    cases htask
    obtain ⟨u, hu⟩ := hfound r rfl
    exact .inr ⟨u, hu, by simpa using hopen⟩
  · split
    · exact hcreate
    · refine post_check (fun _ task htask => by cases htask) fun _ => ?_
      refine post_read ?_
      split
      · rename_i r hr
        intro task htask
        cases htask
        exact .inr (findLatestUnfinishedTask_open hr)
      · exact hcreate

theorem TerminalAt.notHandedBack (h : TerminalAt s t) (hnamed : Named σ s) : NotHandedBack σ s t := by
  intro io fresh listing title c response hfr hok
  obtain ⟨files, hfs, hterm⟩ := h
  have hchoose := post_iff.mp (chooseTask_open (σ := σ) io fresh listing title c s)
  have hresolve : Eff.Post s (resolveOrCreateTask σ io fresh listing ⟨title, c, .reuseActive⟩) fun r _ =>
      ∀ response, r = .ok response → response.task.id ≠ t := by
    unfold resolveOrCreateTask
    refine post_bind (fun e s' _ response hr => by cases hr) fun task s' hs' => ?_
    have htask : task.1.id ≠ t := by
      rintro rfl
      rcases hchoose _ _ hs' task rfl with hid | ⟨u, hu, hopen⟩
      · rw [hid] at hfs
        exact hfr (Finmap.mem_of_lookup_eq_some hfs)
      · rw [(hnamed u task.1 hu).1] at hfs
        rw [Session.record, hfs] at hu
        exact Open.not_terminal (d := s.disk files) ⟨task.1, hu, hopen⟩ hterm
    refine post_read ?_
    split
    · exact fun response hr => by cases hr
    · refine post_bind (fun e s'' _ response hr => by cases hr) fun b s'' _ response hr => ?_
      cases hr
      exact htask
  exact post_iff.mp hresolve _ _ rfl response hok

/-- A terminal task stays terminal, and is not handed back, through a run of requests and operations exactly when each
operation on it stops before it writes the status, or is a resume that keeps it. -/
theorem terminal_is_final_iff (σ : Setting) (original : Tree) (locks : List Text) (as₀ : List ProjectAction)
    (s : Session) (t : String) (as : List ProjectAction)
    (hrun : Run (Guarded FreshTaskIds (ProjectStep σ)) (.registered original locks) as₀ s) (h : TerminalAt s t) :
    StatesMeet (Guarded FreshTaskIds (ProjectStep σ)) (fun s' => TerminalAt s' t ∧ NotHandedBack σ s' t) s as ↔
      StepsMeet (Guarded FreshTaskIds (ProjectStep σ)) (LeavesTerminalAt σ t) s as := by
  have hnamed : Named σ s := by
    refine hrun.invariant (I := Named σ) (fun t r hr => ?_) fun _ _ _ hs hstep => hs.step hstep.2
    simp [Session.record, Session.registered] at hr
  refine statesMeet_iff_stepsMeet (I := fun s => Named σ s ∧ TerminalAt s t) (J := Named σ) as ⟨hnamed, h⟩ ?_ ?_
    hnamed (fun _ _ _ hs hstep => hs.step hstep.2) ?_
  · rintro s a s' ⟨hn, hterm⟩ hG ⟨hfr, hstep⟩
    refine ⟨hn.step hstep, ?_⟩
    rw [show s' = a.perform σ s from hstep, hterm.perform_iff hfr]
    exact hG
  · rintro s ⟨hn, hterm⟩
    exact ⟨hterm, hterm.notHandedBack hn⟩
  · rintro s a s' - ⟨hterm, -⟩ ⟨hfr, hstep⟩ ⟨hterm', -⟩
    rw [show s' = a.perform σ s from hstep, hterm.perform_iff hfr] at hterm'
    exact hterm'

/-! ## A task that is archived and then refreshed -/

def sampleArchived : List ProjectAction :=
  [.session (.resolve .healthy ⟨"1", ["state", "workspaces", "p", "1"], 0⟩ [] ⟨"task", some "left", .reuseActive⟩),
    .session (.archive .healthy 1 "1")]

def sampleProject : Session :=
  sampleArchived.foldl (fun s a => a.perform sampleSetting s) (.registered (sampleTree [(["a.txt"], "base")]) [])

theorem sampleProject_run : Run (Guarded FreshTaskIds (ProjectStep sampleSetting))
    (.registered (sampleTree [(["a.txt"], "base")]) []) sampleArchived sampleProject :=
  .cons ⟨Finmap.notMem_empty, rfl⟩ (.cons ⟨trivial, rfl⟩ (.nil _))

theorem sampleProject_terminal : TerminalAt sampleProject "1" := by
  have h : (sampleProject.tasks.lookup "1").any fun files =>
      files.record.any fun r => r.status.isTerminal := by decide +kernel
  obtain ⟨files, hfs, hrec⟩ := (any_eq_true _ _).mp h
  obtain ⟨r, hr, hterm⟩ := (any_eq_true _ _).mp hrec
  exact ⟨files, hfs, r, hr, hterm⟩

/-- An archived task that is archived again stays terminal. -/
theorem terminal_after_second_archiving : TerminalAt sampleProject "1" ∧
      StatesMeet (Guarded FreshTaskIds (ProjectStep sampleSetting))
        (fun s => TerminalAt s "1" ∧ NotHandedBack sampleSetting s "1") sampleProject
        [.session (.archive .healthy 2 "1")] := by
  refine ⟨sampleProject_terminal, ?_⟩
  refine (terminal_is_final_iff sampleSetting _ [] sampleArchived sampleProject "1" _ sampleProject_run
    sampleProject_terminal).mpr ?_
  exact stepsMeet_cons fun _ _ => ⟨trivial, stepsMeet_nil⟩

/-- A refresh of an archived task opens it again, and the next request of its conversation gets it. -/
theorem refresh_reopens_archived :
    Run (Guarded FreshTaskIds (ProjectStep sampleSetting)) (.registered (sampleTree [(["a.txt"], "base")]) [])
        sampleArchived sampleProject ∧ TerminalAt sampleProject "1" ∧
      ¬ StatesMeet (Guarded FreshTaskIds (ProjectStep sampleSetting))
        (fun s => TerminalAt s "1" ∧ NotHandedBack sampleSetting s "1") sampleProject
        [.task "1" (.refresh .healthy 2)] ∧
      ∃ response, (resolveOrCreateTask sampleSetting .healthy ⟨"2", ["state", "workspaces", "p", "2"], 3⟩ []
        ⟨"task", some "left", .reuseActive⟩
        ((task "1" (.refresh .healthy 2)).perform sampleSetting sampleProject)).1 = .ok response ∧
        response.task.id = "1" ∧ response.reusedExisting = true := by
  have hresponse : (match (resolveOrCreateTask sampleSetting .healthy ⟨"2", ["state", "workspaces", "p", "2"], 3⟩ []
      ⟨"task", some "left", .reuseActive⟩
      ((task "1" (.refresh .healthy 2)).perform sampleSetting sampleProject)).1 with
    | .ok response => response.task.id == "1" && response.reusedExisting
    | .error _ => false) = true := by decide +kernel
  refine ⟨sampleProject_run, sampleProject_terminal, fun hmeet => ?_, ?_⟩
  · obtain ⟨hterm, -⟩ := hmeet _ _ prefix_rfl (.single ⟨trivial, rfl⟩)
    obtain ⟨files, hfs, r, hr, hstatus⟩ := hterm
    have hopen : (((task "1" (.refresh .healthy 2)).perform sampleSetting sampleProject).tasks.lookup
        "1").all fun files => files.record.all fun r => !r.status.isTerminal := by decide +kernel
    rw [hfs] at hopen
    have hrec : files.record = some r := hr
    simp only [all_some, hrec, hstatus] at hopen
    cases hopen
  · split at hresponse
    · rename_i response hok
      exact ⟨response, hok, by simpa using hresponse⟩
    · cases hresponse

end CodexStudy.NewCore
