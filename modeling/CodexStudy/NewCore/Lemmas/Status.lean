import CodexStudy.NewCore.Lemmas.Rollback
import CodexStudy.NewCore.Runs

/-!
# What an operation does to the status of a task
-/

namespace CodexStudy.NewCore

open CodexStudy.Lib Eff Eff.Respects

variable {σ : Setting} {host : Host} {io : IoPlan} {now : Nat} {d d' : Disk}

def Terminal (d : Disk) : Prop := ∃ r, d.record = some r ∧ r.status.isTerminal = true

def Open (d : Disk) : Prop := ∃ r, d.record = some r ∧ r.status.isTerminal = false

theorem Open.not_terminal (h : Open d) : ¬ Terminal d := by
  obtain ⟨r, hr, hopen⟩ := h
  rintro ⟨r', hr', hterm⟩
  cases hr.symm.trans hr'
  rw [hopen] at hterm
  cases hterm

theorem Terminal.of_record_eq (h : Terminal d) (heq : d'.record = d.record) : Terminal d' := by
  rw [Terminal, heq]; exact h

def TaskRecord.ids (r : TaskRecord) : String × String := (r.id, r.projectId)

def SameTask (d d' : Disk) : Prop := d'.record.map TaskRecord.ids = d.record.map TaskRecord.ids

structure KeepsOpen (d d' : Disk) : Prop where
  same : SameTask d d'
  stays : Open d → Open d'

instance : Std.Refl KeepsOpen := ⟨fun _ => ⟨rfl, id⟩⟩

instance : IsTrans Disk KeepsOpen :=
  ⟨fun _ _ _ h₁ h₂ => ⟨Eq.trans h₂.same h₁.same, fun h => h₂.stays (h₁.stays h)⟩⟩

theorem keepsOpen_of_record_eq (h : d'.record = d.record) : KeepsOpen d d' := by
  refine ⟨by rw [SameTask, h], fun hopen => ?_⟩
  rw [Open, h]
  exact hopen

theorem SameTask.exists_before (h : SameTask d d') {r' : TaskRecord} (hr' : d'.record = some r') :
    ∃ r, d.record = some r ∧ r'.id = r.id ∧ r'.projectId = r.projectId := by
  rw [SameTask, hr', Option.map_some, eq_comm, Option.map_eq_some_iff] at h
  obtain ⟨r, hr, hids⟩ := h
  exact ⟨r, hr, (congrArg Prod.fst hids).symm, (congrArg Prod.snd hids).symm⟩

theorem sameTask_withStatus (d : Disk) (now : Nat) (status : TaskStatus) :
    SameTask d { d with record := d.record.map fun r => r.withStatus now status } := by
  rw [SameTask, Option.map_map]
  rfl

/-! ## Parts that leave an open task open -/

variable {m : TaskManifest} {selection : MergeSelection} {project : ProjectRecord} {taskId : String}

section

variable {pt : IoPoint} {status : TaskStatus}

theorem keepsOpen_attempt : Eff.Respects KeepsOpen (io.attempt pt) := respects_check _ _

theorem keepsOpen_writeManifest : Eff.Respects KeepsOpen (writeManifest io pt m) := by
  unfold writeManifest
  split
  · exact respects_modify fun d => keepsOpen_of_record_eq rfl
  · exact respects_fail _
  · exact bind (respects_modify fun d => keepsOpen_of_record_eq rfl) fun _ => respects_fail _

theorem keepsOpen_writeTaskStatus (h : status.isTerminal = false) :
    Eff.Respects KeepsOpen (writeTaskStatus io pt now status) := by
  refine bind keepsOpen_attempt fun _ => respects_modify fun d => ?_
  refine ⟨sameTask_withStatus d now status, ?_⟩
  rintro ⟨r, hr, -⟩
  exact ⟨r.withStatus now status, by rw [hr]; rfl, h⟩

theorem keepsOpen_readManifest : Eff.Respects KeepsOpen readManifest := by
  refine bind respects_read fun d => ?_
  split
  · exact respects_pure _
  · exact respects_fail _

theorem keepsOpen_withLock {α : Type} {name held : Text} {body : Op α} (h : Eff.Respects KeepsOpen body) :
    Eff.Respects KeepsOpen (withLock io pt name held body) := by
  have hlocked : Eff.Respects KeepsOpen (modify fun d => d.locked name : Op Unit) :=
    respects_modify fun d => keepsOpen_of_record_eq rfl
  refine bind respects_read fun d => ?_
  refine bind (respects_check _ _) fun _ => ?_
  split
  · exact bind hlocked fun _ => h.ensuring fun d => keepsOpen_of_record_eq rfl
  · exact respects_fail _
  · exact bind hlocked fun _ => respects_fail _

theorem keepsOpen_of_writesOnly {α : Type} {S : Set RelPath} {x : Op α} (h : Eff.Respects (WritesOnly S) x) :
    Eff.Respects KeepsOpen x :=
  fun d => keepsOpen_of_record_eq (h d).record

end

theorem refreshedManifest_open {t : Tree} {ws : Workspace} :
    (refreshedManifest host now t ws m).status.isTerminal = false := by
  unfold refreshedManifest
  dsimp only
  split <;> rfl

theorem keepsOpen_refreshChanges : Eff.Respects KeepsOpen (refreshChanges host io now) := by
  unfold refreshChanges
  refine bind keepsOpen_readManifest fun m => ?_
  refine bind keepsOpen_attempt fun _ => ?_
  refine bind keepsOpen_attempt fun _ => ?_
  refine bind respects_read fun d => ?_
  refine bind (respects_check _ _) fun _ => ?_
  refine bind keepsOpen_attempt fun _ => ?_
  refine bind keepsOpen_writeManifest fun _ => ?_
  refine bind (keepsOpen_writeTaskStatus refreshedManifest_open) fun _ => ?_
  refine bind (each fun c _ => keepsOpen_attempt) fun _ => ?_
  exact bind keepsOpen_attempt fun _ => respects_pure _

theorem keepsOpen_mergeLocked :
    Eff.Respects KeepsOpen (mergeLocked host io now selection m) := by
  have hck : ∀ c, Eff.Respects KeepsOpen (checkConflict host io now m c) := by
    intro c
    unfold checkConflict
    refine bind (respects_lift _) fun path => ?_
    refine bind keepsOpen_attempt fun _ => ?_
    refine bind respects_read fun d => ?_
    refine bind (respects_lift _) fun hash => ?_
    split
    · exact respects_pure ()
    · refine bind keepsOpen_writeManifest fun _ => ?_
      exact bind (keepsOpen_writeTaskStatus rfl) fun _ => respects_fail _
  unfold mergeLocked
  refine bind keepsOpen_attempt fun _ => ?_
  refine bind (each fun c _ => hck c) fun _ => ?_
  refine bind (each fun c _ => ?_) fun cs => ?_
  · exact keepsOpen_of_writesOnly (writesOnly_mergeChanged (S := Set.univ) fun _ => trivial)
  refine bind keepsOpen_attempt fun _ => ?_
  refine bind keepsOpen_writeManifest fun _ => ?_
  refine bind (keepsOpen_writeTaskStatus rfl) fun _ => ?_
  exact bind keepsOpen_attempt fun _ => respects_pure _

theorem keepsOpen_merge : Eff.Respects KeepsOpen (merge host io now selection) :=
  bind keepsOpen_refreshChanges fun _ => keepsOpen_withLock keepsOpen_mergeLocked

theorem keepsOpen_rollback {selection : RollbackSelection} : Eff.Respects KeepsOpen (rollback host io now selection) := by
  have hck : ∀ m c, Eff.Respects KeepsOpen (checkRollback host io now m c) := by
    intro m c
    unfold checkRollback
    refine bind (respects_lift _) fun path => ?_
    refine bind keepsOpen_attempt fun _ => ?_
    refine bind respects_read fun d => ?_
    refine bind (respects_lift _) fun hash => ?_
    split
    · exact respects_pure ()
    · refine bind keepsOpen_writeManifest fun _ => ?_
      exact bind (keepsOpen_writeTaskStatus rfl) fun _ => respects_fail _
  unfold rollback
  refine bind keepsOpen_readManifest fun m => ?_
  refine bind (respects_check _ _) fun _ => ?_
  refine bind (each fun c _ => hck m c) fun _ => ?_
  refine bind (each fun c _ => ?_) fun cs => ?_
  · exact keepsOpen_of_writesOnly (writesOnly_rollbackChanged (S := Set.univ) fun _ => trivial)
  refine bind keepsOpen_writeManifest fun _ => ?_
  refine bind (keepsOpen_writeTaskStatus (by split <;> rfl)) fun _ => ?_
  exact bind keepsOpen_attempt fun _ => respects_pure _

theorem keepsOpen_runTest {command : TestCommand} : Eff.Respects KeepsOpen (runTestCommandRequest io now command) := by
  unfold runTestCommandRequest
  refine bind keepsOpen_readManifest fun m => ?_
  refine bind keepsOpen_attempt fun _ => ?_
  refine bind keepsOpen_attempt fun _ => ?_
  refine bind (keepsOpen_writeTaskStatus rfl) fun _ => ?_
  refine bind keepsOpen_attempt fun _ => ?_
  refine bind (respects_modify fun d => keepsOpen_of_record_eq rfl) fun _ => ?_
  refine bind keepsOpen_attempt fun _ => ?_
  refine bind (keepsOpen_writeTaskStatus (by split <;> rfl)) fun _ => ?_
  exact bind keepsOpen_attempt fun _ => respects_pure _

theorem keepsOpen_review : Eff.Respects KeepsOpen (reviewTask io now project) := by
  unfold reviewTask
  refine bind keepsOpen_readManifest fun m => ?_
  refine bind keepsOpen_attempt fun _ => ?_
  refine bind keepsOpen_attempt fun _ => ?_
  refine bind (keepsOpen_writeTaskStatus (by split <;> rfl)) fun _ => ?_
  exact bind keepsOpen_attempt fun _ => respects_pure _

theorem keepsOpen_summary : Eff.Respects KeepsOpen (writeTaskSummary io now) := by
  unfold writeTaskSummary
  refine bind keepsOpen_readManifest fun m => ?_
  refine bind keepsOpen_attempt fun _ => ?_
  refine bind keepsOpen_attempt fun _ => ?_
  exact keepsOpen_writeTaskStatus rfl

/-! ## Operations that may end in a terminal status -/

instance : Std.Refl SameTask := ⟨fun _ => rfl⟩

instance : IsTrans Disk SameTask := ⟨fun _ _ _ h₁ h₂ => Eq.trans h₂ h₁⟩

theorem sameTask_of_keepsOpen {α : Type} {x : Op α} (h : Eff.Respects KeepsOpen x) : Eff.Respects SameTask x :=
  fun d => (h d).same

theorem sameTask_resume {env : HostEnv} {git : GitHost} :
    Eff.Respects SameTask (resumeTask env git io now project) := by
  have hrecover : ∀ m, Eff.Respects SameTask (recoverTaskWorkspace io git project m) := by
    intro m
    unfold recoverTaskWorkspace
    refine bind respects_read fun d => ?_
    split
    · exact respects_pure _
    · refine bind (respects_check _ _) fun _ => ?_
      refine bind (respects_lift _) fun _ => ?_
      exact bind (respects_modify fun d => rfl) fun _ => respects_pure _
  unfold resumeTask
  refine bind (sameTask_of_keepsOpen keepsOpen_readManifest) fun m => ?_
  refine bind (hrecover m) fun m => ?_
  refine bind respects_read fun d => ?_
  refine bind (sameTask_of_keepsOpen keepsOpen_writeManifest) fun _ => ?_
  refine bind (bind (respects_check _ _) fun _ => ?_) fun _ => ?_
  · exact respects_modify fun d => sameTask_withStatus d _ _
  refine bind (respects_check _ _) fun _ => ?_
  exact bind (respects_check _ _) fun _ => respects_pure _

variable (io now) in
theorem archiveTask_spec (taskId : String) (d : Disk) :
    Eff.Post d (archiveTask io now taskId) fun _ d' => d' = d ∨ SameTask d d' ∧ Terminal d' := by
  unfold archiveTask
  refine post_read ?_
  split
  · exact .inl rfl
  · rename_i r hr
    have hdone : ∀ old r', r'.ids = r.ids → r'.status = .archived →
        SameTask d { d with manifest := old, record := some r' } ∧
          Terminal { d with manifest := old, record := some r' } := by
      intro old r' hids hstatus
      exact ⟨by rw [SameTask, hr]; exact congrArg some hids, r', rfl, by rw [hstatus]; rfl⟩
    refine post_attempt (fun _ => .inl rfl) fun _ => ?_
    refine post_modify ?_
    refine post_read ?_
    split
    · exact post_attempt (fun _ => .inr (hdone _ _ rfl rfl)) fun _ => .inr (hdone _ _ rfl rfl)
    · exact post_writeManifest (fun old _ _ => .inr (hdone old _ rfl rfl)) fun _ => .inr (hdone _ _ rfl rfl)

theorem sameTask_archive : Eff.Respects SameTask (archiveTask io now taskId) := by
  intro d
  rcases post_iff.mp (archiveTask_spec io now taskId d) (archiveTask io now taskId d).1
    (archiveTask io now taskId d).2 rfl with
    heq | h
  · rw [heq]; exact Std.Refl.refl d
  · exact h.1

theorem Terminal.archive (h : Terminal d) : Terminal (archiveTask io now taskId d).2 := by
  rcases post_iff.mp (archiveTask_spec io now taskId d) (archiveTask io now taskId d).1
    (archiveTask io now taskId d).2 rfl with
    heq | hdone
  · rw [heq]; exact h
  · exact hdone.2

theorem sameTask_perform (σ : Setting) (d : Disk) (a : Action) : SameTask d (a.perform σ d) := by
  cases a with
  | editOriginal tree => exact rfl
  | editWorkspace ws => exact rfl
  | refresh io now => exact (keepsOpen_refreshChanges d).same
  | merge io now selection => exact (keepsOpen_merge d).same
  | rollback io now selection => exact (keepsOpen_rollback d).same
  | runTest io now command => exact (keepsOpen_runTest d).same
  | review io now => exact (keepsOpen_review d).same
  | summarize io now => exact (keepsOpen_summary d).same
  | resume io now => exact sameTask_resume d
  | archive io now taskId => exact sameTask_archive d

end CodexStudy.NewCore
