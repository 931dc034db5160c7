import CodexStudy.NewCore.Sessions
import CodexStudy.NewCore.Lemmas.Status

/-!
# What a request leaves of the tasks of a project
-/

namespace CodexStudy.NewCore

open CodexStudy.Lib Eff ProjectAction Eff.Respects

variable {σ : Setting} {io : IoPlan} {now : Nat} {s s' : Session} {fresh : Fresh} {t : String}

def NamedAt (σ : Setting) (s : Session) (t : String) : Prop :=
  ∀ r, s.record t = some r → r.id = t ∧ r.projectId = σ.project.id

theorem NamedAt.of_lookup_eq (h : NamedAt σ s t) (heq : s'.tasks.lookup t = s.tasks.lookup t) : NamedAt σ s' t := by
  intro r hr
  rw [Session.record, heq] at hr
  exact h r hr

/-- A request leaves the old tasks as they are, and a new one under its id. -/
structure Grows (σ : Setting) (fresh : Fresh) (s s' : Session) : Prop where
  others : ∀ t, t ≠ fresh.uuid → s'.tasks.lookup t = s.tasks.lookup t
  named : NamedAt σ s fresh.uuid → NamedAt σ s' fresh.uuid

instance : Std.Refl (Grows σ fresh) := ⟨fun _ => ⟨fun _ _ => rfl, id⟩⟩

instance : IsTrans Session (Grows σ fresh) :=
  ⟨fun _ _ _ h₁ h₂ => ⟨fun t ht => (h₂.others t ht).trans (h₁.others t ht), fun h => h₂.named (h₁.named h)⟩⟩

variable {files : TaskFiles} {d : Disk}

theorem grows_insert (htasks : s'.tasks = s.tasks.insert fresh.uuid files)
    (h : NamedAt σ s fresh.uuid → ∀ r, files.record = some r → r.id = fresh.uuid ∧ r.projectId = σ.project.id) :
    Grows σ fresh s s' := by
  refine ⟨fun t ht => by rw [htasks, Finmap.lookup_insert_of_ne _ ht], fun hnamed r hr => h hnamed r ?_⟩
  rw [Session.record, htasks, Finmap.lookup_insert] at hr
  exact hr

variable (σ io fresh) in
theorem grows_createTaskIn (title : String) : Eff.Respects (Grows σ fresh) (createTaskIn σ io fresh title) := by
  refine bind respects_read fun s => ?_
  refine bind (respects_check _ _) fun _ => ?_
  refine bind (respects_modify fun s => grows_insert rfl fun _ r hr => by cases hr) fun _ => ?_
  refine bind (respects_check _ _) fun _ => ?_
  refine bind (respects_modify fun s => grows_insert rfl fun _ r hr => by cases hr) fun _ => ?_
  refine bind (respects_check _ _) fun _ => ?_
  refine bind (respects_modify fun s => grows_insert rfl fun _ r hr => ?_) fun _ => ?_
  · cases hr
    exact ⟨rfl, rfl⟩
  exact bind (respects_check _ _) fun _ => respects_pure _

theorem grows_bindConversation {c : Option String} : Eff.Respects (Grows σ fresh) (bindConversation σ io now c t) := by
  unfold bindConversation
  split
  · refine bind ?_ fun b => respects_pure _
    refine bind respects_read fun s => ?_
    refine bind (respects_check _ _) fun _ => ?_
    exact bind (respects_modify fun s => ⟨fun _ _ => rfl, id⟩) fun _ => respects_pure _
  · exact respects_pure _

variable (σ io fresh) in
theorem createTaskIn_id (title : String) (s : Session) :
    Eff.Post s (createTaskIn σ io fresh title) fun r _ => ∀ t, r = .ok t → t.1.id = fresh.uuid := by
  unfold createTaskIn
  refine post_read ?_
  refine post_check (fun _ t ht => by cases ht) fun _ => ?_
  refine post_modify ?_
  refine post_check (fun _ t ht => by cases ht) fun _ => ?_
  refine post_modify ?_
  refine post_check (fun _ t ht => by cases ht) fun _ => ?_
  refine post_modify ?_
  refine post_check (fun _ t ht => by cases ht) fun _ t ht => ?_
  cases ht
  rfl

theorem NamedAt.putDisk (h : NamedAt σ s t) (hfs : s.tasks.lookup t = some files)
    (hsame : SameTask (s.disk files) d) : NamedAt σ (s.putDisk t d) t := by
  intro r hr
  rw [Session.record, Session.putDisk, Finmap.lookup_insert] at hr
  obtain ⟨r₀, hr₀, hid, hproj⟩ := hsame.exists_before hr
  rw [hid, hproj]
  exact h r₀ (by rw [Session.record, hfs]; exact hr₀)

theorem grows_onTask {α : Type} {op : Op α} (h : Eff.Respects SameTask op) :
    Eff.Respects (Grows σ fresh) (onTask fresh.uuid op) := by
  intro s
  unfold onTask
  split
  · exact Std.Refl.refl s
  · rename_i files hfs
    exact ⟨fun t ht => Finmap.lookup_insert_of_ne _ ht, fun hnamed => hnamed.putDisk hfs (h (s.disk files))⟩

theorem sameTask_fillFork (source : Workspace) : Eff.Respects SameTask (fillFork σ io now source) := by
  refine bind respects_read fun d => ?_
  split
  · exact respects_fail _
  · refine bind (respects_check _ _) fun _ => ?_
    refine bind (respects_modify fun d => rfl) fun _ => ?_
    exact sameTask_of_keepsOpen keepsOpen_refreshChanges

theorem grows_boundTask (request : ResolveTaskRequest) : Eff.Respects (Grows σ fresh) (boundTask io request) := by
  unfold boundTask
  split
  · refine bind respects_read fun s => ?_
    refine bind (respects_check _ _) fun _ => ?_
    split
    · exact respects_pure _
    · exact bind (respects_check _ _) fun _ => respects_pure _
  · exact respects_pure _

theorem grows_forkTask (source : Option TaskRecord) (title : String) (c : Option String) :
    Eff.Respects (Grows σ fresh) (forkTask σ io fresh source title c) := by
  unfold forkTask
  split
  · exact respects_fail _
  · refine bind respects_read fun s => ?_
    split
    · intro s₀
      change Eff.Post s₀ _ fun _ s' => Grows σ fresh s₀ s'
      have hcr := grows_createTaskIn σ io fresh title s₀
      have hid := post_iff.mp (createTaskIn_id σ io fresh title s₀)
      refine post_bind (fun e s₁ h₁ => by rw [h₁] at hcr; exact hcr) fun task s₁ h₁ => ?_
      rw [h₁] at hcr
      have hid : task.1.id = fresh.uuid := hid _ _ h₁ task rfl
      have hbind : ∀ m : TaskManifest, Eff.Respects (Grows σ fresh) (do
          let conversationBinding ← bindConversation σ io fresh.now c task.1.id
          return { task := task.1, manifest := m, reusedExisting := false, conversationBinding } :
            SessionOp ResolveTaskResponse) :=
        fun m => bind grows_bindConversation fun b => respects_pure _
      refine IsTrans.trans _ _ _ hcr ?_
      dsimp only
      split
      · exact bind (respects_pure _) hbind s₁
      · rw [hid] at hbind ⊢
        exact bind (grows_onTask (sameTask_fillFork _)) hbind s₁
    · exact respects_fail _

theorem grows_chooseTask (listing : List String) (request : ResolveTaskRequest) :
    Eff.Respects (Grows σ fresh) (chooseTask σ io fresh listing request) := by
  have hcr : Eff.Respects (Grows σ fresh) (createTaskIn σ io fresh request.title >>= fun created =>
      (pure (created.1, false) : SessionOp (TaskRecord × Bool))) :=
    bind (grows_createTaskIn _ _ _ _) fun _ => respects_pure _
  refine bind (grows_boundTask request) fun bound => ?_
  split
  · exact respects_pure _
  · split
    · exact hcr
    · refine bind (respects_check _ _) fun _ => ?_
      refine bind respects_read fun s => ?_
      split
      · exact respects_pure _
      · exact hcr

theorem grows_resolveOrCreateTask (listing : List String) (request : ResolveTaskRequest) :
    Eff.Respects (Grows σ fresh) (resolveOrCreateTask σ io fresh listing request) := by
  unfold resolveOrCreateTask
  split
  · exact bind respects_read fun s => grows_forkTask _ _ _
  · refine bind (grows_chooseTask listing request) fun task => ?_
    refine bind respects_read fun s => ?_
    split
    · exact respects_fail _
    · exact bind grows_bindConversation fun b => respects_pure _

def Named (σ : Setting) (s : Session) : Prop := ∀ t, NamedAt σ s t

theorem Grows.named_all (h : Grows σ fresh s s') (hnamed : Named σ s) : Named σ s' := by
  intro t
  by_cases ht : t = fresh.uuid
  · subst ht
    exact h.named (hnamed _)
  · exact (hnamed t).of_lookup_eq (h.others t ht)

theorem Named.putDisk (h : Named σ s) (hfs : s.tasks.lookup t = some files)
    (hsame : SameTask (s.disk files) d) : Named σ (s.putDisk t d) := by
  intro u
  by_cases hu : u = t
  · subst hu
    exact (h u).putDisk hfs hsame
  · exact (h u).of_lookup_eq (Finmap.lookup_insert_of_ne _ hu)

theorem Named.task (h : Named σ s) (taskId : String) (a : Action) : Named σ ((task taskId a).perform σ s) := by
  simp only [perform]
  rcases hfs : s.tasks.lookup taskId with _ | files
  · exact h
  · exact h.putDisk hfs (sameTask_perform σ _ a)

theorem archiveTaskIn_state (σ : Setting) (io : IoPlan) (now : Nat) (taskId : String) (s : Session) :
    (archiveTaskIn io now taskId s).2 = (task taskId (.archive io now taskId)).perform σ s := by
  unfold archiveTaskIn
  rw [read_bind_apply, perform]
  rcases hfs : s.tasks.lookup taskId with _ | files
  · rfl
  · have honTask : (onTask taskId (archiveTask io now taskId) s).2 =
        s.putDisk taskId (archiveTask io now taskId (s.disk files)).2 := by
      unfold onTask
      rw [hfs]
    exact honTask

theorem Named.step {a : ProjectAction} (h : Named σ s) (hstep : ProjectStep σ s a s') : Named σ s' := by
  subst hstep
  cases a with
  | session a =>
      cases a with
      | resolve io fresh listing request => exact (grows_resolveOrCreateTask listing request s).named_all h
      | archive io now taskId =>
          rw [perform, SessionAction.perform, archiveTaskIn_state σ]
          exact h.task taskId _
  | task taskId a => exact h.task taskId a

end CodexStudy.NewCore
