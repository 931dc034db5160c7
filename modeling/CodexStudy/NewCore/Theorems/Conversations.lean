import CodexStudy.NewCore.Sessions
import CodexStudy.NewCore.Lemmas.Status

/-!
# Conversations do not share tasks

A binding is written for a task that was just created, or for the task that the same conversation is bound to already.
-/

namespace CodexStudy.NewCore

open CodexStudy.Lib Eff Session Option Function

variable {σ : Setting} {io : IoPlan} {fresh : Fresh} {s s' : Session}

/-- The conversation `c` is bound to the task `t`. -/
def BoundTo (s : Session) (c t : String) : Prop := ∃ b, s.conversations c = some b ∧ b.activeTaskId = some t

structure Isolated (σ : Setting) (s : Session) : Prop where
  ids : ∀ t r, s.record t = some r → r.id = t ∧ r.projectId = σ.project.id
  bound : ∀ c t, BoundTo s c t → ∃ files, s.tasks.lookup t = some files ∧
    ∀ r, files.record = some r → r.status.isTerminal = false → files.manifest.isSome = true
  inj : ∀ c c' t, BoundTo s c t → BoundTo s c' t → c = c'

theorem isolated_registered (σ : Setting) (original : Tree) (locks : List Text) :
    Isolated σ (.registered original locks) where
  ids t r h := by simp [record, registered] at h
  bound c t h := by obtain ⟨b, hb, -⟩ := h; cases hb
  inj c c' t h _ := by obtain ⟨b, hb, -⟩ := h; cases hb

theorem Isolated.of_insert {t : String} {files : TaskFiles} (h : Isolated σ s)
    (htasks : s'.tasks = s.tasks.insert t files) (hconv : s'.conversations = s.conversations)
    (hfs : ∀ r, files.record = some r → r.id = t ∧ r.projectId = σ.project.id)
    (hbound : ∀ c, BoundTo s c t → ∀ r, files.record = some r → r.status.isTerminal = false →
      files.manifest.isSome = true) : Isolated σ s' := by
  have hbt : ∀ c u, BoundTo s' c u ↔ BoundTo s c u := by intro c u; rw [BoundTo, hconv]; rfl
  refine ⟨fun u r hr => ?_, fun c u hu => ?_, fun c c' u hu hu' => ?_⟩
  · rw [record, htasks] at hr
    by_cases hut : u = t
    · subst hut
      rw [Finmap.lookup_insert] at hr
      exact hfs r hr
    · rw [Finmap.lookup_insert_of_ne _ hut] at hr
      exact h.ids u r hr
  · rw [htasks]
    by_cases hut : u = t
    · subst hut
      exact ⟨files, Finmap.lookup_insert _, hbound c ((hbt c u).mp hu)⟩
    · rw [Finmap.lookup_insert_of_ne _ hut]
      exact h.bound c u ((hbt c u).mp hu)
  · exact h.inj c c' u ((hbt c u).mp hu) ((hbt c' u).mp hu')

variable (h : Isolated σ s)

include h in
theorem Isolated.not_bound {t : String} (ht : t ∉ s.tasks) (c : String) : ¬ BoundTo s c t := by
  intro hc
  obtain ⟨files, hfs, -⟩ := h.bound c t hc
  exact ht (Finmap.mem_of_lookup_eq_some hfs)

/-! ## Creating a task -/

variable (io) in
theorem createTaskIn_spec (h : Isolated σ s) (hfresh : fresh.uuid ∉ s.tasks) (title : String) :
    Eff.Post s (createTaskIn σ io fresh title) fun r s' => Isolated σ s' ∧ s'.conversations = s.conversations ∧
        ∀ t, r = .ok t → t.1.id = fresh.uuid ∧ s'.tasks.lookup fresh.uuid =
          some ⟨some (newTask σ.env σ.git σ.project fresh.uuid title fresh.taskRoot fresh.now s.original).workspace,
            some t.2, some t.1, .empty, .empty⟩ := by
  generalize htask : newTask σ.env σ.git σ.project fresh.uuid title fresh.taskRoot fresh.now s.original = task
  have hrec : task.record.id = fresh.uuid ∧ task.record.projectId = σ.project.id := by
    rw [← htask]; exact ⟨rfl, rfl⟩
  have hput : ∀ files, (∀ r, files.record = some r → r = task.record) →
      Isolated σ (s.put fresh.uuid files) ∧ (s.put fresh.uuid files).conversations = s.conversations := by
    intro files hfiles
    refine ⟨h.of_insert rfl rfl (fun r hr => ?_) fun c hc => absurd hc (h.not_bound hfresh c), rfl⟩
    rw [hfiles r hr]
    exact hrec
  have hagain : ∀ files files', (s.put fresh.uuid files).put fresh.uuid files' = s.put fresh.uuid files' := by
    intro files files'
    simp only [put, Finmap.insert_insert]
  unfold createTaskIn
  refine post_read ?_
  simp only [htask]
  refine post_check (fun _ => ⟨h, rfl, fun t ht => by cases ht⟩) fun _ => ?_
  refine post_modify ?_
  have h₁ := hput ⟨some task.workspace, none, none, .empty, .empty⟩ (fun r hr => by cases hr)
  refine post_check (fun _ => ⟨h₁.1, h₁.2, fun t ht => by cases ht⟩) fun _ => ?_
  refine post_modify ?_
  rw [hagain]
  have h₂ := hput ⟨some task.workspace, some task.manifest, none, .empty, .empty⟩ (fun r hr => by cases hr)
  refine post_check (fun _ => ⟨h₂.1, h₂.2, fun t ht => by cases ht⟩) fun _ => ?_
  refine post_modify ?_
  rw [hagain]
  have h₃ := hput ⟨some task.workspace, some task.manifest, some task.record, .empty, .empty⟩
    (fun r hr => by cases hr; rfl)
  refine post_check (fun _ => ⟨h₃.1, h₃.2, fun t ht => by cases ht⟩) fun _ => ?_
  refine ⟨h₃.1, h₃.2, fun t ht => ?_⟩
  cases ht
  exact ⟨hrec.1, Finmap.lookup_insert _⟩

/-! ## Binding a conversation -/

structure Bindable (s : Session) (c t : String) : Prop where
  files : ∃ files, s.tasks.lookup t = some files ∧
    ∀ r, files.record = some r → r.status.isTerminal = false → files.manifest.isSome = true
  only : ∀ c', BoundTo s c' t → c' = c

include h in
theorem Isolated.bind {c t : String} {b : ConversationBinding} (hb : b.activeTaskId = some t)
    (hbind : Bindable s c t) : Isolated σ { s with conversations := update s.conversations c (some b) } := by
  have hcases : ∀ c' u, BoundTo { s with conversations := update s.conversations c (some b) } c' u →
      (c' = c ∧ u = t) ∨ (c' ≠ c ∧ BoundTo s c' u) := by
    rintro c' u ⟨b', hb', hu⟩
    by_cases hc' : c' = c
    · subst hc'
      simp only [update_self, some.injEq] at hb'
      subst hb'
      exact .inl ⟨rfl, some.inj (hu.symm.trans hb)⟩
    · simp only [update_of_ne hc'] at hb'
      exact .inr ⟨hc', b', hb', hu⟩
  refine ⟨h.ids, fun c' u hu => ?_, fun c₁ c₂ u hu₁ hu₂ => ?_⟩
  · rcases hcases c' u hu with ⟨rfl, rfl⟩ | ⟨-, hold⟩
    · exact hbind.files
    · exact h.bound c' u hold
  · rcases hcases c₁ u hu₁ with ⟨rfl, rfl⟩ | ⟨-, hold₁⟩
    · rcases hcases c₂ u hu₂ with ⟨rfl, -⟩ | ⟨-, hold₂⟩
      · rfl
      · exact (hbind.only c₂ hold₂).symm
    · rcases hcases c₂ u hu₂ with ⟨rfl, rfl⟩ | ⟨-, hold₂⟩
      · exact hbind.only c₁ hold₁
      · exact h.inj c₁ c₂ u hold₁ hold₂

variable (io) in
theorem bindConversation_spec (now : Nat) (h : Isolated σ s) {conversationId : Option String} {t : String}
    (hbind : ∀ c, conversationId = some c → Bindable s c t) :
    Eff.Post s (bindConversation σ io now conversationId t) fun _ s' => Isolated σ s' := by
  unfold bindConversation
  cases conversationId with
  | none => exact h
  | some c =>
      have hwrite : Eff.Post s (writeConversationBinding σ io now c (some t)) fun _ s' => Isolated σ s' := by
        unfold writeConversationBinding
        refine post_read ?_
        refine post_check (fun _ => h) fun _ => ?_
        exact post_modify (h.bind rfl (hbind c rfl))
      have hwrite := post_iff.mp hwrite
      exact post_bind (fun e s' hs' => hwrite _ _ hs') fun b s' hs' => hwrite _ _ hs'

/-! ## Resolving a request -/

variable (hfr : fresh.uuid ∉ s.tasks)

include h hfr in
theorem bindable_new {files : TaskFiles}
    (hconv : s'.conversations = s.conversations) (hlk : s'.tasks.lookup fresh.uuid = some files)
    (hm : files.manifest.isSome = true) (c : String) : Bindable s' c fresh.uuid where
  files := ⟨files, hlk, fun _ _ _ => hm⟩
  only c' hc' := by
    refine absurd ?_ (h.not_bound hfr c')
    obtain ⟨b, hb, hu⟩ := hc'
    exact ⟨b, by rw [← hconv]; exact hb, hu⟩

variable (io) in
theorem boundTask_spec (s : Session) (request : ResolveTaskRequest) :
    Eff.Post s (boundTask io request) fun r s' => s' = s ∧ ∀ r', r = .ok (some r') →
      ∃ c t, request.conversationId = some c ∧ BoundTo s c t ∧ s.record t = some r' := by
  unfold boundTask
  split
  · rename_i c hc _
    refine post_read ?_
    refine post_check (fun _ => ⟨rfl, fun r' hr' => by cases hr'⟩) fun _ => ?_
    split
    · exact ⟨rfl, fun r' hr' => by cases hr'⟩
    · rename_i t ht
      refine post_check (fun _ => ⟨rfl, fun r' hr' => by cases hr'⟩) fun _ => ?_
      refine ⟨rfl, fun r' hr' => ⟨c, t, hc, ?_, Except.ok.inj hr'⟩⟩
      exact bind_eq_some_iff.mp ht
  · exact ⟨rfl, fun r' hr' => by cases hr'⟩

variable (io) in
theorem chooseTask_spec (h : Isolated σ s) (hfresh : fresh.uuid ∉ s.tasks) (listing : List String)
    (request : ResolveTaskRequest) : Eff.Post s (chooseTask σ io fresh listing request) fun r s' =>
      Isolated σ s' ∧ ∀ t, r = .ok t → ∀ c, request.conversationId = some c → Bindable s' c t.1.id := by
  have hcreate : Eff.Post s (createTaskIn σ io fresh request.title >>= fun created =>
      (pure (created.1, false) : SessionOp (TaskRecord × Bool))) fun r s' =>
        Isolated σ s' ∧ ∀ t, r = .ok t → ∀ c, request.conversationId = some c → Bindable s' c t.1.id := by
    have hspec := post_iff.mp (createTaskIn_spec io h hfresh request.title)
    refine post_bind (fun e s' hs' => ⟨(hspec _ _ hs').1, fun t ht => by cases ht⟩) fun task s' hs' => ?_
    obtain ⟨hiso, hconv, hret⟩ := hspec _ _ hs'
    obtain ⟨hid, hlookup⟩ := hret task rfl
    refine ⟨hiso, fun t ht c _ => ?_⟩
    cases ht
    rw [hid]
    exact bindable_new h hfresh hconv hlookup rfl c
  unfold chooseTask
  have hbound := post_iff.mp (boundTask_spec io s request)
  refine post_bind (fun e s' hs' => ?_) fun bound s' hs' => ?_
  · rw [(hbound _ _ hs').1]; exact ⟨h, fun t ht => by cases ht⟩
  obtain ⟨rfl, hret⟩ := hbound _ _ hs'
  split
  · rename_i task htask
    obtain ⟨hsome, -⟩ := filter_eq_some_iff.mp htask
    refine ⟨h, fun t ht c hc => ?_⟩
    cases ht
    obtain ⟨c', t, hc', hbt, hrec⟩ := hret task (by rw [hsome])
    cases hc.symm.trans hc'
    rw [(h.ids t task hrec).1]
    exact ⟨h.bound c t hbt, fun c' hc' => h.inj c' c t hc' hbt⟩
  · split
    · exact hcreate
    · rename_i hanon
      have hnone : request.conversationId = none := by
        rw [Bool.or_eq_true, not_or] at hanon
        simpa using hanon.1
      refine post_check (fun _ => ⟨h, fun t ht => by cases ht⟩) fun _ => ?_
      refine post_read ?_
      split
      · exact ⟨h, fun t _ c hc => by rw [hnone] at hc; cases hc⟩
      · exact hcreate

theorem onTask_spec {α : Type} (h : Isolated σ s) {t : String} {op : Op α} (hnot : ∀ c, ¬ BoundTo s c t)
    (hop : ∀ files r, s.tasks.lookup t = some files → (op (s.disk files)).2.record = some r →
      r.id = t ∧ r.projectId = σ.project.id) :
    Eff.Post s (onTask t op) fun r s' => Isolated σ s' ∧ s'.conversations = s.conversations ∧
      ∀ a, r = .ok a → ∃ files, s.tasks.lookup t = some files ∧ op (s.disk files) = (.ok a, (op (s.disk files)).2) ∧
        s' = s.putDisk t (op (s.disk files)).2 := by
  unfold Eff.Post onTask
  split
  · exact ⟨h, rfl, fun a ha => by cases ha⟩
  · rename_i files hfs
    refine ⟨h.of_insert rfl rfl (fun r hr => hop files r hfs hr) fun c hc => absurd hc (hnot c), rfl, ?_⟩
    intro a ha
    exact ⟨files, hfs, Prod.ext ha rfl, rfl⟩

variable (io) in
theorem fillFork_spec (now : Nat) (source : Workspace) (d : Disk) : Eff.Post d (fillFork σ io now source) fun r d' =>
      (d'.record = d.record ∨ ∃ status, d'.record = d.record.map fun r => r.withStatus now status) ∧
        ∀ m, r = .ok m → d'.manifest = some m := by
  unfold fillFork
  refine post_read ?_
  split
  · exact ⟨.inl rfl, fun m hm => by cases hm⟩
  · rename_i ws _
    refine post_attempt (fun _ => ⟨.inl rfl, fun m hm => by cases hm⟩) fun _ => ?_
    refine post_modify ?_
    obtain ⟨-, -, hrec, hret⟩ := post_iff.mp
      (refreshChanges_spec σ.host io now { d with workspace := some ws }) _ _ rfl
    exact ⟨hrec, fun m hm => (hret m hm).2.1⟩

include h hfr in
theorem forkTask_spec (source : Option TaskRecord)
    (title : String) (conversationId : Option String) :
    Eff.Post s (forkTask σ io fresh source title conversationId) fun _ s' => Isolated σ s' := by
  unfold forkTask
  split
  · exact h
  · refine post_read ?_
    split
    · have hcr := post_iff.mp (createTaskIn_spec io h hfr title)
      refine post_bind (fun e s₁ hs₁ => (hcr _ _ hs₁).1) fun task s₁ hs₁ => ?_
      obtain ⟨hiso, hconv, hret⟩ := hcr _ _ hs₁
      obtain ⟨hid, hlk⟩ := hret task rfl
      have hnot : ∀ c, ¬ BoundTo s₁ c fresh.uuid := by
        rintro c ⟨b, hb, hu⟩
        exact h.not_bound hfr c ⟨b, by rw [← hconv]; exact hb, hu⟩
      simp only
      split
      · -- The workspace of the source is missing, and the fork is a plain new task.
        refine post_bind (fun e s₂ hs₂ => by cases hs₂) fun m' s₂ hs₂ => ?_
        cases hs₂
        have hbind : ∀ c, conversationId = some c → Bindable s₁ c task.1.id := fun c _ => by
          rw [hid]; exact bindable_new h hfr hconv hlk rfl c
        have hspec := post_iff.mp (bindConversation_spec io fresh.now hiso hbind)
        exact post_bind (fun e s₃ hs₃ => hspec _ _ hs₃) fun b s₃ hs₃ => hspec _ _ hs₃
      · rename_i ws _
        rw [hid]
        have hop : ∀ files r, s₁.tasks.lookup fresh.uuid = some files →
            (fillFork σ io fresh.now ws (s₁.disk files)).2.record = some r →
            r.id = fresh.uuid ∧ r.projectId = σ.project.id := by
          intro files r hfs hr
          have hold : ∀ r, (s₁.disk files).record = some r → r.id = fresh.uuid ∧ r.projectId = σ.project.id := by
            intro r hr
            exact hiso.ids fresh.uuid r (by rw [record, hfs]; exact hr)
          have hspec := post_iff.mp (fillFork_spec io fresh.now ws (s₁.disk files))
            (fillFork σ io fresh.now ws (s₁.disk files)).1 (fillFork σ io fresh.now ws (s₁.disk files)).2 rfl
          rcases hspec.1 with heq | ⟨status, heq⟩
          · exact hold r (heq ▸ hr)
          · rw [heq, map_eq_some_iff] at hr
            obtain ⟨r₀, hr₀, rfl⟩ := hr
            exact hold r₀ hr₀
        have hfill := post_iff.mp (onTask_spec hiso hnot hop)
        refine post_bind (fun e s₂ hs₂ => (hfill _ _ hs₂).1) fun m' s₂ hs₂ => ?_
        obtain ⟨hiso₂, hconv₂, hret₂⟩ := hfill _ _ hs₂
        obtain ⟨files, -, hrun, rfl⟩ := hret₂ m' rfl
        have hm := (post_iff.mp (fillFork_spec io fresh.now ws (s₁.disk files)) _ _ hrun).2 m' rfl
        have hbind : ∀ c, conversationId = some c →
            Bindable (s₁.putDisk fresh.uuid (fillFork σ io fresh.now ws (s₁.disk files)).2) c fresh.uuid :=
          fun c _ => bindable_new h hfr (hconv₂.trans hconv) (Finmap.lookup_insert _)
            (isSome_iff_exists.mpr ⟨m', hm⟩) c
        have hspec := post_iff.mp (bindConversation_spec io fresh.now hiso₂ hbind)
        exact post_bind (fun e s₃ hs₃ => hspec _ _ hs₃) fun b s₃ hs₃ => hspec _ _ hs₃
    · exact h

include h hfr in
theorem resolveOrCreateTask_spec (listing : List String)
    (request : ResolveTaskRequest) :
    Eff.Post s (resolveOrCreateTask σ io fresh listing request) fun _ s' => Isolated σ s' := by
  unfold resolveOrCreateTask
  split
  · exact post_read (forkTask_spec h hfr _ _ _)
  · have hchoose := post_iff.mp (chooseTask_spec io h hfr listing request)
    refine post_bind (fun e s₁ hs₁ => (hchoose _ _ hs₁).1) fun task s₁ hs₁ => ?_
    obtain ⟨hiso, hret⟩ := hchoose _ _ hs₁
    refine post_read ?_
    split
    · exact hiso
    · have hspec := post_iff.mp (bindConversation_spec io fresh.now hiso (hret task rfl))
      exact post_bind (fun e s₂ hs₂ => hspec _ _ hs₂) fun b s₂ hs₂ => hspec _ _ hs₂

/-! ## Archiving a task -/

include h in
theorem archiveTaskIn_spec {now : Nat} {taskId : String} :
    Eff.Post s (archiveTaskIn io now taskId) fun _ s' => Isolated σ s' := by
  unfold archiveTaskIn
  refine post_read ?_
  split
  · exact h
  · rename_i files hfs
    have hspec := post_iff.mp (archiveTask_spec io now taskId (s.disk files))
      (archiveTask io now taskId (s.disk files)).1 (archiveTask io now taskId (s.disk files)).2 rfl
    have hids : ∀ r, files.record = some r → r.id = taskId ∧ r.projectId = σ.project.id :=
      fun r hr => h.ids taskId r (by rw [record, hfs]; exact hr)
    unfold Eff.Post onTask
    rw [hfs]
    change Isolated σ (s.putDisk taskId (archiveTask io now taskId (s.disk files)).2)
    generalize (archiveTask io now taskId (s.disk files)).2 = d' at hspec ⊢
    refine h.of_insert rfl rfl (fun r hr => ?_) fun c hc r hr hnot => ?_
    · rcases hspec with heq | ⟨hsame, -⟩
      · rw [heq] at hr; exact hids r hr
      · obtain ⟨r₀, hr₀, hid, hproj⟩ := hsame.exists_before hr
        rw [hid, hproj]
        exact hids r₀ hr₀
    · rcases hspec with heq | ⟨-, hterm⟩
      · rw [heq] at hr ⊢
        obtain ⟨files', hfs', hman⟩ := h.bound c taskId hc
        cases hfs.symm.trans hfs'
        exact hman r hr hnot
      · exact absurd hterm (Open.not_terminal ⟨r, hr, hnot⟩)

/-! ## Runs -/

theorem Isolated.step {a : SessionAction} (h : Isolated σ s) (hfr : FreshIds s a) (hstep : SessionStep σ s a s') :
    Isolated σ s' := by
  subst hstep
  cases a with
  | resolve io fresh listing request => exact resolveOrCreateTask_spec h hfr listing request
  | archive io now taskId => exact archiveTaskIn_spec h

section

variable {b : ConversationBinding} {c t title : String} {r : TaskRecord}

theorem io_ne_healthy {pt : IoPoint} (h : (io pt).isNone = false) : io ≠ .healthy := by
  rintro rfl
  cases h

variable (io fresh title) in
theorem chooseTask_bound (hb : s.conversations c = some b) (ht : b.activeTaskId = some t)
    (hr : s.record t = some r) (hnot : r.status.isTerminal = false) (listing : List String) :
    Eff.Post s (chooseTask σ io fresh listing ⟨title, some c, .reuseActive⟩) fun res s' =>
      s' = s ∧ (res = .ok (r, true) ∨ io ≠ .healthy ∧ ∃ e, res = .error e) := by
  have hbound : Eff.Post s (boundTask io ⟨title, some c, .reuseActive⟩) fun res s' =>
      s' = s ∧ (res = .ok (some r) ∨ io ≠ .healthy ∧ ∃ e, res = .error e) := by
    unfold boundTask
    refine post_read ?_
    refine post_check (fun hio => ⟨rfl, .inr ⟨io_ne_healthy hio, _, rfl⟩⟩) fun _ => ?_
    simp only [hb, Option.bind_some, ht]
    refine post_check (fun hio => ⟨rfl, .inr ⟨io_ne_healthy hio, _, rfl⟩⟩) fun _ => ?_
    rw [hr]
    exact ⟨rfl, .inl rfl⟩
  have hbound := post_iff.mp hbound
  unfold chooseTask
  refine post_bind (fun e s' hs' => ?_) fun found s' hs' => ?_
  · obtain ⟨rfl, herr | ⟨hio, -⟩⟩ := hbound _ _ hs'
    · cases herr
    · exact ⟨rfl, .inr ⟨hio, e, rfl⟩⟩
  · obtain ⟨rfl, hok | ⟨-, e, herr⟩⟩ := hbound _ _ hs'
    · cases hok
      simp only [Option.filter, hnot, Bool.not_false, if_true]
      exact ⟨rfl, .inl rfl⟩
    · cases herr

theorem Isolated.reuses (h : Isolated σ s) (hbt : BoundTo s c t) (hr : s.record t = some r)
    (hnot : r.status.isTerminal = false) (io : IoPlan) (fresh : Fresh) (listing : List String) :
    Eff.Post s (resolveOrCreateTask σ io fresh listing ⟨title, some c, .reuseActive⟩) fun res _ =>
      (∃ response, res = .ok response ∧ response.task = r ∧ response.reusedExisting = true) ∨
        io ≠ .healthy ∧ ∃ e, res = .error e := by
  obtain ⟨b, hb, ht⟩ := hbt
  obtain ⟨files, hfs, hman⟩ := h.bound c t ⟨b, hb, ht⟩
  obtain ⟨hid, hproj⟩ := h.ids t r hr
  have hrec : files.record = some r := by rw [record, hfs] at hr; exact hr
  obtain ⟨m, hm⟩ := isSome_iff_exists.mp (hman r hrec hnot)
  have hmanifest : s.manifest σ.project r = some m := by
    rw [manifest, if_pos hproj, hid, hfs]
    exact hm
  have hchoose := post_iff.mp (chooseTask_bound (σ := σ) io fresh title
    hb ht hr hnot listing)
  unfold resolveOrCreateTask
  refine post_bind (fun e s' hs' => ?_) fun task s' hs' => ?_
  · obtain ⟨-, herr | hio⟩ := hchoose _ _ hs'
    · cases herr
    · exact .inr ⟨hio.1, e, rfl⟩
  · obtain ⟨rfl, hok | ⟨-, e, herr⟩⟩ := hchoose _ _ hs'
    · cases hok
      refine post_read ?_
      simp only [hmanifest]
      refine post_bind (fun e s'' hs'' => .inr ⟨?_, e, rfl⟩) fun binding s'' _ => .inl ⟨_, rfl, rfl, rfl⟩
      -- Binding the conversation fails only where the binding cannot be written.
      rintro rfl
      cases hs''
    · cases herr

end

/-- In every run whose new tasks have new ids, no two conversations are bound to the same task, and a request for the
active task of a conversation returns it while it is not terminal, unless a call of the operating system fails. -/
theorem conversations_are_isolated (σ : Setting) (original : Tree) (locks : List Text) (as : List SessionAction)
    (s : Session) (hrun : Run (Guarded FreshIds (SessionStep σ)) (.registered original locks) as s) :
    (∀ c c' t, BoundTo s c t → BoundTo s c' t → c = c') ∧
      ∀ c t title r io fresh listing, BoundTo s c t → s.record t = some r → r.status.isTerminal = false →
        (∃ response, (resolveOrCreateTask σ io fresh listing ⟨title, some c, .reuseActive⟩ s).1 = .ok response ∧
          response.task = r ∧ response.reusedExisting = true) ∨ io ≠ .healthy ∧
          ∃ e, (resolveOrCreateTask σ io fresh listing ⟨title, some c, .reuseActive⟩ s).1 = .error e := by
  have h : Isolated σ s :=
    hrun.invariant (isolated_registered σ original locks) fun _ _ _ hs hstep => hs.step hstep.1 hstep.2
  exact ⟨h.inj, fun c t title r io fresh listing hbt hr hnot => h.reuses hbt hr hnot io fresh listing⟩

/-! ## Two conversations of a small project -/

def sampleRequest (uuid conversationId : String) : SessionAction :=
  .resolve .healthy ⟨uuid, ["state", "workspaces", "p", uuid], 0⟩ [] ⟨"task", some conversationId, .reuseActive⟩

def sampleRequests : List SessionAction := [sampleRequest "1" "left", sampleRequest "2" "right"]

def sampleSession : Session :=
  sampleRequests.foldl (fun s a => a.perform sampleSetting s) (.registered (sampleTree [(["a.txt"], "base")]) [])

theorem sample_conversations_apart :
    (sampleSession.conversations "left").bind ConversationBinding.activeTaskId = some "1" ∧
      (sampleSession.conversations "right").bind ConversationBinding.activeTaskId = some "2" ∧
      ∀ t, BoundTo sampleSession "left" t → ¬ BoundTo sampleSession "right" t := by
  refine ⟨by decide +kernel, by decide +kernel, fun t hl hr => ?_⟩
  have hnew : "2" ∉ ((sampleRequest "1" "left").perform sampleSetting
      (.registered (sampleTree [(["a.txt"], "base")]) [])).tasks := by decide +kernel
  have h := conversations_are_isolated sampleSetting (sampleTree [(["a.txt"], "base")]) [] sampleRequests sampleSession
    (.cons ⟨Finmap.notMem_empty, rfl⟩ (.cons ⟨hnew, rfl⟩ (.nil _)))
  exact absurd (h.1 "left" "right" t hl hr) (by decide)

end CodexStudy.NewCore
