import CodexStudy.NewCore.Lemmas.Links

/-!
# Edits of the user and merges

The hash that a merge compares with is taken from the original root when a refresh first lists the path.
-/

namespace CodexStudy.NewCore

open CodexStudy.Lib Option FileTree

section

variable {τ : Type} [Root τ] (host : Host) (base : Tree) (d : DiskOf τ)

/-- A merge only changes files that still have the content of `base`. -/
def KeepsUserEdits (io : IoPlan) (now : Nat) (selection : MergeSelection) : Prop :=
  ∀ r d', merge host io now selection d = (r, d') →
    ∀ p, (Root.walk d'.original).file? p ≠ (Root.walk d.original).file? p →
      (Root.walk d.original).file? p = base.file? p

/-- A merge that chooses a file which no longer has the content of `base` fails and changes nothing; it
reports a conflict at such a file unless the lock of the task is held, a chosen file cannot be read or a
call of the operating system fails. -/
def ReportsUserEdits (io : IoPlan) (now : Nat) (selection : MergeSelection) : Prop :=
  ∀ r d' m cs, merge host io now selection d = (r, d') → d.manifest = some m →
    cs = chosen (refreshedManifest host now (Root.walk d.original) d.workspaceTree m) selection →
    (∃ c ∈ cs, (Root.walk d.original).file? c.path ≠ base.file? c.path) →
    Root.walk d'.original = Root.walk d.original ∧ failed r = true ∧
      ((∀ pt, io pt = none) → mergeLockName m.taskId ∉ d.locks → (∀ c ∈ cs, Readable (Root.walk d.original) c) →
        ∃ p expected found, r = .error (.mergeConflict p expected found) ∧
          (Root.walk d.original).file? p ≠ base.file? p)

end

/-- What a refresh reads for a path that it lists for the first time is the content of `base`. -/
def FirstSeenAtBase (base : Tree) (d : Disk) : Prop :=
  ∀ m, d.manifest = some m → ∀ p, (∀ c ∈ m.changedFiles, c.path ≠ p) →
    indexed m.originalRoot d.original p ≠ indexed m.workspaceRoot d.workspaceTree.tree p →
    indexed m.originalRoot d.original p = base.file? p

theorem firstSeenAtBase_iff {base : Tree} {d : Disk} :
    FirstSeenAtBase base d ↔ ∀ m ∈ d.manifest, ∀ p ∈ d.original.filePaths ∪ d.workspaceTree.tree.filePaths,
      (∀ c ∈ m.changedFiles, c.path ≠ p) →
      indexed m.originalRoot d.original p ≠ indexed m.workspaceRoot d.workspaceTree.tree p →
      indexed m.originalRoot d.original p = base.file? p := by
  constructor
  · intro h m hm p _ hnew hne
    exact h m hm p hnew hne
  · intro h m hm p hnew hne
    refine h m hm p ?_ hnew hne
    rw [Finset.mem_union, mem_filePaths, mem_filePaths]
    -- Where neither root has a file, both are seen as empty.
    by_contra hno
    simp only [not_or, not_isSome_iff_eq_none] at hno
    simp [indexed, hno.1, hno.2] at hne

instance (base : Tree) (d : Disk) : Decidable (FirstSeenAtBase base d) :=
  decidable_of_iff _ firstSeenAtBase_iff.symm

/-- The actions between the creation of a task and a merge. -/
def BeforeMerge {τ : Type} [Root τ] (base : Tree) (d : DiskOf τ) : ActionOn τ → Prop
  | .editOriginal _ | .editWorkspace _ => True
  | .refresh _ _ => FirstSeenAtBase base d.walked
  | _ => False

structure BaseRecorded (host : Host) (base : Tree) (d : Disk) : Prop where
  hashes : ∀ m, d.manifest = some m → ∀ c ∈ m.changedFiles, c.beforeHash = hashText host.sha256 (base.file? c.path)
  workspace : d.workspace.isSome = true

variable {host : Host} {m : TaskManifest} {now : Nat} {c : ChangedFile}

section

variable {σ : Setting} {base : Tree} {d d' : Disk}

variable (h : BaseRecorded host base d) (hfst : FirstSeenAtBase base d)

include h hfst in
theorem BaseRecorded.refreshed (hm : d.manifest = some m)
    (hc : c ∈ (refreshedManifest host now d.original d.workspaceTree m).changedFiles) :
    c.beforeHash = hashText host.sha256 (base.file? c.path) := by
  obtain ⟨hne, hb, ha, -⟩ := refreshed_entry hc
  rcases recordedHash_cases host d.original m c.path with ⟨c₀, hc₀, hpath, hrec⟩ | ⟨hnew, hrec⟩
  · rw [hb, hrec, h.hashes m hm c₀ hc₀, hpath]
  · rw [hb, hrec, hfst m hm c.path hnew]
    intro heq
    rw [hb, ha, hrec, heq] at hne
    exact hne rfl

theorem BaseRecorded.step {a : Action} (h : BaseRecorded σ.host base d) (hgd : BeforeMerge base d a)
    (hstep : TaskStep σ d a d') : BaseRecorded σ.host base d' := by
  subst hstep
  cases a with
  | editOriginal tree => exact ⟨h.hashes, h.workspace⟩
  | editWorkspace ws => exact ⟨h.hashes, rfl⟩
  | refresh io now =>
      obtain ⟨hfs, hman, -, -⟩ :=
        Eff.post_iff.mp (refreshChanges_spec σ.host io now d) _ (refreshChanges σ.host io now d).2 rfl
      refine ⟨fun m' hm' => ?_, (congrArg isSome hfs.workspace).trans h.workspace⟩
      change (refreshChanges σ.host io now d).2.manifest = some m' at hm'
      rcases hman with heq | heq | ⟨m, hm, -, heq⟩
      · rw [heq] at hm'; exact h.hashes m' hm'
      · rw [heq] at hm'; cases hm'
      · rw [heq, some.injEq] at hm'
        subst hm'
        exact fun c hc => h.refreshed hgd hm hc
  | merge io now selection | rollback io now selection | runTest io now command | review io now
  | summarize io now | resume io now | archive io now taskId => exact hgd.elim

theorem BaseRecorded.run {τ : Type} [Root τ] {d d' : DiskOf τ} {as : List (ActionOn τ)}
    (h : BaseRecorded σ.host base d.walked) (hrun : Run (Guarded (BeforeMerge base) (TaskStep σ)) d as d') :
    BaseRecorded σ.host base d'.walked := by
  refine hrun.invariant (I := fun d => BaseRecorded σ.host base d.walked) h fun d a d' hs ⟨hgd, hstep⟩ => ?_
  subst hstep
  cases a with
  | editOriginal root => exact hs.step (a := .editOriginal (Root.walk root)) trivial rfl
  | editWorkspace ws => exact hs.step (a := .editWorkspace ws) trivial rfl
  | refresh io now => exact hs.step (a := .refresh io now) hgd (congrArg Prod.snd (walked_refreshChanges ..).symm)
  | merge io now selection | rollback io now selection | runTest io now command | review io now
  | summarize io now | resume io now | archive io now taskId => exact hgd.elim

theorem baseRecorded_createTask {τ : Type} [Root τ] (host : Host) (env : HostEnv) (git : GitHost)
    (project : ProjectRecord) (taskId title : String) (taskRoot : AbsPath) (now : Nat) (original : τ)
    (locks : List Text) : BaseRecorded host (Root.walk original)
      (createTask env git project taskId title taskRoot now original locks).walked := by
  refine ⟨fun m hm c hc => ?_, rfl⟩
  simp only [createTask, DiskOf.walked, some.injEq] at hm
  subst hm
  cases hc

variable (base d) in
def contents : Set Content := {x | ∃ p, base.file? p = some x ∨ d.original.file? p = some x}

variable (hsha : Set.InjOn host.sha256 (contents base d))

include h hfst hsha in
theorem BaseRecorded.unchanged
    (hm : d.manifest = some m) (hc : c ∈ (refreshedManifest host now d.original d.workspaceTree m).changedFiles)
    (hun : Unchanged host d.original c) : d.original.file? c.path = base.file? c.path := by
  have heq := hun.2.2
  rw [h.refreshed hfst hm hc] at heq
  exact hashText_inj hsha (fun x hx => ⟨c.path, .inr hx⟩) (fun x hx => ⟨c.path, .inl hx⟩) heq

include h hfst hsha in
theorem BaseRecorded.keepsUserEdits (io : IoPlan) (now : Nat) (selection : MergeSelection) :
    KeepsUserEdits host base d io now selection := by
  intro r d' hmg p hp
  simp only [walk_tree] at hp ⊢
  obtain ⟨-, ⟨hkept, -⟩ | ⟨m, hm, hun, hframe⟩⟩ := Eff.post_iff.mp (merge_spec host io now selection d) r d' hmg
  · rw [hkept] at hp; exact absurd rfl hp
  · have hcho : ∃ c ∈ chosen (refreshedManifest host now d.original d.workspaceTree m) selection, c.path = p := by
      by_contra hno
      exact hp (hframe p fun c hc hcp => hno ⟨c, hc, hcp⟩)
    obtain ⟨c, hc, rfl⟩ := hcho
    exact h.unchanged hfst hsha hm (List.mem_of_mem_filter hc) (hun c hc)

include h hfst hsha in
theorem BaseRecorded.reportsUserEdits (io : IoPlan) (now : Nat)
    (selection : MergeSelection) : ReportsUserEdits host base d io now selection := by
  rintro r d' m _ hmg hm rfl hex
  simp only [walk_tree] at hex ⊢
  have hchd : ∀ c ∈ chosen (refreshedManifest host now d.original d.workspaceTree m) selection,
      d.original.file? c.path ≠ base.file? c.path → ¬ Unchanged host d.original c :=
    fun c hc hne hun => hne (h.unchanged hfst hsha hm (List.mem_of_mem_filter hc) hun)
  obtain ⟨c, hc, hne⟩ := hex
  obtain ⟨-, ⟨hkept, hfailed⟩ | ⟨m₁, hm₁, hun, -⟩⟩ :=
    Eff.post_iff.mp (merge_spec host io now selection d) r d' hmg
  · refine ⟨hkept, hfailed, fun hio hlock hread => ?_⟩
    obtain ⟨c', hc', hch, hr⟩ := merge_of_changed hio hm h.workspace hlock hread ⟨c, hc, hchd c hc hne⟩
    rw [hmg] at hr
    refine ⟨c'.path, _, _, hr, fun heq => hch ?_⟩
    refine ⟨(hread c' hc').1, (hread c' hc').2, ?_⟩
    rw [h.refreshed hfst hm (List.mem_of_mem_filter hc'), heq]
  · rw [hm, some.injEq] at hm₁
    subst hm₁
    exact absurd (hun c hc) (hchd c hc hne)

/-- In every run of a task in which each refresh first lists a path while the project still has the content that the
task was created from, a following merge of plain paths keeps and reports the edits of the user. -/
theorem merge_keeps_and_reports_user_edits {τ : Type} [Root τ] [LawfulRoot τ] (σ : Setting) (taskId title : String)
    (taskRoot : AbsPath) (created : Nat) (project : τ) (locks : List Text) (as : List (ActionOn τ)) (d : DiskOf τ)
    (io : IoPlan) (now : Nat) (selection : MergeSelection)
    (hrun : Run (Guarded (BeforeMerge (Root.walk project)) (TaskStep σ))
      (createTask σ.env σ.git σ.project taskId title taskRoot created project locks) as d)
    (hfirst : FirstSeenAtBase (Root.walk project) d.walked) (hplain : ChoosesPlain σ.host d (.merge io now selection))
    (hsha : Set.InjOn σ.host.sha256 (contents (Root.walk project) d.walked)) :
    KeepsUserEdits σ.host (Root.walk project) d io now selection ∧
      ReportsUserEdits σ.host (Root.walk project) d io now selection := by
  have h : BaseRecorded σ.host (Root.walk project) d.walked := (baseRecorded_createTask ..).run hrun
  have hwalked : ∀ {r d'}, merge σ.host io now selection d = (r, d') →
      merge σ.host io now selection d.walked = (r, d'.walked) := by
    intro r d' hmg
    rw [walked_merge hplain, hmg]
  constructor
  · intro r d' hmg p hp
    exact h.keepsUserEdits hfirst hsha io now selection r d'.walked (hwalked hmg) p hp
  · intro r d' m cs hmg hm hcs hex
    exact h.reportsUserEdits hfirst hsha io now selection r d'.walked m cs (hwalked hmg) hm hcs hex

theorem injOn_contents {sha256 : Content → Text} (l : List Content) (hl : ∀ x ∈ l, ∀ y ∈ l, sha256 x = sha256 y → x = y)
    (hbase : ∀ p ∈ base.filePaths, ∀ x ∈ base.file? p, x ∈ l)
    (hd : ∀ p ∈ d.original.filePaths, ∀ x ∈ d.original.file? p, x ∈ l) : Set.InjOn sha256 (contents base d) := by
  have hmem : ∀ x ∈ contents base d, x ∈ l := by
    rintro x ⟨p, hx | hx⟩
    · exact hbase p (mem_filePaths.mpr (by rw [hx]; rfl)) x hx
    · exact hd p (mem_filePaths.mpr (by rw [hx]; rfl)) x hx
  exact fun x hx y hy hxy => hl x (hmem x hx) y (hmem y hy) hxy

end

/-! ## A merge before and after an edit of the user -/

/-- The user edits the second file through the link. -/
def sampleEdits : List (ActionOn LinkedRoot) :=
  [.editWorkspace (.ofTree (sampleTree [(["a.txt"], "agent"), (["b.txt"], "agent")])), .refresh .healthy 1,
    .editOriginal ((Root.writeAll sampleBase ["l.txt"] (.text "mine")).getD sampleBase)]

def performAll {τ : Type} [Root τ] (d : DiskOf τ) (as : List (ActionOn τ)) : DiskOf τ :=
  as.foldl (fun d a => a.perform sampleSetting d) d

theorem merge_reports_sample_edit :
    KeepsUserEdits sampleHost sampleBase.tree (performAll (sampleTask sampleBase) sampleEdits) .healthy 2 .all ∧
      ReportsUserEdits sampleHost sampleBase.tree (performAll (sampleTask sampleBase) sampleEdits) .healthy 2 .all := by
  have hlist : FirstSeenAtBase sampleBase.tree (performAll (sampleTask sampleBase) (sampleEdits.take 1)).walked := by
    decide +kernel
  have hplain : ∀ m ∈ (performAll (sampleTask sampleBase) sampleEdits).manifest,
      ∀ c ∈ chosen (refreshedManifest sampleHost 2 (performAll (sampleTask sampleBase) sampleEdits).original.tree
        (performAll (sampleTask sampleBase) sampleEdits).workspaceTree m) .all,
      Unlinked (performAll (sampleTask sampleBase) sampleEdits).original.links c.path := by decide +kernel
  refine merge_keeps_and_reports_user_edits sampleSetting sampleTaskId "task" ["state", "workspaces", "p", "1"] 0
    sampleBase [] sampleEdits _ .healthy 2 .all ?_ (by decide +kernel)
    (fun m hm c hc => plainAt_ofTree (hplain m hm c hc)) ?_
  · exact .cons ⟨trivial, rfl⟩ (.cons ⟨hlist, rfl⟩ (.cons ⟨trivial, rfl⟩ (.nil _)))
  · exact injOn_contents [.text "base", .text "mine"] (by decide) (by decide +kernel) (by decide +kernel)

/-- Without an edit of the agent or a refresh, a merge puts the old content in the place of an edit of the user. -/
theorem merge_loses_user_edit : ∃ d, Run (TaskStep sampleSetting) (sampleTask sampleBase.tree)
        [.editOriginal (sampleTree [(["a.txt"], "mine"), (["b.txt"], "base")])] d ∧
      (∃ outcome, (merge sampleHost .healthy 1 .all d).1 = .ok outcome) ∧
      ¬ KeepsUserEdits sampleHost sampleBase.tree d .healthy 1 .all := by
  refine ⟨_, .single rfl, ⟨_, rfl⟩, fun hkps => ?_⟩
  have h := hkps _ _ rfl ["a.txt"]
  revert h
  decide +kernel

/-- The agent adds a file where the project has a link, and the user edits the file that the link leads to. -/
def sampleLinkEdits : List (ActionOn LinkedRoot) :=
  [.editWorkspace (.ofTree (sampleTree [(["a.txt"], "base"), (["b.txt"], "agent"), (["l.txt"], "agent")])),
    .refresh .healthy 1, .editOriginal ((Root.writeAll sampleBase ["b.txt"] (.text "mine")).getD sampleBase)]

/-- The merge of the added file writes through the link. -/
theorem merge_writes_through_link :
    Run (Guarded (BeforeMerge sampleBase.tree) (TaskStep sampleSetting)) (sampleTask sampleBase) sampleLinkEdits
        (performAll (sampleTask sampleBase) sampleLinkEdits) ∧
      FirstSeenAtBase sampleBase.tree (performAll (sampleTask sampleBase) sampleLinkEdits).walked ∧
      ¬ KeepsUserEdits sampleHost sampleBase.tree (performAll (sampleTask sampleBase) sampleLinkEdits) .healthy 2
        (.files [["l.txt"]]) := by
  have hlist : FirstSeenAtBase sampleBase.tree (performAll (sampleTask sampleBase) (sampleLinkEdits.take 1)).walked := by
    decide +kernel
  refine ⟨.cons ⟨trivial, rfl⟩ (.cons ⟨hlist, rfl⟩ (.cons ⟨trivial, rfl⟩ (.nil _))), by decide +kernel, fun hkps => ?_⟩
  have h := hkps _ _ rfl ["b.txt"]
  revert h
  decide +kernel

end CodexStudy.NewCore
