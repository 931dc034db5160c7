import CodexStudy.NewCore.Lemmas.Apply
import CodexStudy.NewCore.Lemmas.Links
import CodexStudy.Lib.Lists

/-!
# A rollback of some hunks

A rollback of hunks puts the snapshot of a file back and merges the hunks that remain once more.
-/

namespace CodexStudy.NewCore

open CodexStudy.Lib List FileTree HunkSelection Workspace ChangedFile

/-! ## A merge at one path -/

/-- What a merge needs of a path: no directory stands at it, and no file above it. -/
structure Placed (t : Tree) (path : RelPath) : Prop where
  notDir : t.node? path ≠ some .dir
  passable : t.passable path.dropLast = true

/-- The workspace shows the path itself, and not another one behind a link. -/
def Workspace.ShowsItself (ws : Workspace) (path : RelPath) : Prop :=
  ws.resolve path = .inl path ∨ ws.resolve path = .inr path

theorem Workspace.showsItself_ofTree (tree : Tree) (path : RelPath) : (ofTree tree).ShowsItself path := by
  cases path with
  | nil => exact .inl rfl
  | cons name rest => exact .inl rfl

variable {i now : Nat} {t₁ : Tree} {dir : SnapshotDir} {q : RelPath}

theorem mem_pathHunks {hunks : List HunkSelection} {path : RelPath} :
    i ∈ pathHunks hunks path ↔ i ∈ (hunks.filter fun s => s.path = path).map hunkIndex := by
  rw [pathHunks, mem_sorted, mem_toFinset]

theorem pathHunks_eq_nil {hunks : List HunkSelection} {path : RelPath} :
    pathHunks hunks path = [] ↔ path ∉ hunks.map HunkSelection.path := by
  rw [eq_nil_iff_forall_not_mem]
  simp only [mem_pathHunks, mem_map, mem_filter, decide_eq_true_eq]
  constructor
  · rintro h ⟨s, hs, hpath⟩
    exact h s.hunkIndex ⟨s, ⟨hs, hpath⟩, rfl⟩
  · rintro h i ⟨s, ⟨hs, hpath⟩, -⟩
    exact h ⟨s, hs, hpath⟩

theorem mem_pathHunks_reselected {path : RelPath} {remaining : List Nat} :
    i ∈ pathHunks (reselected path remaining) path ↔ i ∈ remaining := by
  simp [mem_pathHunks, reselected]

section

variable {t t' : Tree} {path : RelPath}

theorem Placed.ne_nil (h : Placed t path) : path ≠ [] := by
  rintro rfl
  exact h.notDir (node?_root t)

theorem Placed.writeAll (h : Placed t path) (c : Content) :
    ∃ t', t.writeAll path c = some t' ∧ t'.file? path = some c := by
  obtain ⟨t', ht'⟩ := Option.isSome_iff_exists.mp
    (writeAll_isSome (c := c) h.ne_nil h.notDir (passable_iff.mp h.passable))
  refine ⟨t', ht', ?_⟩
  rw [writeAll_file? ht', if_pos rfl]

theorem node?_eq_of_file?_eq (h : t.node? path ≠ some .dir) (h' : t'.node? path ≠ some .dir)
    (hfile : t'.file? path = t.file? path) : t'.node? path = t.node? path := by
  cases hf : t.file? path with
  | some c => rw [file?_eq_some.mp hf, file?_eq_some.mp (hfile.trans hf)]
  | none => rw [node?_eq_none_of_file? hf h, node?_eq_none_of_file? (hfile.trans hf) h']

variable {ws : Workspace} {host : Host} {pt pt' : IoPoint} {selections selections' : List HunkSelection}

theorem Workspace.ShowsItself.read_eq (hws : ws.ShowsItself path) (hfile : t'.file? path = t.file? path) :
    ws.read t' path = ws.read t path := by
  unfold read
  rcases hws with hws | hws
  · rw [hws]
  · rw [hws]
    exact hfile

theorem Workspace.ShowsItself.present_eq (hws : ws.ShowsItself path) (h : t'.node? path = t.node? path) :
    ws.present t' path = ws.present t path := by
  unfold present
  rcases hws with hws | hws
  · rw [hws]
  · rw [hws]
    exact congrArg Option.isSome h

theorem readFileLines_eq {lines : List Text} (h : t'.node? path = t.node? path)
    (hread : readFileLines pt t path = .ok lines) : readFileLines pt' t' path = .ok lines := by
  have hpresent : Root.present t' path = Root.present t path := congrArg Option.isSome h
  have hfile : Root.file? t' path = Root.file? t path := by
    rw [file?_tree, file?_tree, file?, h]
    rfl
  unfold readFileLines at hread ⊢
  rw [hpresent, hfile]
  split at hread
  · rename_i hpres
    rw [if_pos hpres]
    split at hread
    · exact hread
    · cases hread
  · rename_i habsent
    rw [if_neg habsent]
    exact hread

theorem applyParsedHunks_congr {original : List Text} {parsed : List ParsedHunk} {selected selected' : List Nat}
    (h : ∀ i, i ∈ selected' ↔ i ∈ selected) :
    applyParsedHunks original parsed selected' = applyParsedHunks original parsed selected := by
  have hcontains : ∀ i, selected'.contains i = selected.contains i := by
    intro i
    rw [Bool.eq_iff_iff, contains_iff_mem, contains_iff_mem]
    exact h i
  simp only [applyParsedHunks, hcontains]

theorem except_ok_bind {ε α β : Type} (a : α) (f : α → Except ε β) : ((Except.ok a : Except ε α) >>= f) = f a := rfl

theorem removeIfPresent_transfer (hto : Placed t' path) (h : removeIfPresent pt t path = .ok t₁) :
    ∃ t₁', removeIfPresent pt' t' path = .ok t₁' ∧ t₁'.file? path = t₁.file? path := by
  obtain ⟨t₁', ht₁'⟩ := removeIfPresent_ok pt' hto.notDir
  exact ⟨t₁', ht₁', (removeIfPresent_file? ht₁').trans (removeIfPresent_file? h).symm⟩

theorem orIo_writeAll_transfer {c : Content} (hto : Placed t' path) (h : orIo pt (t.writeAll path c) = .ok t₁) :
    ∃ t₁', orIo pt' (t'.writeAll path c) = .ok t₁' ∧ t₁'.file? path = t₁.file? path := by
  obtain ⟨t₁', ht₁', hfile⟩ := hto.writeAll c
  refine ⟨t₁', orIo_eq_ok.mpr ht₁', ?_⟩
  rw [hfile, writeAll_file? (orIo_eq_ok.mp h), if_pos rfl]

variable (pt') in
theorem applySelectedHunks_transfer {t₁ : Tree} (hws : ws.ShowsItself path) (hfrom : t.node? path ≠ some .dir)
    (hto : Placed t' path) (hfile : t'.file? path = t.file? path)
    (hselected : ∀ i, i ∈ pathHunks selections' path ↔ i ∈ pathHunks selections path)
    (hne : pathHunks selections path ≠ []) (h : applySelectedHunks host pt ws t path selections = .ok t₁) :
    ∃ t₁', applySelectedHunks host pt' ws t' path selections' = .ok t₁' ∧ t₁'.file? path = t₁.file? path := by
  have hindices : ∀ i, i ∈ (selections'.filter fun s => s.path = path).map hunkIndex ↔
      i ∈ (selections.filter fun s => s.path = path).map hunkIndex := by
    intro i
    rw [← mem_pathHunks, ← mem_pathHunks]
    exact hselected i
  obtain ⟨i, hi⟩ := exists_mem_of_ne_nil _ hne
  have hsome := mem_pathHunks.mp hi
  have hsome' := (hindices i).mpr hsome
  have hnode := node?_eq_of_file?_eq hfrom hto.notDir hfile
  unfold applySelectedHunks at h ⊢
  generalize (selections.filter fun s => s.path = path).map hunkIndex = selected at *
  generalize (selections'.filter fun s => s.path = path).map hunkIndex = selected' at *
  rw [if_neg (ne_nil_of_mem hsome)] at h
  rw [if_neg (ne_nil_of_mem hsome')]
  obtain ⟨q, hq, hbody⟩ := except_bind_eq_ok.mp h
  obtain ⟨-, rfl⟩ := checkedJoin_eq_ok.mp hq
  rw [hq, except_ok_bind, hws.present_eq hnode, unifiedDiff_eq host ws t t']
  split at hbody
  · rename_i hpresent
    rw [if_pos hpresent]
    obtain ⟨unified, hunified, hparsed⟩ := except_bind_eq_ok.mp hbody
    rw [hunified, except_ok_bind]
    split at hparsed
    · obtain ⟨lines, hlines, hmerge⟩ := except_bind_eq_ok.mp hparsed
      obtain ⟨merged, hmerged, hwrite⟩ := except_bind_eq_ok.mp hmerge
      rw [readFileLines_eq hnode hlines, except_ok_bind, applyParsedHunks_congr hindices, hmerged, except_ok_bind]
      exact orIo_writeAll_transfer hto hwrite
    · obtain ⟨r, hr, hcopy⟩ := except_bind_eq_ok.mp hparsed
      obtain ⟨-, rfl⟩ := checkedJoin_eq_ok.mp hr
      have hcopied : ∃ t₁', copyFileOrRemove pt' ws t' r = .ok t₁' ∧ t₁'.file? r = t₁.file? r := by
        rw [copyFileOrRemove, hr, except_ok_bind, hws.read_eq hfile]
        split at hcopy
        · exact orIo_writeAll_transfer hto hcopy
        · exact removeIfPresent_transfer hto hcopy
      exact hcopied
  · rename_i hpresent
    rw [if_neg hpresent]
    exact removeIfPresent_transfer hto hbody

end

/-! ## What the merge leaves -/

def snapshotSource (files : List ChangedFile) (path : RelPath) : Option ChangedFile :=
  topmost (fun c => encodePath c.path == encodePath path) files

section

variable {host : Host} {accepted : List RelPath} {hunks : List HunkSelection} {cs cs' : List ChangedFile} {d d' : Disk}

theorem saved_snapshotFile_of_eq {path : RelPath} (source : Option Content)
    (h : encodePath path = encodePath q) : (dir.snapshotFile path source).saved q = source := by
  have hsav := @SnapshotDir.saved_snapshotFile dir path source
  rwa [SnapshotDir.saved, h] at hsav

variable (h : Applied host accepted hunks cs d cs' d')

include h in
theorem Applied.workspace : d'.workspace = d.workspace := by
  induction h with
  | nil d => rfl
  | skip _ _ ih => exact ih
  | apply _ _ _ _ ih => exact ih

include h in
theorem Applied.saved_eq (hnd : (cs.map ChangedFile.path).Nodup) {source : ChangedFile}
    (hsrc : snapshotSource (cs.filter fun c => accepted.contains c.path) q = some source) :
    d'.before.saved q = d.original.file? source.path := by
  induction h with
  | nil d => cases hsrc
  | @skip c cs cs' d d' hacc hrest ih =>
      rw [filter_cons, if_neg (by simpa using hacc)] at hsrc
      exact ih (nodup_cons.mp hnd).2 hsrc
  | @apply c cs cs' d d' t hacc ht hpass hrest ih =>
      obtain ⟨hhead, htail⟩ := nodup_cons.mp hnd
      rw [filter_cons, if_pos (by simpa using hacc), snapshotSource, ← singleton_append, topmost_append] at hsrc
      cases hlater : topmost (fun c => encodePath c.path == encodePath q) (cs.filter fun c => accepted.contains c.path) with
      | some later =>
          rw [hlater, Option.some_or, Option.some.injEq] at hsrc
          subst hsrc
          rw [ih htail hlater]
          refine (mergedTree_changesAt ht).frame _ fun heq => hhead ?_
          rw [← heq]
          exact mem_map_of_mem (mem_of_mem_filter (mem_of_topmost hlater).1)
      | none =>
          rw [hlater, Option.none_or] at hsrc
          obtain ⟨hmem, halike⟩ := mem_of_topmost hsrc
          rw [mem_singleton.mp hmem] at halike ⊢
          have hothers : ∀ b ∈ cs, b.path ∈ accepted → encodePath q ≠ encodePath b.path := by
            intro b hb hb' heq
            have hno := topmost_eq_none.mp hlater b (mem_filter.mpr ⟨hb, by simpa using hb'⟩)
            simp [heq] at hno
          rw [hrest.saved_of_ne hothers]
          exact saved_snapshotFile_of_eq _ (beq_iff_eq.mp halike)

include h in
theorem Applied.entry (hnd : (cs.map ChangedFile.path).Nodup) {c : ChangedFile} (hc : c ∈ cs) :
    ∃ c' ∈ cs', (c.path ∉ accepted ∧ c' = c ∧ d'.original.file? c.path = d.original.file? c.path) ∨
      c.path ∈ accepted ∧ (∃ hash, c' = c.merged hunks hash) ∧ ∃ (s : Disk) (t : Tree), s.workspace = d.workspace ∧
        s.original.file? c.path = d.original.file? c.path ∧ d'.original.file? c.path = t.file? c.path ∧
        mergedTree host hunks s.workspaceTree s.original c.path = .ok t := by
  induction h with
  | nil d => cases hc
  | @skip b cs cs' d d' hacc hrest ih =>
      obtain ⟨hhead, htail⟩ := nodup_cons.mp hnd
      rcases mem_cons.mp hc with rfl | hc
      · refine ⟨c, mem_cons_self, .inl ⟨hacc, rfl, hrest.frame fun b hb _ heq => hhead ?_⟩⟩
        exact heq ▸ mem_map_of_mem hb
      · obtain ⟨c', hc', hcase⟩ := ih htail hc
        exact ⟨c', mem_cons_of_mem _ hc', hcase⟩
  | @apply b cs cs' d d' t hacc ht hpass hrest ih =>
      obtain ⟨hhead, htail⟩ := nodup_cons.mp hnd
      rcases mem_cons.mp hc with rfl | hc
      · have hkept := hrest.frame (q := c.path) fun b hb _ heq => hhead (heq ▸ mem_map_of_mem hb)
        exact ⟨_, mem_cons_self, .inr ⟨hacc, ⟨_, rfl⟩, d, t, rfl, rfl, hkept, ht⟩⟩
      · have hne : c.path ≠ b.path := fun heq => hhead (heq ▸ mem_map_of_mem hc)
        have hstep : t.file? c.path = d.original.file? c.path := (mergedTree_changesAt ht).frame _ hne
        obtain ⟨c', hc', hcase⟩ := ih htail hc
        refine ⟨c', mem_cons_of_mem _ hc', ?_⟩
        rcases hcase with ⟨hno, heq, hfile⟩ | ⟨hyes, heq, s, t', hws, hs, hfile, ht'⟩
        · exact .inl ⟨hno, heq, hfile.trans hstep⟩
        · exact .inr ⟨hyes, heq, s, t', hws, hs.trans hstep, hfile, ht'⟩

end

theorem mergedHunks_of_refreshed {host : Host} {t : Tree} {ws : Workspace} {m : TaskManifest}
    {c : ChangedFile} (h : c ∈ (refreshedManifest host now t ws m).changedFiles) : c.mergedHunks = none := by
  have hc := (mem_refreshed.mp h).2
  unfold compareEntry at hc
  split at hc
  · cases hc
  · generalize recordedHash host t m c.path = before at hc
    generalize workspaceHash host ws m c.path = after at hc
    cases before with
    | none =>
        cases after with
        | none => cases hc
        | some _ => exact Option.some.inj hc ▸ rfl
    | some _ =>
        cases after with
        | none => exact Option.some.inj hc ▸ rfl
        | some _ => exact Option.some.inj hc ▸ rfl

/-! ## The rollback after the merge -/

/-- Between the two calls nothing has changed what a rollback reads. -/
structure Undisturbed {τ : Type} (d d' : DiskOf τ) : Prop where
  original : d'.original = d.original
  workspace : d'.workspace = d.workspace
  manifest : d'.manifest = d.manifest
  before : d'.before = d.before

theorem Undisturbed.refl {τ : Type} (d : DiskOf τ) : Undisturbed d d := ⟨rfl, rfl, rfl, rfl⟩

def hunksLeft (merged rolledBack : List HunkSelection) (path : RelPath) : List Nat :=
  (pathHunks merged path).filter fun i => !(pathHunks rolledBack path).contains i

/-- A file is as a merge of these hunks alone leaves it, and the manifest lists exactly these hunks as merged. -/
structure LeftMerged (host : Host) (original : Tree) (ws : Workspace) (d : Disk) (path : RelPath) (left : List Nat) :
    Prop where
  file : ∃ t, applySelectedHunks host (.apply path) ws original path (reselected path left) = .ok t ∧
    d.original.file? path = t.file? path
  entry : ∃ m, d.manifest = some m ∧ ∃ c ∈ m.changedFiles, c.path = path ∧ (c.accepted = true ↔ left ≠ []) ∧
    c.mergedHunks = if left = [] then none else some left

theorem LeftMerged.file_iff_of_nil (host : Host) (ws : Workspace) {original : Tree} {d : Disk} {path : RelPath} :
    (∃ t, applySelectedHunks host (.apply path) ws original path (reselected path []) = .ok t ∧
      d.original.file? path = t.file? path) ↔ d.original.file? path = original.file? path := by
  have hnone : applySelectedHunks host (.apply path) ws original path (reselected path []) = .ok original := by
    rw [applySelectedHunks]
    exact if_pos rfl
  rw [hnone]
  constructor
  · rintro ⟨t, ht, hfile⟩
    cases ht
    exact hfile
  · exact fun hfile => ⟨_, rfl, hfile⟩

/-- A restored file is restored from its own content: the last of the files saved under its name had the same one. -/
def SnapshotIntact (original : Tree) (files : List ChangedFile) (merged rolledBack : List HunkSelection) (path : RelPath) :
    Prop :=
  pathHunks merged path ≠ [] → pathHunks rolledBack path ≠ [] →
    ∀ source ∈ snapshotSource files path, original.file? source.path = original.file? path

theorem mem_selectedRollbackPaths {cs : List ChangedFile} {hunks : List HunkSelection} {c : ChangedFile} (hc : c ∈ cs)
    (hacc : c.accepted = true) : c.path ∈ selectedRollbackPaths cs (.hunks hunks) ↔ pathHunks hunks c.path ≠ [] := by
  rw [Ne, pathHunks_eq_nil, not_not]
  simp only [selectedRollbackPaths, mem_map, mem_filter, Bool.and_eq_true, contains_iff_mem]
  constructor
  · rintro ⟨b, ⟨-, -, hb⟩, heq⟩
    rwa [heq] at hb
  · exact fun h => ⟨c, ⟨hc, hacc, h⟩, rfl⟩

theorem restoreSnapshot_file? {pt : IoPoint} {t t' : Tree} {path : RelPath}
    (h : dir.restoreSnapshot pt t path = .ok t') : t'.file? path = dir.saved path := by
  obtain ⟨q, hq, -⟩ := except_bind_eq_ok.mp h
  obtain ⟨hpath, -⟩ := checkedJoin_eq_ok.mp hq
  rw [SnapshotDir.restoreSnapshot_eq hpath] at h
  split at h
  · rename_i c hsav
    rw [hsav, writeAll_file? (orIo_eq_ok.mp h), if_pos rfl]
  · rename_i hsav
    rw [hsav, removeIfPresent_file? h]

inductive Outcome (host : Host) (merged rolledBack : List HunkSelection) (original : Tree) (ws : Workspace) (d₂ : Disk)
    (saved : Option Content) (c c₂ : ChangedFile) : Prop where
  /-- Nothing of the file was merged. -/
  | untouched : pathHunks merged c.path = [] → c₂ = c → d₂.original.file? c.path = original.file? c.path →
      Outcome host merged rolledBack original ws d₂ saved c c₂
  /-- Nothing of the file was rolled back. -/
  | merged (t₀ t : Tree) : pathHunks merged c.path ≠ [] → pathHunks rolledBack c.path = [] →
      (∃ hash, c₂ = c.merged merged hash) → t₀.file? c.path = original.file? c.path →
      t₀.node? c.path ≠ some .dir → applySelectedHunks host (.apply c.path) ws t₀ c.path merged = .ok t →
      d₂.original.file? c.path = t.file? c.path →
      Outcome host merged rolledBack original ws d₂ saved c c₂
  /-- No hunk of the file remains. -/
  | restored : pathHunks merged c.path ≠ [] → pathHunks rolledBack c.path ≠ [] →
      hunksLeft merged rolledBack c.path = [] → c₂.path = c.path → c₂.accepted = false → c₂.mergedHunks = none →
      d₂.original.file? c.path = saved →
      Outcome host merged rolledBack original ws d₂ saved c c₂
  /-- Some hunks of the file remain. -/
  | remerged (t₁ t : Tree) : pathHunks merged c.path ≠ [] → pathHunks rolledBack c.path ≠ [] →
      hunksLeft merged rolledBack c.path ≠ [] → c₂.path = c.path → c₂.accepted = true →
      c₂.mergedHunks = some (hunksLeft merged rolledBack c.path) → t₁.file? c.path = saved →
      applySelectedHunks host (.reapply c.path) ws t₁ c.path
        (reselected c.path (hunksLeft merged rolledBack c.path)) = .ok t →
      d₂.original.file? c.path = t.file? c.path →
      Outcome host merged rolledBack original ws d₂ saved c c₂

section

variable {host : Host} {io : IoPlan} {merged rolledBack : List HunkSelection}
variable {d d₁ : Disk}

theorem remainingHunks_merged {c : ChangedFile} {hash : Option Text} (hmrg : pathHunks merged c.path ≠ [])
    (hrol : pathHunks rolledBack c.path ≠ []) :
    remainingHunks (c.merged merged hash) (pathHunks rolledBack c.path) = hunksLeft merged rolledBack c.path := by
  simp only [remainingHunks, if_neg hrol, ChangedFile.merged, if_neg hmrg, Option.getD_some, hunksLeft]

theorem outcome_of_loops {cs cs₁ cs₂ : List ChangedFile} {s₁ s₂ : Disk}
    (hmg : Applied host (merged.map HunkSelection.path) merged cs d cs₁ d₁)
    (hbetween : s₁.original = d₁.original ∧ s₁.workspace = d₁.workspace)
    (hrollback : Eff.each (rollbackChanged host io (selectedRollbackPaths cs₁ (.hunks rolledBack)) rolledBack) cs₁ s₁ =
      (.ok cs₂, s₂))
    (hnd : (cs.map ChangedFile.path).Nodup) (hfr : ∀ c ∈ cs, c.accepted = false) {c : ChangedFile} (hc : c ∈ cs) :
    ∃ c₂ ∈ cs₂, Outcome host merged rolledBack d.original d.workspaceTree s₂ (s₁.before.saved c.path) c c₂ := by
  obtain ⟨c₁, hc₁, hcase₁⟩ := hmg.entry hnd hc
  have hpath : c₁.path = c.path := by
    rcases hcase₁ with ⟨-, rfl, -⟩ | ⟨-, ⟨hash, rfl⟩, -⟩
    · rfl
    · rfl
  obtain ⟨c₂, hc₂, hcase₂⟩ := rollbackLoop_entry hrollback (hmg.paths_eq ▸ hnd) hc₁
  rw [hpath] at hcase₂
  refine ⟨c₂, hc₂, ?_⟩
  rw [hbetween.1] at hcase₂
  rcases hcase₁ with ⟨hno, rfl, hfile₁⟩ | ⟨hyes, ⟨hash, rfl⟩, sm, t, hws, hsm, hfile₁, ht⟩
  · rcases hcase₂ with ⟨-, rfl, hfile₂⟩ | ⟨⟨hacc, -⟩, -⟩
    · exact .untouched (pathHunks_eq_nil.mpr hno) rfl (hfile₂.trans hfile₁)
    · rw [hfr c₁ hc] at hacc
      cases hacc
  · have hmrg : pathHunks merged c.path ≠ [] := fun hnil => pathHunks_eq_nil.mp hnil hyes
    have hany : (merged.any fun h => h.path = c.path) = true := by
      obtain ⟨h, hh, heq⟩ := mem_map.mp hyes
      exact any_eq_true.mpr ⟨h, hh, by simpa using heq⟩
    have hdir := (mergedTree_changesAt ht).source
    rw [mergedTree, if_pos hany] at ht
    have hwsm : sm.workspaceTree = d.workspaceTree := by rw [DiskOf.workspaceTree, hws, DiskOf.workspaceTree]
    rw [hwsm] at ht
    have hcho : c.path ∈ selectedRollbackPaths cs₁ (.hunks rolledBack) ↔ pathHunks rolledBack c.path ≠ [] :=
      @mem_selectedRollbackPaths _ _ (c.merged merged hash) hc₁ rfl
    rcases hcase₂ with ⟨hno, rfl, hfile₂⟩ | ⟨⟨-, hchose⟩, s₃, t₃, hbef, hws₃, hs₃, hfile₂, hrol⟩
    · have hrol : pathHunks rolledBack c.path = [] := by
        by_contra hne
        exact hno ⟨rfl, hcho.mpr hne⟩
      exact .merged sm.original t hmrg hrol ⟨hash, rfl⟩ hsm hdir ht (hfile₂.trans hfile₁)
    · have hne := hcho.mp hchose
      have hremaining : remainingHunks (c.merged merged hash) (pathHunks rolledBack (c.merged merged hash).path) =
          hunksLeft merged rolledBack c.path := remainingHunks_merged hmrg hne
      obtain ⟨t₁, ht₁, hrest⟩ := hrol.restored
      have hsav : t₁.file? c.path = s₁.before.saved c.path := hbef ▸ restoreSnapshot_file? ht₁
      have hws₄ : s₃.workspaceTree = d.workspaceTree := by
        rw [DiskOf.workspaceTree, hws₃, hbetween.2, hmg.workspace, DiskOf.workspaceTree]
      rw [hremaining] at hrest
      rcases hrest with ⟨hnil, rfl, hacc, hhs⟩ | ⟨hleft, ht₃, hacc, hhs⟩
      · exact .restored hmrg hne hnil hrol.path hacc hhs (hfile₂.trans hsav)
      · rw [hws₄] at ht₃
        exact .remerged t₁ t₃ hmrg hne hleft hrol.path hacc hhs hsav ht₃ hfile₂

end

section

variable {host : Host} {merged rolledBack : List HunkSelection} {original : Tree} {ws : Workspace} {d₂ : Disk}
variable {saved : Option Content} {c c₂ : ChangedFile}

variable (h : Outcome host merged rolledBack original ws d₂ saved c c₂)

include h in
theorem Outcome.entry (hfr : c.accepted = false) (hnone : c.mergedHunks = none) :
    c₂.path = c.path ∧ (c₂.accepted = true ↔ hunksLeft merged rolledBack c.path ≠ []) ∧
      c₂.mergedHunks =
        if hunksLeft merged rolledBack c.path = [] then none else some (hunksLeft merged rolledBack c.path) := by
  cases h with
  | untouched hmrg heq _ =>
      have hleft : hunksLeft merged rolledBack c.path = [] := by rw [hunksLeft, hmrg, filter_nil]
      rw [heq, hleft]
      simp [hfr, hnone]
  | merged _ _ hmrg hrol heq =>
      obtain ⟨hash, rfl⟩ := heq
      have hleft : hunksLeft merged rolledBack c.path = pathHunks merged c.path := by simp [hunksLeft, hrol]
      rw [hleft]
      simp [ChangedFile.merged, hmrg]
  | restored _ _ hleft hpath hacc hhs => simp [hleft, hpath, hacc, hhs]
  | remerged _ _ _ _ hleft hpath hacc hhs => simp [hleft, hpath, hacc, hhs]

include h in
theorem Outcome.file (hplaced : Placed original c.path) (hws : ws.ShowsItself c.path)
    (hsav : pathHunks merged c.path ≠ [] → pathHunks rolledBack c.path ≠ [] → saved = original.file? c.path) :
    ∃ t, applySelectedHunks host (.apply c.path) ws original c.path
      (reselected c.path (hunksLeft merged rolledBack c.path)) = .ok t ∧ d₂.original.file? c.path = t.file? c.path := by
  cases h with
  | untouched hmrg _ hfile =>
      have hleft : hunksLeft merged rolledBack c.path = [] := by rw [hunksLeft, hmrg, filter_nil]
      rw [hleft]
      exact (LeftMerged.file_iff_of_nil _ _).mpr hfile
  | merged t₀ t hmrg hrol _ ht₀ hdir ht hfile =>
      have hleft : hunksLeft merged rolledBack c.path = pathHunks merged c.path := by simp [hunksLeft, hrol]
      obtain ⟨t', ht', hfile'⟩ := applySelectedHunks_transfer (.apply c.path) hws hdir hplaced ht₀.symm
        (fun i => mem_pathHunks_reselected) hmrg ht
      rw [hleft]
      exact ⟨t', ht', hfile.trans hfile'.symm⟩
  | restored hmrg hrol hleft _ _ _ hfile =>
      rw [hleft]
      exact (LeftMerged.file_iff_of_nil _ _).mpr (hfile.trans (hsav hmrg hrol))
  | remerged t₁ t hmrg hrol hleft _ _ _ ht₁ ht hfile =>
      have hdir : t₁.node? c.path ≠ some .dir := (applySelectedHunks_changesAt (reselected_any hleft) ht).source
      have hne : pathHunks (reselected c.path (hunksLeft merged rolledBack c.path)) c.path ≠ [] := by
        obtain ⟨i, hi⟩ := exists_mem_of_ne_nil _ hleft
        exact ne_nil_of_mem (mem_pathHunks_reselected.mpr hi)
      obtain ⟨t', ht', hfile'⟩ := applySelectedHunks_transfer (.apply c.path) hws hdir hplaced
        (ht₁.trans (hsav hmrg hrol)).symm (fun i => Iff.rfl) hne ht
      exact ⟨t', ht', hfile.trans hfile'.symm⟩

include h in
theorem Outcome.file_iff
    (hleft : hunksLeft merged rolledBack c.path = []) : d₂.original.file? c.path = original.file? c.path ↔
      (pathHunks merged c.path ≠ [] → pathHunks rolledBack c.path ≠ [] → saved = original.file? c.path) := by
  cases h with
  | untouched hmrg _ hfile => exact iff_of_true hfile fun hne => absurd hmrg hne
  | merged _ _ hmrg hrol =>
      have hall : hunksLeft merged rolledBack c.path = pathHunks merged c.path := by simp [hunksLeft, hrol]
      exact absurd (hall.symm.trans hleft) hmrg
  | restored hmrg hrol _ _ _ _ hfile =>
      rw [hfile]
      exact ⟨fun heq _ _ => heq, fun heq => heq hmrg hrol⟩
  | remerged _ _ _ _ hne => exact absurd hleft hne

end

theorem leftMerged_of_rollback {host : Host} {io io' : IoPlan} {now' : Nat} {merged rolledBack : List HunkSelection}
    {d d₁ s d₂ : Disk} {o : MergeOutcome} {o' : RollbackOutcome}
    (hmerge : merge host io now (.hunks merged) d = (.ok o, d₁)) (hbetween : Undisturbed d₁ s)
    (hrollback : rollback host io' now' (.hunks rolledBack) s = (.ok o', d₂)) :
    ∃ m, d.manifest = some m ∧ ∀ m', m' = refreshedManifest host now d.original d.workspaceTree m →
      ∀ c ∈ m'.changedFiles, (SnapshotIntact d.original (chosen m' (.hunks merged)) merged rolledBack c.path →
          d.workspaceTree.ShowsItself c.path → LeftMerged host d.original d.workspaceTree d₂ c.path
            (hunksLeft merged rolledBack c.path)) ∧
        (hunksLeft merged rolledBack c.path = [] → (LeftMerged host d.original d.workspaceTree d₂ c.path [] ↔
          SnapshotIntact d.original (chosen m' (.hunks merged)) merged rolledBack c.path)) := by
  obtain ⟨m, m', s₀, cs, d₀, hm, hm', hkept, hunchanged, happ, rfl⟩ := merge_eq_ok hmerge
  refine ⟨m, hm, ?_⟩
  rintro _ rfl c hc
  rw [← hm'] at hc ⊢
  obtain ⟨ms, cs₂, s₂, hms, hloop, horiginal, m₂, hm₂, rfl⟩ := rollback_eq_ok hrollback
  rw [hbetween.manifest] at hms
  cases hms
  have hnd : (m'.changedFiles.map ChangedFile.path).Nodup := hm' ▸ nodup_refreshed
  have hfr : ∀ c ∈ m'.changedFiles, c.accepted = false := by
    intro c hc
    rw [hm'] at hc
    exact (refreshed_entry hc).2.2.2
  have hnone : c.mergedHunks = none := by
    rw [hm'] at hc
    exact mergedHunks_of_refreshed hc
  have horiginal₀ : (s₀.locked (mergeLockName m'.taskId)).original = d.original := hkept.original
  have hws₀ : (s₀.locked (mergeLockName m'.taskId)).workspaceTree = d.workspaceTree := by
    change s₀.workspace.getD _ = d.workspace.getD _
    rw [hkept.workspace]
  obtain ⟨c₂, hc₂, hout⟩ := outcome_of_loops happ ⟨hbetween.original, hbetween.workspace⟩ hloop hnd hfr hc
  rw [horiginal₀, hws₀] at hout
  have hfile₂ : d₂.original.file? c.path = s₂.original.file? c.path := by rw [horiginal]
  obtain ⟨hpath, hacc, hhs⟩ := hout.entry (hfr c hc) hnone
  have hent : ∃ m, d₂.manifest = some m ∧ ∃ c' ∈ m.changedFiles, c'.path = c.path ∧
      (c'.accepted = true ↔ hunksLeft merged rolledBack c.path ≠ []) ∧ c'.mergedHunks =
        if hunksLeft merged rolledBack c.path = [] then none else some (hunksLeft merged rolledBack c.path) :=
    ⟨m₂, hm₂, c₂, hc₂, hpath, hacc, hhs⟩
  -- The snapshot of a merged file is the one of the last file that is saved under its name.
  have hintact : SnapshotIntact d.original (chosen m' (.hunks merged)) merged rolledBack c.path ↔
      (pathHunks merged c.path ≠ [] → pathHunks rolledBack c.path ≠ [] →
        s.before.saved c.path = d.original.file? c.path) := by
    refine forall_congr' fun hmrg => forall_congr' fun _ => ?_
    have hcho : c ∈ chosen m' (.hunks merged) := by
      refine mem_filter.mpr ⟨hc, ?_⟩
      rw [contains_iff_mem]
      by_contra hno
      exact hmrg (pathHunks_eq_nil.mpr hno)
    have hsome : (snapshotSource (chosen m' (.hunks merged)) c.path).isSome :=
      topmost_isSome hcho (beq_self_eq_true _)
    obtain ⟨source, hsrc⟩ := Option.isSome_iff_exists.mp hsome
    have hsav : s.before.saved c.path = d.original.file? source.path := by
      rw [hbetween.before, ← horiginal₀]
      exact happ.saved_eq hnd hsrc
    rw [hsrc, hsav]
    simp
  rw [hintact]
  refine ⟨fun hsav hshows => ⟨?_, hent⟩, fun hleft => ?_⟩
  · rw [hfile₂]
    by_cases hmrg : pathHunks merged c.path = []
    · have hleft : hunksLeft merged rolledBack c.path = [] := by rw [hunksLeft, hmrg, filter_nil]
      rw [hleft]
      exact (LeftMerged.file_iff_of_nil host _).mpr ((hout.file_iff hleft).mpr hsav)
    · have hcho : c ∈ chosen m' (.hunks merged) := by
        refine mem_filter.mpr ⟨hc, ?_⟩
        rw [contains_iff_mem]
        by_contra hno
        exact hmrg (pathHunks_eq_nil.mpr hno)
      have hplaced : Placed d.original c.path := by
        refine ⟨fun hdir => ?_, (hunchanged c hcho).2.1⟩
        rw [← horiginal₀] at hdir
        refine (happ.keepDir hdir).2 c hc ?_ rfl
        exact contains_iff_mem.mp (mem_filter.mp hcho).2
      exact hout.file hplaced hshows hsav
  · rw [← hout.file_iff hleft, ← hfile₂, ← LeftMerged.file_iff_of_nil host d.workspaceTree]
    rw [hleft] at hent
    exact ⟨fun h => h.file, fun h => ⟨h, hent⟩⟩

/-- After a merge and a rollback of hunks of plain paths every changed file is as a merge of the hunks that are merged
and not rolled back leaves it, provided that its snapshot holds its own content and that no link shows another
path in its place. Where no hunk remains, the snapshot alone decides. -/
theorem rollback_leaves_hunks {τ : Type} [Root τ] [LawfulRoot τ] {host : Host} {io io' : IoPlan} {now now' : Nat}
    {merged rolledBack : List HunkSelection} {d d₁ s d₂ : DiskOf τ} {o : MergeOutcome} {o' : RollbackOutcome}
    (hmerge : merge host io now (.hunks merged) d = (.ok o, d₁))
    (hplain : ChoosesPlain host d (.merge io now (.hunks merged))) (hbetween : Undisturbed d₁ s)
    (hrollback : rollback host io' now' (.hunks rolledBack) s = (.ok o', d₂))
    (hback : ChoosesPlain host s (.rollback io' now' (.hunks rolledBack))) :
    ∃ m, d.manifest = some m ∧ ∀ m', m' = refreshedManifest host now (Root.walk d.original) d.workspaceTree m →
      ∀ c ∈ m'.changedFiles, (SnapshotIntact (Root.walk d.original) (chosen m' (.hunks merged)) merged rolledBack
          c.path → d.workspaceTree.ShowsItself c.path → LeftMerged host (Root.walk d.original) d.workspaceTree
            d₂.walked c.path (hunksLeft merged rolledBack c.path)) ∧
        (hunksLeft merged rolledBack c.path = [] → (LeftMerged host (Root.walk d.original) d.workspaceTree d₂.walked
          c.path [] ↔ SnapshotIntact (Root.walk d.original) (chosen m' (.hunks merged)) merged rolledBack c.path)) := by
  have hmerge' : merge host io now (.hunks merged) d.walked = (.ok o, d₁.walked) := by rw [walked_merge hplain, hmerge]
  have hrollback' : rollback host io' now' (.hunks rolledBack) s.walked = (.ok o', d₂.walked) := by
    rw [walked_rollback hback, hrollback]
  have hbetween' : Undisturbed d₁.walked s.walked :=
    ⟨congrArg Root.walk hbetween.original, hbetween.workspace, hbetween.manifest, hbetween.before⟩
  exact leftMerged_of_rollback hmerge' hbetween' hrollback'

/-! ## Two files under one name -/

/-- A task whose agent has changed two files of the project, which are saved under one name. -/
def sampleAlike {τ : Type} [Root τ] (original : τ) : DiskOf τ :=
  { sampleTask original with
    workspace := some (.ofTree (sampleTree [(["a", "b"], "agent"), (["a__b"], "base")])) }

def sampleAlikeTree : Tree := sampleTree [(["a", "b"], "base"), (["a__b"], "agent")]

def sampleMerged {τ : Type} [Root τ] (original : τ) (merged : List HunkSelection) : DiskOf τ :=
  (merge sampleSetting.host .healthy 1 (.hunks merged) (sampleAlike original)).2

def sampleRolledBack {τ : Type} [Root τ] (original : τ) (merged rolledBack : List HunkSelection) : DiskOf τ :=
  (rollback sampleSetting.host .healthy 2 (.hunks rolledBack) (sampleMerged original merged)).2

/-- The two files, with a link that leads to the directory of the first one. -/
def sampleAlikeLinked : LinkedRoot where
  tree := sampleAlikeTree
  links := [(["l"], ["a"])]
  apart := by decide +kernel

theorem rollback_leaves_sample_hunk : ∃ m, (sampleAlike sampleAlikeLinked).manifest = some m ∧
    ∀ c ∈ (refreshedManifest sampleSetting.host 1 sampleAlikeTree (sampleAlike sampleAlikeLinked).workspaceTree
        m).changedFiles,
      LeftMerged sampleSetting.host sampleAlikeTree (sampleAlike sampleAlikeLinked).workspaceTree
        (sampleRolledBack sampleAlikeLinked [⟨["a", "b"], 0⟩, ⟨["a", "b"], 1⟩] [⟨["a", "b"], 1⟩]).walked c.path
        (hunksLeft [⟨["a", "b"], 0⟩, ⟨["a", "b"], 1⟩] [⟨["a", "b"], 1⟩] c.path) := by
  generalize hH : ([⟨["a", "b"], 0⟩, ⟨["a", "b"], 1⟩] : List HunkSelection) = hunks
  generalize hD : sampleAlike sampleAlikeLinked = d
  obtain ⟨o, ho⟩ : ∃ o, (merge sampleSetting.host .healthy 1 (.hunks hunks) d).1 = .ok o := by
    subst hH hD
    exact exists_ok_of_not_failed (by decide +kernel)
  obtain ⟨o', ho'⟩ : ∃ o, (rollback sampleSetting.host .healthy 2 (.hunks [⟨["a", "b"], 1⟩])
      (sampleMerged sampleAlikeLinked hunks)).1 = .ok o := by
    subst hH
    exact exists_ok_of_not_failed (by decide +kernel)
  have hmg : merge sampleSetting.host .healthy 1 (.hunks hunks) d = (.ok o, sampleMerged sampleAlikeLinked hunks) :=
    Prod.ext ho (by rw [sampleMerged, hD])
  have hrollback : rollback sampleSetting.host .healthy 2 (.hunks [⟨["a", "b"], 1⟩])
      (sampleMerged sampleAlikeLinked hunks) =
        (.ok o', sampleRolledBack sampleAlikeLinked hunks [⟨["a", "b"], 1⟩]) := Prod.ext ho' (by rw [sampleRolledBack])
  have hlisted : ∀ m ∈ d.manifest, ∀ c ∈ (refreshedManifest sampleSetting.host 1 sampleAlikeTree d.workspaceTree
      m).changedFiles, Unlinked sampleAlikeLinked.links c.path ∧ SnapshotIntact sampleAlikeTree (chosen
        (refreshedManifest sampleSetting.host 1 sampleAlikeTree d.workspaceTree m) (.hunks hunks)) hunks
          [⟨["a", "b"], 1⟩] c.path := by
    subst hH hD
    unfold SnapshotIntact
    decide +kernel
  have hback : ChoosesPlain sampleSetting.host (sampleMerged sampleAlikeLinked hunks)
      (.rollback .healthy 2 (.hunks [⟨["a", "b"], 1⟩])) := by
    subst hH
    have hplain : ∀ m ∈ (sampleMerged sampleAlikeLinked [⟨["a", "b"], 0⟩, ⟨["a", "b"], 1⟩]).manifest,
        ∀ c ∈ chosenToUndo m (.hunks [⟨["a", "b"], 1⟩]), Unlinked
          (sampleMerged sampleAlikeLinked [⟨["a", "b"], 0⟩, ⟨["a", "b"], 1⟩]).original.links c.path := by decide +kernel
    exact fun m hm c hc => plainAt_ofTree (hplain m hm c hc)
  subst hD
  obtain ⟨m, hm, hleft⟩ := rollback_leaves_hunks hmg
    (fun m hm c hc => plainAt_ofTree (hlisted m hm c (mem_of_mem_filter hc)).1) (.refl _) hrollback hback
  refine ⟨m, hm, fun c hc => (hleft _ rfl c hc).1 (hlisted m hm c hc).2 ?_⟩
  exact showsItself_ofTree _ c.path

/-- Two files are merged, and all of the first one is rolled back; it gets the content of the second one. -/
theorem rollback_restores_the_other_file :
    (∃ o, (merge sampleSetting.host .healthy 1 (.hunks [⟨["a", "b"], 0⟩, ⟨["a__b"], 0⟩])
        (sampleAlike sampleAlikeTree)).1 = .ok o) ∧
      (∃ o, (rollback sampleSetting.host .healthy 2 (.hunks [⟨["a", "b"], 0⟩])
        (sampleMerged sampleAlikeTree [⟨["a", "b"], 0⟩, ⟨["a__b"], 0⟩])).1 = .ok o) ∧
      hunksLeft [⟨["a", "b"], 0⟩, ⟨["a__b"], 0⟩] [⟨["a", "b"], 0⟩] ["a", "b"] = [] ∧
      ¬ LeftMerged sampleSetting.host sampleAlikeTree (sampleAlike sampleAlikeTree).workspaceTree
        (sampleRolledBack sampleAlikeTree [⟨["a", "b"], 0⟩, ⟨["a__b"], 0⟩] [⟨["a", "b"], 0⟩]) ["a", "b"] [] := by
  refine ⟨exists_ok_of_not_failed ?_, exists_ok_of_not_failed ?_, ?_, fun hleft => ?_⟩
  · decide +kernel
  · decide +kernel
  · decide +kernel
  · have hfile := (LeftMerged.file_iff_of_nil _ _).mp hleft.file
    revert hfile
    decide +kernel

end CodexStudy.NewCore
