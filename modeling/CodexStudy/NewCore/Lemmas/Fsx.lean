import CodexStudy.NewCore.Engine

/-!
# What one write to the original root changes
-/

namespace CodexStudy.NewCore

open CodexStudy.Lib FileTree Option

/-! ## Hashes -/

variable {sha256 : Content → Text} {c : Option Content} {q : RelPath} {ws : Workspace} {host : Host}

theorem hashText_eq_none : hashText sha256 c = none ↔ c = none := by
  cases c <;> simp [hashText]

theorem hashText_inj {S : Set Content} (hS : Set.InjOn sha256 S) {c' : Option Content}
    (hc : ∀ x ∈ c, x ∈ S) (hc' : ∀ x ∈ c', x ∈ S) (h : hashText sha256 c = hashText sha256 c') : c = c' := by
  cases c with
  | none => exact (hashText_eq_none.mp h.symm).symm
  | some x =>
      cases c' with
      | none => simp [hashText] at h
      | some y =>
          simp only [hashText, map_some, some.injEq, List.append_cancel_left_eq] at h
          rw [hS (hc x rfl) (hc' y rfl) h]

theorem fileHash_eq_ok {pt : IoPoint} {t : Tree} {path : RelPath} {h : Option Text} :
    fileHash sha256 pt t path = .ok h ↔ t.passable path.dropLast = true ∧ h = hashText sha256 (t.file? path) := by
  have hlstat : Root.lstat? t path = if t.passable path.dropLast then some (t.file? path) else none := rfl
  unfold fileHash
  rw [hlstat]
  cases t.passable path.dropLast with
  | true => simp [eq_comm]
  | false => simp

theorem checkedJoin_eq_ok {path : RelPath} : checkedJoin path = .ok q ↔ ".." ∉ path ∧ q = path := by
  unfold checkedJoin
  split
  · rename_i h; simp_all
  · rename_i h; simp_all [eq_comm]

theorem orIo_eq_ok {pt : IoPoint} {o : Option Tree} {t : Tree} : orIo pt o = .ok t ↔ o = some t := by
  cases o <;> simp [orIo]

/-- Whether the workspace is a worktree does not depend on the original root: no link is named `.git`. -/
theorem unifiedDiff_eq {τ τ' : Type} [Root τ] [Root τ'] (host : Host) (ws : Workspace) (t : τ) (t' : τ') :
    unifiedDiff host ws t' = unifiedDiff host ws t := by
  have hfree : ws.links.lookup ".git" = none := by
    rw [← Option.not_isSome_iff_eq_none]
    exact fun hlink => absurd (ws.linked ".git" hlink) (by decide)
  have hresolve : ws.resolve [".git"] = .inl [".git"] := by rw [Workspace.resolve, hfree]
  unfold unifiedDiff Workspace.present
  rw [hresolve]

/-! ## The effect of a change at one path -/

structure ChangesAt (p : RelPath) (t t' : Tree) : Prop where
  source : t.node? p ≠ some .dir
  target : t'.node? p ≠ some .dir
  frame : ∀ q, q ≠ p → t'.file? q = t.file? q
  keepDir : ∀ q, t.node? q = some .dir → t'.node? q = some .dir
  newDir : ∀ q, t'.node? q = some .dir → t.node? q = some .dir ∨ q <+: p

namespace ChangesAt

variable {p : RelPath} {t t' : Tree}

theorem of_absent (h : t.node? p = none) : ChangesAt p t t where
  source := by rw [h]; simp
  target := by rw [h]; simp
  frame := fun _ _ => rfl
  keepDir := fun _ hq => hq
  newDir := fun _ hq => .inl hq

theorem of_writeAll {c : Content} (h : t.writeAll p c = some t') : ChangesAt p t t' := by
  have hn := writeAll_node? h
  obtain ⟨t₁, h₁, h₂⟩ := bind_eq_some_iff.mp h
  have hw : t₁.writable p := write_isSome.mp (by rw [h₂]; rfl)
  have hsrc : t.node? p ≠ some .dir := by
    intro hd
    apply hw.2.1
    rw [createDirAll_node? h₁, hd]
    split <;> rfl
  refine ⟨hsrc, ?_, ?_, ?_, ?_⟩
  · rw [hn, if_pos rfl]; simp
  · intro q hq
    rw [writeAll_file? h, if_neg hq]
  · intro q hq
    have hqp : q ≠ p := by rintro rfl; exact hsrc hq
    rw [hn, if_neg hqp, hq]
    split <;> rfl
  · intro q hq
    rw [hn] at hq
    split at hq
    · cases hq
    · split at hq
      · rename_i hpre
        exact .inr (hpre.trans ( List.dropLast_prefix p))
      · exact .inl hq

theorem of_removeFile (h : t.removeFile p = some t') : ChangesAt p t t' := by
  have hn := removeFile_node? h
  have hsrc : t.node? p ≠ some .dir := by
    intro hd
    have hf : (t.file? p).isSome := removeFile_isSome.mp (by rw [h]; rfl)
    rw [file?_eq_none_of_dir hd] at hf
    cases hf
  refine ⟨hsrc, ?_, ?_, ?_, ?_⟩
  · rw [hn, if_pos rfl]; simp
  · intro q hq
    rw [removeFile_file? h, if_neg hq]
  · intro q hq
    have hqp : q ≠ p := by rintro rfl; exact hsrc hq
    rw [hn, if_neg hqp, hq]
  · intro q hq
    rw [hn] at hq
    split at hq
    · cases hq
    · exact .inl hq

end ChangesAt

section

variable {pt : IoPoint} {t t' : Tree} {path : RelPath}

theorem removeIfPresent_changesAt (h : removeIfPresent pt t path = .ok t') : ChangesAt path t t' := by
  unfold removeIfPresent at h
  split at h
  · exact .of_removeFile (orIo_eq_ok.mp h)
  · rename_i hp
    cases h
    exact .of_absent (by simpa [present] using hp)

theorem removeIfPresent_file? (h : removeIfPresent pt t path = .ok t') : t'.file? path = none := by
  unfold removeIfPresent at h
  split at h
  · rw [removeFile_file? (orIo_eq_ok.mp h), if_pos rfl]
  · rename_i hp
    cases h
    exact file?_eq_none_of_none (by simpa [present] using hp)

variable (pt) in
theorem removeIfPresent_ok (hd : t.node? path ≠ some .dir) : ∃ t', removeIfPresent pt t path = .ok t' := by
  unfold removeIfPresent
  split
  · rename_i hp
    have hf : (t.file? path).isSome := by
      rw [isSome_iff_ne_none]
      intro hn
      rw [present_tree, present, node?_eq_none_of_file? hn hd] at hp
      cases hp
    obtain ⟨t', ht'⟩ := isSome_iff_exists.mp (removeFile_isSome.mpr hf)
    exact ⟨t', by rw [removeFile_tree, ht']; rfl⟩
  · exact ⟨t, rfl⟩

theorem copyFileOrRemove_changesAt (h : copyFileOrRemove pt ws t path = .ok t') :
    ChangesAt path t t' := by
  obtain ⟨q, hq, hcopy⟩ := except_bind_eq_ok.mp h
  obtain ⟨-, rfl⟩ := checkedJoin_eq_ok.mp hq
  split at hcopy
  · exact .of_writeAll (orIo_eq_ok.mp hcopy)
  · exact removeIfPresent_changesAt hcopy

theorem applySelectedHunks_changesAt {selections : List HunkSelection}
    (hsel : (selections.any fun s => s.path = path) = true)
    (h : applySelectedHunks host pt ws t path selections = .ok t') : ChangesAt path t t' := by
  have hne : (selections.filter fun s => s.path = path).map HunkSelection.hunkIndex ≠ [] := by
    simp only [List.any_eq_true, decide_eq_true_eq] at hsel
    simpa [List.filter_eq_nil_iff] using hsel
  unfold applySelectedHunks at h
  rw [if_neg hne] at h
  obtain ⟨q, hq, hbody⟩ := except_bind_eq_ok.mp h
  obtain ⟨-, rfl⟩ := checkedJoin_eq_ok.mp hq
  split at hbody
  · obtain ⟨unified, -, hfile⟩ := except_bind_eq_ok.mp hbody
    split at hfile
    · obtain ⟨lines, -, hlns⟩ := except_bind_eq_ok.mp hfile
      obtain ⟨merged, -, hwr⟩ := except_bind_eq_ok.mp hlns
      exact .of_writeAll (orIo_eq_ok.mp hwr)
    · exact copyFileOrRemove_changesAt hfile
  · exact removeIfPresent_changesAt hbody

theorem mergedTree_changesAt {hunks : List HunkSelection}
    (h : mergedTree host hunks ws t path = .ok t') : ChangesAt path t t' := by
  unfold mergedTree at h
  split at h
  · rename_i hsel
    exact applySelectedHunks_changesAt hsel h
  · exact copyFileOrRemove_changesAt h

/-! ## Snapshots -/

namespace SnapshotDir

variable {dir : SnapshotDir}

def saved (dir : SnapshotDir) (path : RelPath) : Option Content :=
  if dir.missing (encodePath path) then none else dir.blob (encodePath path)

theorem saved_snapshotFile (path : RelPath) (source : Option Content) :
    (dir.snapshotFile path source).saved path = source := by
  cases source <;> simp [saved, snapshotFile]

theorem saved_snapshotFile_of_ne (source : Option Content)
    (h : encodePath q ≠ encodePath path) : (dir.snapshotFile path source).saved q = dir.saved q := by
  simp [saved, snapshotFile, h]

theorem restoreSnapshot_eq (hpath : ".." ∉ path) :
    dir.restoreSnapshot pt t path =
      match dir.saved path with
      | some c => orIo pt (t.writeAll path c)
      | none => removeIfPresent pt t path := by
  have hj : checkedJoin path = .ok path := checkedJoin_eq_ok.mpr ⟨hpath, rfl⟩
  unfold restoreSnapshot saved
  rw [hj]
  change (if _ then _ else _) = _
  split
  · rfl
  · rfl

theorem restoreSnapshot_changesAt (h : dir.restoreSnapshot pt t path = .ok t') : ChangesAt path t t' := by
  obtain ⟨q, hq, -⟩ := except_bind_eq_ok.mp h
  obtain ⟨hpath, -⟩ := checkedJoin_eq_ok.mp hq
  rw [restoreSnapshot_eq hpath] at h
  split at h
  · exact .of_writeAll (orIo_eq_ok.mp h)
  · exact removeIfPresent_changesAt h

variable (pt dir) in
theorem restoreSnapshot_ok (hpath : ".." ∉ path) (hd : t.node? path ≠ some .dir)
    (hp : t.passable path.dropLast = true) :
    ∃ t', dir.restoreSnapshot pt t path = .ok t' ∧ ChangesAt path t t' ∧ t'.file? path = dir.saved path := by
  rw [restoreSnapshot_eq hpath]
  rcases hs : dir.saved path with _ | c
  · obtain ⟨t', ht'⟩ := removeIfPresent_ok pt hd
    exact ⟨t', ht', removeIfPresent_changesAt ht', removeIfPresent_file? ht'⟩
  · have hne : path ≠ [] := by rintro rfl; simp at hd
    obtain ⟨t', ht'⟩ := isSome_iff_exists.mp
      (writeAll_isSome (c := c) hne hd (passable_iff.mp hp))
    refine ⟨t', orIo_eq_ok.mpr ht', .of_writeAll ht', ?_⟩
    rw [writeAll_file? ht', if_pos rfl]

end SnapshotDir

end

end CodexStudy.NewCore
