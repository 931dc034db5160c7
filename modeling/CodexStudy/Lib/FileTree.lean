import Mathlib.Data.Finmap
import Mathlib.Data.List.Sort
import Mathlib.Data.List.Infix
import Mathlib.Tactic.Common

/-!
# Trees of files and directories

A tree is a finite map from paths to nodes.
-/

namespace CodexStudy.Lib

open List Option

/-- What stands at a path. -/
inductive Node (κ : Type) where
  | file (content : κ)
  | dir
  deriving DecidableEq, Repr

section

variable {ν κ : Type} [DecidableEq ν]

def nodeAt (m : Finmap fun _ : List ν => Node κ) (p : List ν) : Option (Node κ) :=
  if p = [] then some .dir else m.lookup p

variable (ν κ) in
structure FileTree where
  nodes : Finmap fun _ : List ν => Node κ
  rootless : nodes.lookup [] = none
  closed : ∀ p n, nodeAt nodes (p ++ [n]) ≠ none → nodeAt nodes p = some .dir

theorem nodeAt_insert (m : Finmap fun _ : List ν => Node κ) {p q : List ν} {x : Node κ} (hp : p ≠ []) :
    nodeAt (m.insert p x) q = if q = p then some x else nodeAt m q := by
  unfold nodeAt
  by_cases hq : q = p
  · subst hq; simp [hp]
  · simp [hq, Finmap.lookup_insert_of_ne]

theorem nodeAt_erase (m : Finmap fun _ : List ν => Node κ) {p q : List ν} (hp : p ≠ []) :
    nodeAt (m.erase p) q = if q = p then none else nodeAt m q := by
  unfold nodeAt
  by_cases hq : q = p
  · subst hq; simp [hp]
  · simp [hq, Finmap.lookup_erase_ne]

namespace FileTree

def empty : FileTree ν κ where
  nodes := ∅
  rootless := Finmap.lookup_empty []
  closed := by intro p n h; simp [nodeAt] at h

variable (t : FileTree ν κ) (p : List ν)

def node? : Option (Node κ) := nodeAt t.nodes p

def file? : Option κ :=
  match t.node? p with
  | some (.file c) => some c
  | _ => none

def present : Bool := (t.node? p).isSome

variable {p : List ν} {t t' : FileTree ν κ} {c : κ}

theorem file?_eq_some : t.file? p = some c ↔ t.node? p = some (.file c) := by
  unfold file?
  split <;> simp_all

theorem file?_eq_none_of_dir (h : t.node? p = some .dir) : t.file? p = none := by
  simp [file?, h]

theorem file?_eq_none_of_none (h : t.node? p = none) : t.file? p = none := by
  simp [file?, h]

theorem node?_eq_none_of_file? (h : t.file? p = none) (hd : t.node? p ≠ some .dir) : t.node? p = none := by
  rcases hn : t.node? p with _ | c | _
  · rfl
  · rw [file?_eq_some.mpr hn] at h; cases h
  · exact absurd hn hd

theorem present_of_file? (h : t.file? p = some c) : t.present p = true := by
  simp [present, file?_eq_some.mp h]

@[simp] theorem node?_root (t : FileTree ν κ) : t.node? [] = some .dir := by simp [node?, nodeAt]

theorem dir_of_prefix (t : FileTree ν κ) {q : List ν} (hq : t.node? q ≠ none) (hpq : p <+: q)
    (hne : p ≠ q) : t.node? p = some .dir := by
  obtain ⟨r, rfl⟩ := hpq
  -- Induction on the part of the path below `p`: its last name has a directory above it.
  induction r using reverseRecOn with
  | nil => simp at hne
  | append_singleton r n ih =>
      have hd : t.node? (p ++ r) = some .dir := t.closed (p ++ r) n (by rwa [append_assoc])
      by_cases hr : r = []
      · subst hr; simpa using hd
      · exact ih (by rw [hd]; simp) (by simpa using hr)

/-! ## Creating directories -/

/-- The map with a directory at each of the paths `ps` where nothing stood. -/
def addDirs (m : Finmap fun _ : List ν => Node κ) : List (List ν) → Finmap fun _ : List ν => Node κ
  | [] => m
  | p :: ps => addDirs (if nodeAt m p = none then m.insert p .dir else m) ps

theorem nodeAt_addDirs (ps : List (List ν)) (m : Finmap fun _ : List ν => Node κ) (q : List ν) :
    nodeAt (addDirs m ps) q = if q ∈ ps ∧ nodeAt m q = none then some .dir else nodeAt m q := by
  induction ps generalizing m with
  | nil => simp [addDirs]
  | cons p ps ih =>
      rw [addDirs, ih]
      split
      · rename_i hp
        have hp' : p ≠ [] := by rintro rfl; simp [nodeAt] at hp
        rw [nodeAt_insert m hp']
        by_cases hq : q = p
        · subst hq; simp [hp]
        · simp [hq]
      · rename_i hp
        by_cases hq : q = p
        · subst hq; simp [hp]
        · simp [hq]

theorem addDirs_rootless (ps : List (List ν)) {m : Finmap fun _ : List ν => Node κ}
    (h : m.lookup [] = none) : (addDirs m ps).lookup [] = none := by
  induction ps generalizing m with
  | nil => exact h
  | cons p ps ih =>
      rw [addDirs]
      split
      · rename_i hp
        refine ih ?_
        have hp' : p ≠ [] := by rintro rfl; simp [nodeAt] at hp
        rwa [Finmap.lookup_insert_of_ne _ hp'.symm]
      · exact ih h

def passable (t : FileTree ν κ) (p : List ν) : Bool := p.inits.all fun q => (t.file? q).isNone

theorem passable_iff : t.passable p = true ↔ ∀ q, q <+: p → t.file? q = none := by
  simp [passable]

def createDirAll (t : FileTree ν κ) (p : List ν) : Option (FileTree ν κ) :=
  if h : t.passable p = true then
    some
      { nodes := addDirs t.nodes p.inits
        rootless := addDirs_rootless _ t.rootless
        closed := by
          intro r n hrn
          have hdir : ∀ q, q <+: p → nodeAt t.nodes q ≠ none → nodeAt t.nodes q = some .dir := by
            intro q hq hne
            by_contra hd
            exact hne (node?_eq_none_of_file? (passable_iff.mp h q hq) hd)
          rw [nodeAt_addDirs] at hrn ⊢
          simp only [mem_inits] at hrn ⊢
          split at hrn
          · rename_i hpre
            have hr : r <+: p := (prefix_append r [n]).trans hpre.1
            by_cases hnone : nodeAt t.nodes r = none
            · simp [hr, hnone]
            · simp [hdir r hr hnone]
          · have := t.closed r n hrn
            simp [this] }
  else none

theorem createDirAll_isSome : (t.createDirAll p).isSome ↔ ∀ q, q <+: p → t.file? q = none := by
  rw [← passable_iff]
  unfold createDirAll
  split <;> simp_all

theorem createDirAll_node? (h : t.createDirAll p = some t')
    (q : List ν) : t'.node? q = if q <+: p then some .dir else t.node? q := by
  unfold createDirAll at h
  split at h
  · rename_i hp
    cases h
    simp only [node?, nodeAt_addDirs, mem_inits]
    by_cases hq : q <+: p
    · by_cases hn : nodeAt t.nodes q = none
      · simp [hq, hn]
      · have hd : nodeAt t.nodes q = some .dir := by
          by_contra hd
          exact hn (node?_eq_none_of_file? (passable_iff.mp hp q hq) hd)
        simp [hq, hd]
    · simp [hq]
  · cases h

theorem createDirAll_file? (h : t.createDirAll p = some t') (q : List ν) : t'.file? q = t.file? q := by
  have hn := createDirAll_node? h q
  by_cases hq : q <+: p
  · have hs : (t.createDirAll p).isSome := by simp [h]
    rw [createDirAll_isSome.mp hs q hq]
    exact file?_eq_none_of_dir (by rw [hn, if_pos hq])
  · rw [if_neg hq] at hn
    simp [file?, hn]

/-! ## Writing and removing files -/

def writable (t : FileTree ν κ) (p : List ν) : Prop :=
  p ≠ [] ∧ t.node? p ≠ some .dir ∧ t.node? p.dropLast = some .dir

instance [DecidableEq κ] (t : FileTree ν κ) (p : List ν) : Decidable (t.writable p) :=
  inferInstanceAs (Decidable (_ ∧ _ ∧ _))

def write [DecidableEq κ] (t : FileTree ν κ) (p : List ν) (c : κ) : Option (FileTree ν κ) :=
  if h : t.writable p then
    some
      { nodes := t.nodes.insert p (.file c)
        rootless := by rw [Finmap.lookup_insert_of_ne _ h.1.symm]; exact t.rootless
        closed := by
          intro r n hrn
          obtain ⟨hp, hnd, hpar⟩ := h
          rw [nodeAt_insert _ hp] at hrn ⊢
          by_cases hr : r = p
          · subst hr
            rw [if_neg (by simp)] at hrn
            exact absurd (t.closed r n hrn) hnd
          · rw [if_neg hr]
            by_cases hrn' : r ++ [n] = p
            · rw [← hrn', dropLast_concat] at hpar; exact hpar
            · rw [if_neg hrn'] at hrn; exact t.closed r n hrn }
  else none

def removeFile (t : FileTree ν κ) (p : List ν) : Option (FileTree ν κ) :=
  if h : (t.file? p).isSome then
    some
      { nodes := t.nodes.erase p
        rootless := by
          by_cases hp : [] = p
          · rw [← hp]; exact Finmap.lookup_erase [] t.nodes
          · rw [Finmap.lookup_erase_ne hp]; exact t.rootless
        closed := by
          intro r n hrn
          obtain ⟨c, hc⟩ := isSome_iff_exists.mp h
          have hf := file?_eq_some.mp hc
          have hp : p ≠ [] := by rintro rfl; simp at hf
          rw [nodeAt_erase _ hp] at hrn ⊢
          by_cases hr : r = p
          · subst hr
            rw [if_neg (by simp)] at hrn
            have := t.closed r n hrn
            rw [node?, this] at hf; cases hf
          · rw [if_neg hr]
            by_cases hrn' : r ++ [n] = p
            · simp [hrn'] at hrn
            · rw [if_neg hrn'] at hrn; exact t.closed r n hrn }
  else none

theorem removeFile_isSome : (t.removeFile p).isSome ↔ (t.file? p).isSome := by
  unfold removeFile
  split <;> simp_all

theorem removeFile_node? (h : t.removeFile p = some t') (q : List ν) :
    t'.node? q = if q = p then none else t.node? q := by
  unfold removeFile at h
  split at h
  · rename_i hf
    cases h
    have hp : p ≠ [] := by rintro rfl; simp [file?] at hf
    exact nodeAt_erase _ hp
  · cases h

theorem removeFile_file? (h : t.removeFile p = some t') (q : List ν) :
    t'.file? q = if q = p then none else t.file? q := by
  have hn := removeFile_node? h q
  by_cases hq : q = p
  · rw [if_pos hq] at hn ⊢; exact file?_eq_none_of_none hn
  · rw [if_neg hq] at hn ⊢; simp [file?, hn]

variable [DecidableEq κ]

theorem write_isSome : (t.write p c).isSome ↔ t.writable p := by
  unfold write
  split <;> simp_all

theorem write_node? (h : t.write p c = some t') (q : List ν) :
    t'.node? q = if q = p then some (.file c) else t.node? q := by
  unfold write at h
  split at h
  · rename_i hw
    cases h
    exact nodeAt_insert _ hw.1
  · cases h

theorem write_file? (h : t.write p c = some t') (q : List ν) :
    t'.file? q = if q = p then some c else t.file? q := by
  have hn := write_node? h q
  by_cases hq : q = p
  · rw [if_pos hq] at hn ⊢; exact file?_eq_some.mpr hn
  · rw [if_neg hq] at hn ⊢; simp [file?, hn]

def removeDir (t : FileTree ν κ) (p : List ν) : Option (FileTree ν κ) :=
  if h : p ≠ [] ∧ t.node? p = some .dir ∧ ∀ q ∈ t.nodes.keys, p <+: q → q = p then
    some
      { nodes := t.nodes.erase p
        rootless := by rw [Finmap.lookup_erase_ne h.1.symm]; exact t.rootless
        closed := by
          intro r n hrn
          obtain ⟨hp, _, hempty⟩ := h
          rw [nodeAt_erase _ hp] at hrn ⊢
          by_cases hrn' : r ++ [n] = p
          · simp [hrn'] at hrn
          · rw [if_neg hrn'] at hrn
            have hr : r ≠ p := by
              rintro rfl
              rw [nodeAt, if_neg (by simp)] at hrn
              have hmem := Finmap.mem_keys.mpr (Finmap.lookup_isSome.mp (isSome_iff_ne_none.mpr hrn))
              simpa using hempty _ hmem (prefix_append r [n])
            rw [if_neg hr]
            exact t.closed r n hrn }
  else none

theorem removeDir_file? (h : t.removeDir p = some t') (q : List ν) : t'.file? q = t.file? q := by
  unfold removeDir at h
  split at h
  · rename_i hp
    cases h
    have hn := nodeAt_erase t.nodes (q := q) hp.1
    by_cases hq : q = p
    · subst hq
      rw [if_pos rfl] at hn
      rw [file?_eq_none_of_dir hp.2.1]
      exact file?_eq_none_of_none hn
    · rw [if_neg hq] at hn
      simp only [file?, node?]
      rw [hn]
  · cases h

def writeAll (t : FileTree ν κ) (p : List ν) (c : κ) : Option (FileTree ν κ) :=
  (t.createDirAll p.dropLast).bind fun t' => t'.write p c

theorem writeAll_file? (h : t.writeAll p c = some t')
    (q : List ν) : t'.file? q = if q = p then some c else t.file? q := by
  obtain ⟨t₁, h₁, h₂⟩ := bind_eq_some_iff.mp h
  rw [write_file? h₂, createDirAll_file? h₁]

theorem writeAll_node? (h : t.writeAll p c = some t') (q : List ν) : t'.node? q =
      if q = p then some (.file c) else if q <+: p.dropLast then some .dir else t.node? q := by
  obtain ⟨t₁, h₁, h₂⟩ := bind_eq_some_iff.mp h
  rw [write_node? h₂, createDirAll_node? h₁]

theorem writeAll_isSome (hp : p ≠ []) (hd : t.node? p ≠ some .dir) (hf : ∀ q, q <+: p.dropLast → t.file? q = none) :
    (t.writeAll p c).isSome := by
  obtain ⟨t₁, h₁⟩ := isSome_iff_exists.mp (createDirAll_isSome.mpr hf)
  have hnp : ¬ p <+: p.dropLast := by
    intro h
    have := h.length_le
    have := length_pos_iff.mpr hp
    simp only [length_dropLast] at *
    omega
  have hw : t₁.writable p := by
    refine ⟨hp, ?_, ?_⟩
    · rw [createDirAll_node? h₁, if_neg hnp]; exact hd
    · rw [createDirAll_node? h₁, if_pos (prefix_refl _)]
  simp only [writeAll, h₁, bind_some]
  exact write_isSome.mpr hw

/-! ## The part of a tree at some of its paths, and one tree laid over another -/

def filterKeys {β : Type} (m : Finmap fun _ : List ν => β) (keep : List ν → Bool) : Finmap fun _ : List ν => β where
  entries := m.entries.filter fun e => keep e.1
  nodupKeys := Multiset.nodup_keys.mp
    (Multiset.nodup_of_le (Multiset.map_le_map (Multiset.filter_le _ _)) (Multiset.nodup_keys.mpr m.nodupKeys))

omit [DecidableEq κ] in
theorem lookup_filterKeys (m : Finmap fun _ : List ν => Node κ) (keep : List ν → Bool) (p : List ν) :
    (filterKeys m keep).lookup p = if keep p then m.lookup p else none := by
  apply ext
  intro x
  rw [Finmap.lookup_eq_some_iff]
  simp only [filterKeys, Multiset.mem_filter]
  by_cases hk : keep p
  · rw [if_pos hk, Finmap.lookup_eq_some_iff]; simp [hk]
  · rw [if_neg hk]; simp [hk]

def restrict (t : FileTree ν κ) (keep : List ν → Bool) (hkeep : ∀ p n, keep (p ++ [n]) = true → keep p = true) :
    FileTree ν κ where
  nodes := filterKeys t.nodes keep
  rootless := by rw [lookup_filterKeys, t.rootless, ite_self]
  closed := by
    intro p n h
    unfold nodeAt at h ⊢
    rw [if_neg (by simp), lookup_filterKeys] at h
    by_cases hp : p = []
    · simp [hp]
    · rw [if_neg hp, lookup_filterKeys]
      split at h
      · rename_i hk
        rw [if_pos (hkeep p n hk)]
        have := t.closed p n (by rw [nodeAt, if_neg (by simp)]; exact h)
        simpa [nodeAt, hp] using this
      · exact absurd rfl h

omit [DecidableEq κ] in
theorem restrict_node? (t : FileTree ν κ) (keep : List ν → Bool) (hkeep) {p : List ν} (hp : p ≠ []) :
    (t.restrict keep hkeep).node? p = if keep p then t.node? p else none := by
  simp only [node?, nodeAt, if_neg hp]
  exact lookup_filterKeys _ _ _

omit [DecidableEq κ] in
theorem restrict_file? (t : FileTree ν κ) (keep : List ν → Bool) (hkeep) (p : List ν) :
    (t.restrict keep hkeep).file? p = if keep p then t.file? p else none := by
  by_cases hp : p = []
  · subst hp; simp [file?]
  · unfold file?
    rw [restrict_node? t keep hkeep hp]
    split <;> simp_all

def compatible (t u : FileTree ν κ) : Bool :=
  decide (∀ p ∈ t.nodes.keys, t.node? p ≠ none → u.node? p ≠ none →
    ((t.node? p = some .dir) ↔ (u.node? p = some .dir)))

def overlay (t u : FileTree ν κ) : Option (FileTree ν κ) :=
  if h : t.compatible u = true then
    some
      { nodes := t.nodes ∪ u.nodes
        rootless := by
          rw [Finmap.lookup_union_right (Finmap.lookup_eq_none.mp t.rootless)]; exact u.rootless
        closed := by
          have hmem : ∀ q, q ≠ [] → nodeAt t.nodes q ≠ none → q ∈ t.nodes := by
            intro q hq hn
            rw [nodeAt, if_neg hq] at hn
            by_contra hc
            exact hn (Finmap.lookup_eq_none.mpr hc)
          have hun : ∀ q, nodeAt (t.nodes ∪ u.nodes) q =
              if nodeAt t.nodes q = none then nodeAt u.nodes q else nodeAt t.nodes q := by
            intro q
            by_cases hq : q = []
            · simp [nodeAt, hq]
            · split
              · rename_i hn
                simp only [nodeAt, if_neg hq] at hn ⊢
                exact Finmap.lookup_union_right (Finmap.lookup_eq_none.mp hn)
              · rename_i hn
                have := hmem q hq hn
                simp only [nodeAt, if_neg hq]
                exact Finmap.lookup_union_left this
          have hcompat := of_decide_eq_true h
          intro p n hpn
          rw [hun] at hpn ⊢
          split at hpn
          · -- The node comes from `u`, so `u` has a directory above it, and `t` has no file there.
            have hu := u.closed p n hpn
            split
            · exact hu
            · rename_i hne
              by_cases hp : p = []
              · simp [nodeAt, hp]
              · exact (hcompat p (Finmap.mem_keys.mpr (hmem p hp hne)) hne (by rw [node?, hu]; simp)).mpr hu
          · rename_i hne
            have ht := t.closed p n hne
            rw [ht]; simp }
  else none

theorem overlay_node? {u v : FileTree ν κ} (h : t.overlay u = some v) (p : List ν) :
    v.node? p = if t.node? p = none then u.node? p else t.node? p := by
  unfold overlay at h
  split at h
  · cases h
    by_cases hp : p = []
    · simp [hp]
    · simp only [node?, nodeAt, if_neg hp]
      split
      · rename_i hn
        exact Finmap.lookup_union_right (Finmap.lookup_eq_none.mp hn)
      · rename_i hn
        refine Finmap.lookup_union_left ?_
        by_contra hc
        exact hn (Finmap.lookup_eq_none.mpr hc)
  · cases h

/-! ## Listing the files -/

omit [DecidableEq κ] in
theorem mem_keys_of_file? (h : t.file? p = some c) : p ∈ t.nodes.keys := by
  have hn := file?_eq_some.mp h
  have hp : p ≠ [] := by rintro rfl; simp at hn
  rw [node?, nodeAt, if_neg hp] at hn
  exact Finmap.mem_keys.mpr (Finmap.mem_of_lookup_eq_some hn)

def filePaths (t : FileTree ν κ) : Finset (List ν) := t.nodes.keys.filter fun p => (t.file? p).isSome

omit [DecidableEq κ] in
@[simp] theorem mem_filePaths : p ∈ t.filePaths ↔ (t.file? p).isSome := by
  simp only [filePaths, Finset.mem_filter, and_iff_right_iff_imp]
  intro h
  obtain ⟨c, hc⟩ := isSome_iff_exists.mp h
  exact mem_keys_of_file? hc

def ofFiles (fs : List (List ν × κ)) : Option (FileTree ν κ) :=
  fs.foldlM (fun t f => t.writeAll f.1 f.2) empty

end FileTree

end

/-! ## The elements of a finite set in order -/

def sorted {α : Type} (r : α → α → Prop) [DecidableRel r] [IsTrans α r] [Std.Antisymm r] [Std.Total r]
    (s : Finset α) : List α :=
  Quot.lift (fun l => l.insertionSort r)
    (fun a b h => List.Perm.eq_of_pairwise' (pairwise_insertionSort r a)
      (pairwise_insertionSort r b)
      (((perm_insertionSort r a).trans h).trans (perm_insertionSort r b).symm))
    s.val

section

variable {α : Type} {r : α → α → Prop} [DecidableRel r] [IsTrans α r] [Std.Antisymm r] [Std.Total r]

@[simp] theorem mem_sorted {s : Finset α} {a : α} : a ∈ sorted r s ↔ a ∈ s := by
  obtain ⟨⟨l⟩, hl⟩ := s
  change a ∈ l.insertionSort r ↔ _
  rw [mem_insertionSort]
  rfl

theorem nodup_sorted (s : Finset α) : (sorted r s).Nodup := by
  obtain ⟨⟨l⟩, hl⟩ := s
  exact (perm_insertionSort r l).nodup_iff.mpr hl

end

end CodexStudy.Lib
