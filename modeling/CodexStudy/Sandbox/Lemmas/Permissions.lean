import CodexStudy.Sandbox.Permissions

/-!
# The deciding entry
-/

namespace CodexStudy.Sandbox

open CodexStudy.Lib FileSystemSandboxPolicy
open CodexStudy.ApplyPatch (AbsolutePath ProcessEnv IsName)

/-- The entry decides about the path. -/
abbrev Decides (entries : List ResolvedFileSystemEntry) (p : AbsolutePath) (e : ResolvedFileSystemEntry) : Prop :=
  Governs (fun e => e.path.names) ResolvedFileSystemEntry.access entries p.names e

/-- A write entry decides about the path. -/
def WriteDecides (entries : List ResolvedFileSystemEntry) (p : AbsolutePath) : Prop :=
  ∃ e, Decides entries p e ∧ e.access = .write

section

variable {entries entries' : List ResolvedFileSystemEntry} {p q : AbsolutePath} {e f : ResolvedFileSystemEntry}

variable (h : Decides entries p e)

include h in
theorem Decides.startsWith : p.StartsWith e.path := h.above

include h in
theorem Decides.path_le (hf : f ∈ entries) (hfp : p.StartsWith f.path) :
    e.path.StartsWith f.path := by
  have := Governs.path_le h hf hfp
  exact this

include h in
theorem Decides.path_eq (h' : Decides entries p f) : e.path = f.path :=
  AbsolutePath.ext_names (Governs.unique h h').1

include h in
theorem Decides.mono (hq : q.StartsWith e.path) (hqp : p.StartsWith q) :
    Decides entries q e := Governs.mono h hq hqp

theorem exists_decides (he : e ∈ entries) (hep : p.StartsWith e.path) : ∃ f, Decides entries p f :=
  exists_governs he hep

include h in
theorem Decides.none_of_write_beside (hacc : e.access ≠ .write) (hf : f ∈ entries)
    (hpath : f.path = e.path) (hfacc : f.access = .write) : e.access = .none := by
  have hrank := Governs.rank_le h hf (by rw [hpath])
  rw [hfacc] at hrank
  cases hm : e.access with
  | none => rfl
  | write => exact absurd hm hacc
  | read =>
      rw [hm] at hrank
      exact absurd hrank (by decide)

include h in
theorem resolveAccess_of_decides : resolveAccess entries p = e.access := by
  unfold resolveAccess
  rw [mostSpecific?_rank h, Option.getD_some]

theorem resolveAccess_of_forall (h : ∀ e ∈ entries, ¬ p.StartsWith e.path) : resolveAccess entries p = .none := by
  unfold resolveAccess
  rw [mostSpecific?_eq_none.mpr h]
  rfl

theorem decides_of_resolveAccess {a : FileSystemAccessMode} (ha : a ≠ .none) (h : resolveAccess entries p = a) :
    ∃ e, Decides entries p e ∧ e.access = a := by
  by_cases hex : ∃ e ∈ entries, p.StartsWith e.path
  · obtain ⟨e, he, hep⟩ := hex
    obtain ⟨f, hf⟩ := exists_decides he hep
    exact ⟨f, hf, (resolveAccess_of_decides hf).symm.trans h⟩
  · rw [resolveAccess_of_forall fun e he hep => hex ⟨e, he, hep⟩] at h
    exact absurd h.symm ha

theorem resolveAccess_eq_write : resolveAccess entries p = .write ↔ WriteDecides entries p := by
  constructor
  · exact decides_of_resolveAccess nofun
  · rintro ⟨e, he, hacc⟩
    rw [resolveAccess_of_decides he, hacc]

theorem resolveAccess_congr (h : ∀ e, e ∈ entries ↔ e ∈ entries') :
    resolveAccess entries p = resolveAccess entries' p := by
  unfold resolveAccess
  rw [mostSpecific?_rank_congr h]

end

/-! ## Metadata directories -/

section

variable {host : Host} {entries entries' : List ResolvedFileSystemEntry} {p q : AbsolutePath}
  {e : ResolvedFileSystemEntry}

theorem hasExplicitWriteEntry_iff : hasExplicitWriteEntryForMetadataPath entries q p = true ↔
    ∃ e ∈ entries, e.access = .write ∧ p.StartsWith e.path ∧ e.path.StartsWith q := by
  simp [hasExplicitWriteEntryForMetadataPath, and_assoc]

theorem hasExplicitWriteEntry_congr (h : ∀ e, e ∈ entries ↔ e ∈ entries') :
    hasExplicitWriteEntryForMetadataPath entries q p = hasExplicitWriteEntryForMetadataPath entries' q p := by
  rw [Bool.eq_iff_iff, hasExplicitWriteEntry_iff, hasExplicitWriteEntry_iff]
  simp only [h]

def metadataChildren (host : Host) (entries : List ResolvedFileSystemEntry) (target : AbsolutePath) :
    List (AbsolutePath × Text) :=
  (entries.filter fun entry => entry.access.canWrite).filterMap (metadataChildOf host target)

theorem mem_metadataChildren {m : AbsolutePath × Text} : m ∈ metadataChildren host entries p ↔
    ∃ e ∈ entries, e.access = .write ∧ metadataChildOf host p e = some m := by
  simp [metadataChildren, and_assoc]

theorem metadataChildOfWritableRoot_eq_head? :
    metadataChildOfWritableRoot host entries p = (metadataChildren host entries p).head? :=
  (List.head?_filterMap).symm

theorem metadataChildOfWritableRoot_eq_none :
    metadataChildOfWritableRoot host entries p = none ↔ metadataChildren host entries p = [] := by
  rw [metadataChildOfWritableRoot_eq_head?, List.head?_eq_none_iff]

theorem mem_of_metadataChildOfWritableRoot {m : AbsolutePath × Text}
    (h : metadataChildOfWritableRoot host entries p = some m) : m ∈ metadataChildren host entries p := by
  rw [metadataChildOfWritableRoot_eq_head?] at h
  exact List.mem_of_mem_head? h

end

/-! ## Two lists of entries -/

section

variable {entries added merged : List ResolvedFileSystemEntry} {p : AbsolutePath}

theorem decides_of_mem {e : ResolvedFileSystemEntry} (h : Decides merged p e) (he : e ∈ entries)
    (hsub : ∀ x ∈ entries, x ∈ merged) : Decides entries p e :=
  ⟨he, h.above, fun f hf hfp => h.max f (hsub f hf) hfp⟩

theorem merged_canRead (hmem : ∀ x, x ∈ merged ↔ x ∈ entries ∨ x ∈ added) (hadd : ∀ x ∈ added, x.access ≠ .none)
    (h : (resolveAccess entries p).canRead = true) : (resolveAccess merged p).canRead = true := by
  rw [FileSystemAccessMode.canRead_iff] at h ⊢
  obtain ⟨e, he, hacc⟩ := decides_of_resolveAccess h rfl
  obtain ⟨g, hg⟩ := exists_decides ((hmem e).mpr (Or.inl he.mem)) he.startsWith
  rw [resolveAccess_of_decides hg]
  rcases (hmem g).mp hg.mem with hmem' | hmem'
  · have := resolveAccess_of_decides (decides_of_mem hg hmem' fun x hx => (hmem x).mpr (Or.inl hx))
    rwa [← this]
  · exact hadd g hmem'

theorem merged_write_iff (hmem : ∀ x, x ∈ merged ↔ x ∈ entries ∨ x ∈ added) (hadd : ∀ x ∈ added, x.access ≠ .none) :
    (WriteDecides entries p → WriteDecides merged p) ↔
      ∀ e, Decides entries p e → e.access = .write → ∀ x ∈ added, x.access = .read → p.StartsWith x.path →
        e.path.StartsWith x.path ∨ ∃ y ∈ added, y.access = .write ∧ p.StartsWith y.path ∧ y.path.StartsWith x.path := by
  have hsub : ∀ x ∈ entries, x ∈ merged := fun x hx => (hmem x).mpr (Or.inl hx)
  constructor
  · intro hkeep e he hacc x hx _ hxp
    obtain ⟨g, hg, hgacc⟩ := hkeep ⟨e, he, hacc⟩
    have hgx : g.path.StartsWith x.path := hg.path_le ((hmem x).mpr (Or.inr hx)) hxp
    rcases (hmem g).mp hg.mem with hmem' | hmem'
    · exact Or.inl ((he.path_le hmem' hg.startsWith).trans hgx)
    · exact Or.inr ⟨g, hmem', hgacc, hg.startsWith, hgx⟩
  · rintro hcond ⟨e, he, hacc⟩
    obtain ⟨g, hg⟩ := exists_decides (hsub e he.mem) he.startsWith
    refine ⟨g, hg, ?_⟩
    rcases (hmem g).mp hg.mem with hmem' | hmem'
    · rw [← (Governs.unique he (decides_of_mem hg hmem' hsub)).2, hacc]
    · -- An added entry decides. Were it a read entry, a write entry at its path would outrank it.
      cases hgacc : g.access with
      | write => rfl
      | none => exact absurd hgacc (hadd g hmem')
      | read =>
          have hno (y : ResolvedFileSystemEntry) (hy : y ∈ merged) (hyp : p.StartsWith y.path) (hyacc : y.access = .write)
              (hyg : y.path.StartsWith g.path) : False := by
            have heq : y.path = g.path := hyg.antisymm (hg.path_le hy hyp)
            have hrank := Governs.rank_le hg hy (by rw [heq])
            rw [hyacc, hgacc] at hrank
            exact absurd hrank (by decide)
          rcases hcond e he hacc g hmem' hgacc hg.startsWith with hle | ⟨y, hy, hyacc, hyp, hyg⟩
          · exact (hno e (hsub e he.mem) he.startsWith hacc hle).elim
          · exact (hno y ((hmem y).mpr (Or.inr hy)) hyp hyacc hyg).elim

end

/-! ## Restricted policies -/

section

variable {host : Host} {path cwd : Text} {p : AbsolutePath}

theorem canWritePathWithCwd_iff (policy : FileSystemSandboxPolicy) (hkind : policy.kind = .restricted)
    (hfull : policy.hasFullDiskWriteAccess = false) :
    policy.canWritePathWithCwd host path cwd = true ↔ ∃ target, resolveCandidatePath host path cwd = some target ∧
      WriteDecides (policy.resolvedEntriesWithCwd host cwd) target ∧
        metadataWriteDenied host (policy.resolvedEntriesWithCwd host cwd) target = false := by
  unfold canWritePathWithCwd resolveAccessWithCwd
    isMetadataWriteDenied
  rw [hkind, hfull]
  cases hres : resolveCandidatePath host path cwd with
  | none => simp
  | some target => simp [← resolveAccess_eq_write]

@[simp] theorem resolveCandidatePath_display : resolveCandidatePath host p.display cwd = some p := by
  unfold resolveCandidatePath
  rw [if_pos (AbsolutePath.isAbsolute_display p), AbsolutePath.fromAbsolutePath_display]

variable {policy : FileSystemSandboxPolicy}

theorem resolveAccessWithCwd_display (hkind : policy.kind = .restricted) :
    policy.resolveAccessWithCwd host p.display cwd = resolveAccess (policy.resolvedEntriesWithCwd host cwd) p := by
  unfold resolveAccessWithCwd
  rw [hkind, resolveCandidatePath_display]

theorem canReadPathWithCwd_display (hkind : policy.kind = .restricted) :
    policy.canReadPathWithCwd host p.display cwd = (resolveAccess (policy.resolvedEntriesWithCwd host cwd) p).canRead := by
  unfold canReadPathWithCwd
  rw [resolveAccessWithCwd_display hkind]

theorem canWritePathWithCwd_display (hkind : policy.kind = .restricted)
    (hfull : policy.hasFullDiskWriteAccess = false) :
    policy.canWritePathWithCwd host p.display cwd = true ↔ WriteDecides (policy.resolvedEntriesWithCwd host cwd) p ∧
      metadataWriteDenied host (policy.resolvedEntriesWithCwd host cwd) p = false := by
  rw [canWritePathWithCwd_iff policy hkind hfull]
  simp

end

end CodexStudy.Sandbox
