import CodexStudy.Sandbox.Lemmas.WritableRoots

/-!
# Writable roots and the path check

A path that the path check lets through lies in the writable root of its deciding entry.
-/

namespace CodexStudy.Sandbox

open CodexStudy.Lib FileSystemSandboxPolicy
open CodexStudy.ApplyPatch (AbsolutePath)

variable (host : Host) (policy : FileSystemSandboxPolicy) (cwd : Text)

/-- A writable root strictly above the deciding entry lets the path through. -/
def OuterRootOpens (g : ResolvedFileSystemEntry)
    (p : AbsolutePath) : Prop :=
  ∃ r, IsWritableRoot (policy.resolvedEntriesWithCwd host cwd) r ∧ r ≠ g.path ∧ Opens host policy cwd r p

/-- The path lies in a closed metadata directory of its deciding write entry, and an outer root lets it
through. -/
def LeaksThroughOuterRoot (p : AbsolutePath) : Prop :=
  ∃ g, Decides (policy.resolvedEntriesWithCwd host cwd) p g ∧ g.access = .write ∧
    (∃ n ∈ protectedMetadataPathNames, metadataChildOfWritableRoot host (policy.resolvedEntriesWithCwd host cwd) p =
      some (g.path.join host.toProcessEnv n, n)) ∧
    OuterRootOpens host policy cwd g p

/-- The path lies in no closed metadata directory of its deciding write entry, but in a default read-only path
of it, and no outer root lets it through. -/
def HiddenByDefaults (p : AbsolutePath) : Prop :=
  ∃ g, Decides (policy.resolvedEntriesWithCwd host cwd) p g ∧ g.access = .write ∧
    (∀ n ∈ protectedMetadataPathNames, metadataChildOfWritableRoot host (policy.resolvedEntriesWithCwd host cwd) p ≠
      some (g.path.join host.toProcessEnv n, n)) ∧
    (∃ q, DefaultReadOnly host policy cwd g.path q ∧ p.StartsWith q) ∧ ¬ OuterRootOpens host policy cwd g p

section

variable {host : Host} {policy : FileSystemSandboxPolicy} {cwd : Text} {p : AbsolutePath} {g : ResolvedFileSystemEntry}

theorem writeDecides_of_opens {r : AbsolutePath} (hr : IsWritableRoot (policy.resolvedEntriesWithCwd host cwd) r)
    (h : Opens host policy cwd r p) : WriteDecides (policy.resolvedEntriesWithCwd host cwd) p := by
  refine writeDecides_of_not_carved hr (fun q hq hpq => ?_) (AbsolutePath.StartsWith.refl p) h.above
  obtain ⟨e, he, rfl⟩ := hq.ofEntry
  exact hq.notWrite (h.writable e he hpq hq.below)

variable (hg : Decides (policy.resolvedEntriesWithCwd host cwd) p g) (hacc : g.access = .write)

include hg hacc in
theorem opens_deciding_iff :
    Opens host policy cwd g.path p ↔ metadataWriteDenied host (policy.resolvedEntriesWithCwd host cwd) p = false ∧
      ∀ q, DefaultReadOnly host policy cwd g.path q → ¬ p.StartsWith q := by
  constructor
  · intro h
    refine ⟨?_, h.defaults⟩
    rw [← Bool.not_eq_true]
    intro hden
    obtain ⟨n, hn, hm⟩ := (metadataWriteDenied_iff_owner hg hacc).mp hden
    obtain ⟨e, _, _, hch⟩ := mem_metadataChildren.mp (mem_of_metadataChildOfWritableRoot hm)
    have hpn := (metadataChildOf_eq_some.mp hch).2.2
    have hopen := h.metadata n hn hpn
    rw [metadataWriteDenied_join hg hacc hn hpn, hden] at hopen
    cases hopen
  · rintro ⟨hden, hdefaults⟩
    refine ⟨hg.startsWith, fun e he hpe heg => ?_, fun n hn hpn => ?_, hdefaults⟩
    · have heq := (hg.path_le he hpe).antisymm heg
      rw [← heq]
      exact ⟨g, hg.self, hacc⟩
    · rw [metadataWriteDenied_join hg hacc hn hpn, hden]

include hg hacc in
theorem isWritableRoot_deciding :
    IsWritableRoot (policy.resolvedEntriesWithCwd host cwd) g.path :=
  ⟨⟨g, hg.self, hacc⟩, g, hg.mem, rfl⟩

include hg hacc in
theorem exists_opens_iff :
    (∃ r, IsWritableRoot (policy.resolvedEntriesWithCwd host cwd) r ∧ Opens host policy cwd r p) ↔
      Opens host policy cwd g.path p ∨ OuterRootOpens host policy cwd g p := by
  constructor
  · rintro ⟨r, hr, hopen⟩
    by_cases heq : r = g.path
    · exact Or.inl (heq ▸ hopen)
    · exact Or.inr ⟨r, hr, heq, hopen⟩
  · rintro (hopen | ⟨r, hr, _, hopen⟩)
    · exact ⟨g.path, isWritableRoot_deciding hg hacc, hopen⟩
    · exact ⟨r, hr, hopen⟩

include hg hacc in
theorem leaks_iff :
    LeaksThroughOuterRoot host policy cwd p ↔
      metadataWriteDenied host (policy.resolvedEntriesWithCwd host cwd) p = true ∧ OuterRootOpens host policy cwd g p := by
  constructor
  · rintro ⟨g', hg', hacc', hown, hopen⟩
    have hpath := hg'.path_eq hg
    unfold OuterRootOpens at hopen ⊢
    rw [hpath] at hopen
    exact ⟨(metadataWriteDenied_iff_owner hg' hacc').mpr hown, hopen⟩
  · rintro ⟨hden, hopen⟩
    exact ⟨g, hg, hacc, (metadataWriteDenied_iff_owner hg hacc).mp hden, hopen⟩

include hg hacc in
theorem hidden_iff :
    HiddenByDefaults host policy cwd p ↔ metadataWriteDenied host (policy.resolvedEntriesWithCwd host cwd) p = false ∧
        (∃ q, DefaultReadOnly host policy cwd g.path q ∧ p.StartsWith q) ∧ ¬ OuterRootOpens host policy cwd g p := by
  constructor
  · rintro ⟨g', hg', hacc', hown, hdef, hcls⟩
    have hpath := hg'.path_eq hg
    unfold OuterRootOpens at hcls ⊢
    rw [hpath] at hdef hcls
    refine ⟨?_, hdef, hcls⟩
    rw [← Bool.not_eq_true, metadataWriteDenied_iff_owner hg' hacc']
    rintro ⟨n, hn, hm⟩
    exact hown n hn hm
  · rintro ⟨hden, hdef, hcls⟩
    refine ⟨g, hg, hacc, fun n hn hm => ?_, hdef, hcls⟩
    rw [← Bool.not_eq_true, metadataWriteDenied_iff_owner hg hacc] at hden
    exact hden ⟨n, hn, hm⟩

/-- The path check and the writable roots agree exactly if no outer root lets a closed metadata directory
through and no default read-only path closes what the check opens. -/
theorem writable_roots_agree_iff (host : Host) (policy : FileSystemSandboxPolicy) (hkind : policy.kind = .restricted)
    (hfull : policy.hasFullDiskWriteAccess = false) (cwd : Text) (p : AbsolutePath) :
    (policy.canWritePathWithCwd host p.display cwd = true ↔
      ∃ w ∈ policy.getWritableRootsWithCwd host cwd, w.isPathWritable p = true) ↔
    ¬ LeaksThroughOuterRoot host policy cwd p ∧ ¬ HiddenByDefaults host policy cwd p := by
  rw [canWritePathWithCwd_display hkind hfull, exists_isPathWritable_iff hkind hfull]
  by_cases hwr : WriteDecides (policy.resolvedEntriesWithCwd host cwd) p
  · obtain ⟨g, hg, hacc⟩ := hwr
    rw [exists_opens_iff hg hacc, leaks_iff hg hacc, hidden_iff hg hacc, opens_deciding_iff hg hacc,
      and_iff_right ⟨g, hg, hacc⟩]
    cases metadataWriteDenied host (policy.resolvedEntriesWithCwd host cwd) p with
    | true => simp
    | false =>
        simp only [true_and, true_iff, Bool.false_eq_true, false_and, not_false_eq_true, not_and, not_not]
        constructor
        · rintro (hnone | houter) ⟨q, hq, hpq⟩
          · exact absurd hpq (hnone q hq)
          · exact houter
        · intro h
          by_cases hdef : ∃ q, DefaultReadOnly host policy cwd g.path q ∧ p.StartsWith q
          · exact Or.inr (h hdef)
          · exact Or.inl fun q hq hpq => hdef ⟨q, hq, hpq⟩
  · have hno : ¬ ∃ r, IsWritableRoot (policy.resolvedEntriesWithCwd host cwd) r ∧ Opens host policy cwd r p := by
      rintro ⟨r, hr, hopen⟩
      exact hwr (writeDecides_of_opens hr hopen)
    refine iff_of_true (iff_of_false (fun h => hwr h.1) hno) ⟨?_, ?_⟩
    · rintro ⟨g, hg, hacc, _⟩
      exact hwr ⟨g, hg, hacc⟩
    · rintro ⟨g, hg, hacc, _⟩
      exact hwr ⟨g, hg, hacc⟩

end

/-! ## Runs -/

theorem nested_roots_agree : (restricted nestedEntries).canWritePathWithCwd {}
        (AbsolutePath.absolutizeFrom "/w/docs/notes/a" .root).display "/w" = true ↔
      ∃ w ∈ (restricted nestedEntries).getWritableRootsWithCwd {} "/w",
        w.isPathWritable (AbsolutePath.absolutizeFrom "/w/docs/notes/a" .root) = true := by
  refine (writable_roots_agree_iff {} (.restricted nestedEntries) rfl (by decide +kernel) "/w"
    (AbsolutePath.absolutizeFrom "/w/docs/notes/a" .root)).mpr ⟨?_, ?_⟩
  · rintro ⟨g, _, _, ⟨n, _, hown⟩, _⟩
    have hnone : metadataChildOfWritableRoot {} ((restricted nestedEntries).resolvedEntriesWithCwd {} "/w")
        (AbsolutePath.absolutizeFrom "/w/docs/notes/a" .root) = none := by decide +kernel
    rw [hnone] at hown
    cases hown
  · rintro ⟨g, hg, _, _, ⟨q, hq, hpq⟩, _⟩
    have hout : ∀ e ∈ (restricted nestedEntries).resolvedEntriesWithCwd {} "/w",
        ∀ q ∈ defaultReadOnlySubpathsForWritableRoot {} e.path (protectsMissingDotCodex {} "/w" e.path),
          ¬ (AbsolutePath.absolutizeFrom "/w/docs/notes/a" .root).StartsWith q := by decide +kernel
    exact hout g hg.mem q hq.1 hpq

/-- The metadata directory of the inner root is closed, and the outer root lets it through. -/
theorem outer_root_opens_metadata :
    let policy := restricted [pathEntry "/w" .write, pathEntry "/w/sub" .write]
    let p := AbsolutePath.absolutizeFrom "/w/sub/.git/x" .root
    policy.hasFullDiskWriteAccess = false ∧ policy.canWritePathWithCwd {} p.display "/w" = false ∧
      ∃ w ∈ policy.getWritableRootsWithCwd {} "/w", w.isPathWritable p = true :=
  ⟨by decide +kernel, by decide +kernel, by decide +kernel⟩

end CodexStudy.Sandbox
