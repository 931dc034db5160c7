import CodexStudy.Core.TurnDiff
import CodexStudy.Lib.Lists

/-!
# The turn diff tracks the files

Whatever changes are tracked, the tracker knows for each path that differs what stood there and what
stands there now, and the rendered diff has one section for it.
-/

namespace CodexStudy.Core

open CodexStudy.Lib CodexStudy.ApplyPatch List AppliedPatchDelta Function Finmap

/-! ## What the changes do to the files -/

abbrev FileMap := AbsolutePath → Option Text

/-- The contents that a change says it has found are those of the files. -/
def Consistent (files : FileMap) (change : AppliedPatchChange) : Prop :=
  match change.change with
  | .add _ overwrittenContent => overwrittenContent = files change.path
  | .delete content => files change.path = some content
  | .update none oldContent _ _ => files change.path = some oldContent
  | .update (some destPath) oldContent overwrittenMoveContent _ =>
      files change.path = some oldContent ∧ overwrittenMoveContent = files destPath

def evolve (files : FileMap) (change : AppliedPatchChange) : FileMap :=
  match change.change with
  | .add content _ => update files change.path (some content)
  | .delete _ => update files change.path none
  | .update none _ _ newContent => update files change.path (some newContent)
  -- The destination is written before the source is removed.
  | .update (some destPath) _ _ newContent =>
      update (update files destPath (some newContent)) change.path none

/-- Each of the changes finds what it says, and together they turn `files` into `files'`. -/
def Evolves : FileMap → List AppliedPatchChange → FileMap → Prop
  | files, [], files' => files' = files
  | files, change :: changes, files' => Consistent files change ∧ Evolves (evolve files change) changes files'

/-- Whether the change moved the file at `p` to its own path; it is there again once `p` is written. -/
def movedOnto (p : AbsolutePath) (gone : Bool) (change : AppliedPatchChange) : Bool :=
  match change.change with
  | .add _ _ | .update none _ _ _ => gone && decide (change.path ≠ p)
  | .delete _ => gone
  | .update (some destPath) _ _ _ =>
      if destPath = p then decide (change.path = p) else gone

variable {files' : FileMap} {path : AbsolutePath} {oldContent : Text}
    {pairs : Finmap fun _ : AbsolutePath => AbsolutePath} {s : DiffSection}

namespace TurnDiffTracker

theorem WalkOrder.nonempty (t : TurnDiffTracker) : Nonempty (WalkOrder t) := by
  refine ⟨{
    baseline := t.baselineByPath.keys.toList
    current := t.currentByPath.keys.toList
    origins := t.originByCurrentPath.entries.toList.map fun e => (e.1, e.2)
    baseline_nodup := Finset.nodup_toList _
    current_nodup := Finset.nodup_toList _
    mem_baseline := fun p => by simp [Finmap.mem_keys]
    mem_current := fun p => by simp [Finmap.mem_keys]
    mem_origins := fun d o => ?_ }⟩
  rw [Finmap.lookup_eq_some_iff, mem_map]
  constructor
  · rintro ⟨⟨d', o'⟩, he, heq⟩
    cases heq
    exact Multiset.mem_toList.mp he
  · intro he
    exact ⟨⟨d, o⟩, Multiset.mem_toList.mpr he, rfl⟩

variable {t : TurnDiffTracker} {files₀ files : FileMap} {p q : AbsolutePath}

/-! ## The invariant -/

def TracksAt (t : TurnDiffTracker) (files₀ files : FileMap) (p : AbsolutePath) : Prop :=
  t.baselineByPath.lookup p = files₀ p ∧ t.currentByPath.lookup p = files p ∨
    t.baselineByPath.lookup p = none ∧ t.currentByPath.lookup p = none ∧ files₀ p = files p

/-- A file that was moved to its own path is still there for the tracker. -/
def FollowsAt (t : TurnDiffTracker) (files₀ files : FileMap) (p : AbsolutePath) : Bool → Prop
  | false => t.TracksAt files₀ files p
  | true => t.baselineByPath.lookup p = files₀ p ∧ (t.currentByPath.lookup p).isSome ∧ files p = none

theorem knows_eq_false : t.knows p = false ↔ t.baselineByPath.lookup p = none ∧ t.currentByPath.lookup p = none := by
  simp [knows, lookup_eq_none, and_comm]

@[simp] theorem noteBaseline_current (content : Option Text) :
    (t.noteBaseline p content).currentByPath = t.currentByPath := by
  unfold noteBaseline
  split
  · split <;> rfl
  · rfl

theorem noteBaseline_of_ne (content : Option Text) (h : q ≠ p) :
    (t.noteBaseline p content).baselineByPath.lookup q = t.baselineByPath.lookup q := by
  unfold noteBaseline
  split
  · split
    · rfl
    · exact lookup_insert_of_ne _ h
  · rfl

theorem noteBaseline_self {gone : Bool} (h : t.FollowsAt files₀ files p gone) :
    (t.noteBaseline p (files p)).baselineByPath.lookup p = files₀ p := by
  unfold noteBaseline
  cases hp : files p with
  | none =>
      cases gone with
      | true => exact h.1
      | false =>
          rcases h with ⟨hbase, -⟩ | ⟨hbase, -, heq⟩
          · exact hbase
          · rw [hbase, heq, hp]
  | some content =>
      have h : t.TracksAt files₀ files p := by
        cases gone with
        | true => exact absurd (h.2.2.symm.trans hp) nofun
        | false => exact h
      dsimp only
      cases hknows : t.knows p with
      | true =>
          rw [if_pos rfl]
          rcases h with ⟨hbase, -⟩ | ⟨hbase, hcur, -⟩
          · exact hbase
          · rw [knows_eq_false.mpr ⟨hbase, hcur⟩] at hknows
            cases hknows
      | false =>
          rw [if_neg (by simp), lookup_insert]
          obtain ⟨hbase, hcur⟩ := knows_eq_false.mp hknows
          rcases h with ⟨-, hcur'⟩ | ⟨-, -, heq⟩
          · rw [hcur', hp] at hcur
            cases hcur
          · rw [heq, hp]

theorem noteBaseline_noteBaseline (content : Text) (content' : Option Text) :
    (t.noteBaseline p (some content)).noteBaseline p content' = t.noteBaseline p (some content) := by
  cases content' with
  | none => rfl
  | some content' =>
      have hknows : (t.noteBaseline p (some content)).knows p = true := by
        unfold noteBaseline
        dsimp only
        cases hknows : t.knows p with
        | true => rw [if_pos rfl]; exact hknows
        | false => simp [knows]
      exact if_pos hknows

theorem followsAt_congr {t' : TurnDiffTracker} {gone : Bool}
    (hbase : t'.baselineByPath.lookup q = t.baselineByPath.lookup q)
    (hcur : t'.currentByPath.lookup q = t.currentByPath.lookup q) (hfs : files' q = files q)
    (h : t.FollowsAt files₀ files q gone) : t'.FollowsAt files₀ files' q gone := by
  cases gone <;> simpa only [FollowsAt, TracksAt, hbase, hcur, hfs] using h

/-! ## One change -/

section

variable {gone : AbsolutePath → Bool}

variable (h : ∀ p, t.FollowsAt files₀ files p (gone p))

include h in
theorem tracksAt_applyAdd (path : AbsolutePath) (content : Text) :
    (t.applyAdd path content (files path)).TracksAt files₀ (update files path (some content)) path := by
  have hpath : FollowsAt { t with originByCurrentPath := t.originByCurrentPath.erase path } files₀ files path (gone path) := by
    have := h path
    cases hgone : gone path <;> rw [hgone] at this <;> exact this
  refine .inl ⟨noteBaseline_self hpath, ?_⟩
  rw [update_self]
  exact lookup_insert _

include h in
theorem tracksAt_applyDelete {content : Text} (hcont : files path = some content) :
    (t.applyDelete path content).TracksAt files₀ (update files path none) path := by
  have hself := noteBaseline_self (h path)
  rw [hcont] at hself
  refine .inl ⟨hself, ?_⟩
  rw [update_self]
  exact lookup_erase _ _

include h in
theorem tracksAt_applyUpdate
    (hcont : files path = some oldContent) (overwritten : Option Text) (newContent : Text) :
    (t.applyUpdate path none oldContent overwritten newContent).TracksAt files₀
      (update files path (some newContent)) path := by
  have hself := noteBaseline_self (h path)
  rw [hcont] at hself
  refine .inl ⟨hself, ?_⟩
  rw [update_self]
  exact lookup_insert _

include h in
theorem followsAt_applyMove {destPath : AbsolutePath}
    (hcont : files path = some oldContent) (newContent : Text) (q : AbsolutePath) :
    (t.applyUpdate path (some destPath) oldContent (files destPath) newContent).FollowsAt files₀
      (update (update files destPath (some newContent)) path none) q
      (if destPath = q then decide (path = q) else gone q) := by
  have hself := noteBaseline_self (h path)
  rw [hcont] at hself
  have hcur : (t.applyUpdate path (some destPath) oldContent (files destPath) newContent).currentByPath =
      (t.currentByPath.erase path).insert destPath newContent := by
    simp only [applyUpdate, noteBaseline_current]
  by_cases hdest : q = destPath
  · subst hdest
    rw [if_pos rfl]
    by_cases hsame : q = path
    · subst hsame
      rw [decide_eq_true rfl]
      refine ⟨?_, ?_, update_self ..⟩
      · change ((t.noteBaseline q (some oldContent)).noteBaseline q (files q)).baselineByPath.lookup q = _
        rw [noteBaseline_noteBaseline]
        exact hself
      · rw [hcur, lookup_insert]
        rfl
    · rw [decide_eq_false (Ne.symm hsame)]
      have hoth : (t.noteBaseline path (some oldContent)).FollowsAt files₀ files q (gone q) :=
        followsAt_congr (noteBaseline_of_ne _ hsame) (by rw [noteBaseline_current]) rfl (h q)
      refine .inl ⟨noteBaseline_self hoth, ?_⟩
      rw [hcur, update_of_ne hsame, update_self]
      exact lookup_insert _
  · rw [if_neg (Ne.symm hdest)]
    by_cases hsrc : q = path
    · subst hsrc
      have htracks : (t.applyUpdate q (some destPath) oldContent (files destPath) newContent).TracksAt files₀
          (update (update files destPath (some newContent)) q none) q := by
        refine .inl ⟨(noteBaseline_of_ne _ hdest).trans hself, ?_⟩
        rw [hcur, lookup_insert_of_ne _ hdest, update_self]
        exact lookup_erase _ _
      cases hgone : gone q with
      | false => exact htracks
      | true =>
          have hq := h q
          rw [hgone] at hq
          exact absurd (hq.2.2.symm.trans hcont) nofun
    · refine followsAt_congr ((noteBaseline_of_ne _ hdest).trans (noteBaseline_of_ne _ hsrc)) ?_ ?_ (h q)
      · rw [hcur, lookup_insert_of_ne _ hdest, lookup_erase_ne hsrc]
      · rw [update_of_ne hsrc, update_of_ne hdest]

include h in
theorem followsAt_applyChange {change : AppliedPatchChange} (hchg : Consistent files change) (q : AbsolutePath) :
    (t.applyChange change).FollowsAt files₀ (evolve files change) q (movedOnto q (gone q) change) := by
  obtain ⟨path, change⟩ := change
  cases change with
  | add content overwritten =>
      obtain rfl : overwritten = files path := hchg
      by_cases hq : q = path
      · subst hq
        rw [movedOnto, decide_eq_false (not_not_intro rfl), Bool.and_false]
        exact tracksAt_applyAdd h q content
      · rw [movedOnto, decide_eq_true (Ne.symm hq), Bool.and_true]
        refine followsAt_congr (noteBaseline_of_ne _ hq) ?_ (update_of_ne hq _ _) (h q)
        exact (lookup_insert_of_ne _ hq).trans (by rw [noteBaseline_current])
  | delete content =>
      by_cases hq : q = path
      · subst hq
        have htracks := tracksAt_applyDelete h hchg
        cases hgone : gone q with
        | false => exact htracks
        | true =>
            have hq := h q
            rw [hgone] at hq
            exact absurd (hq.2.2.symm.trans hchg) nofun
      · refine followsAt_congr (noteBaseline_of_ne _ hq) ?_ (update_of_ne hq _ _) (h q)
        exact (lookup_erase_ne hq).trans (by rw [noteBaseline_current])
  | update movePath oldContent overwritten newContent =>
      cases movePath with
      | none =>
          by_cases hq : q = path
          · subst hq
            rw [movedOnto, decide_eq_false (not_not_intro rfl), Bool.and_false]
            exact tracksAt_applyUpdate h hchg overwritten newContent
          · rw [movedOnto, decide_eq_true (Ne.symm hq), Bool.and_true]
            refine followsAt_congr (noteBaseline_of_ne _ hq) ?_ (update_of_ne hq _ _) (h q)
            exact (lookup_insert_of_ne _ hq).trans (by rw [noteBaseline_current])
      | some destPath =>
          obtain ⟨hcont, hoverwritten⟩ := hchg
          obtain rfl : overwritten = files destPath := hoverwritten
          exact followsAt_applyMove h hcont newContent q

/-! ## All changes -/

theorem followsAt_foldl {changes : List AppliedPatchChange}
    (h : ∀ p, t.FollowsAt files₀ files p (gone p)) (hchgs : Evolves files changes files') (p : AbsolutePath) :
    (changes.foldl applyChange t).FollowsAt files₀ files' p (changes.foldl (movedOnto p) (gone p)) := by
  induction changes generalizing t files gone with
  | nil => rw [hchgs]; exact h p
  | cons change changes ih => exact ih (followsAt_applyChange h hchgs.1) hchgs.2

end

theorem foldl_trackDelta {deltas : List AppliedPatchDelta} (h : ∀ delta ∈ deltas, delta.exact = true) :
    deltas.foldl trackDelta t = (deltas.flatMap changes).foldl applyChange t := by
  induction deltas generalizing t with
  | nil => rfl
  | cons delta deltas ih =>
      rw [foldl_cons, ih fun d hd => h d (mem_cons_of_mem _ hd), flatMap_cons, foldl_append,
        trackDelta, if_pos (h delta mem_cons_self)]

theorem applyChange_valid (change : AppliedPatchChange) : (t.applyChange change).valid = t.valid := by
  have hnote : ∀ (t : TurnDiffTracker) p content, (t.noteBaseline p content).valid = t.valid := by
    intro t p content
    unfold noteBaseline
    split
    · split <;> rfl
    · rfl
  obtain ⟨path, change⟩ := change
  cases change with
  | add content overwritten => simp only [applyChange, applyAdd, hnote]
  | delete content => simp only [applyChange, applyDelete, hnote]
  | update movePath oldContent overwritten newContent =>
      cases movePath with
      | none => simp only [applyChange, applyUpdate, hnote]
      | some destPath => simp only [applyChange, applyUpdate, hnote]

theorem foldl_applyChange_valid (changes : List AppliedPatchChange) : (changes.foldl applyChange t).valid = t.valid := by
  induction changes generalizing t with
  | nil => rfl
  | cons change changes ih => rw [foldl_cons, ih, applyChange_valid]

/-! ## Renames -/

section

variable (order : WalkOrder t) {o d : AbsolutePath}

structure Renamed (t : TurnDiffTracker) (o d : AbsolutePath) : Prop where
  origin : t.originByCurrentPath.lookup d = some o
  rename : t.isRename d o = true

theorem renamed_of_lookup (h : (t.renamePairs order).lookup o = some d) : t.Renamed o d := by
  have hfold : ∀ (entries : List (AbsolutePath × AbsolutePath)) (pairs : Finmap fun _ : AbsolutePath => AbsolutePath),
      (∀ e ∈ entries, e ∈ order.origins) → (∀ o d, pairs.lookup o = some d → t.Renamed o d) →
      ∀ o d, (entries.foldl (fun pairs e => if t.isRename e.1 e.2 then pairs.insert e.2 e.1 else pairs) pairs).lookup o =
        some d → t.Renamed o d := by
    intro entries
    induction entries with
    | nil => exact fun pairs _ hpairs => hpairs
    | cons e entries ih =>
        intro pairs hmem hpairs
        refine ih _ (fun e' he' => hmem e' (mem_cons_of_mem _ he')) ?_
        intro o d hlk
        dsimp only at hlk
        split at hlk
        · rename_i hrename
          by_cases ho : o = e.2
          · subst ho
            rw [lookup_insert] at hlk
            cases hlk
            exact ⟨(order.mem_origins _ _).mp (hmem e mem_cons_self), hrename⟩
          · rw [lookup_insert_of_ne _ ho] at hlk
            exact hpairs o d hlk
        · exact hpairs o d hlk
  exact hfold order.origins ∅ (fun e he => he) (fun o d hlk => by simp at hlk) o d h

theorem Renamed.isRename_iff (h : t.Renamed o d) :
    o ∉ t.currentByPath ∧ d ∈ t.currentByPath ∧ o ∈ t.baselineByPath ∧ d ∉ t.baselineByPath := by
  have hrename := h.rename
  simp only [isRename, Bool.and_eq_true, decide_eq_true_eq, Bool.not_eq_true', decide_eq_false_iff_not] at hrename
  obtain ⟨⟨⟨⟨-, ho⟩, hd⟩, hob⟩, hdb⟩ := hrename
  exact ⟨ho, hd, hob, hdb⟩

theorem mem_pairedDestinations : d ∈ order.pairedDestinations ↔ ∃ o, (t.renamePairs order).lookup o = some d := by
  simp only [WalkOrder.pairedDestinations, mem_filterMap, Option.ite_none_right_eq_some, Option.some.injEq]
  constructor
  · rintro ⟨⟨d', o⟩, -, hlk, rfl⟩
    exact ⟨o, hlk⟩
  · rintro ⟨o, hlk⟩
    exact ⟨(d, o), (order.mem_origins d o).mpr (renamed_of_lookup order hlk).origin, hlk, rfl⟩

theorem mem_paths : p ∈ order.paths ↔ p ∈ t.baselineByPath ∨ p ∈ t.currentByPath := by
  rw [WalkOrder.paths, mem_destutter_ne, mem_insertionSort, mem_append, order.mem_baseline, order.mem_current]

end

/-! ## Sections -/

def sectionAt (t : TurnDiffTracker) (format : DiffFormat) (pairs : Finmap fun _ : AbsolutePath => AbsolutePath)
    (path : AbsolutePath) : Option DiffSection :=
  match pairs.lookup path with
  | some dest => t.renderRenameDiff format path dest
  | none => t.renderPathDiff format path

theorem renderPaths_eq (format : DiffFormat)
    {paired : List AbsolutePath} (hpd : ∀ o d, pairs.lookup o = some d → d ∈ paired) (paths handled : List AbsolutePath) :
    ∃ visited : List AbsolutePath, t.renderPaths format pairs paired paths handled =
        visited.filterMap (t.sectionAt format pairs) ∧ visited.Nodup ∧
      ∀ q, q ∈ visited ↔ q ∈ paths ∧ q ∉ handled ∧ q ∉ paired := by
  induction paths generalizing handled with
  | nil => exact ⟨[], rfl, nodup_nil, by simp⟩
  | cons path paths ih =>
      rw [renderPaths]
      by_cases hhandled : path ∈ handled
      · rw [if_pos hhandled]
        obtain ⟨visited, heq, hnd, hmem⟩ := ih handled
        refine ⟨visited, heq, hnd, fun q => (hmem q).trans ?_⟩
        constructor
        · rintro ⟨hq, hrest⟩
          exact ⟨mem_cons_of_mem _ hq, hrest⟩
        · rintro ⟨hq, hno, hrest⟩
          rcases mem_cons.mp hq with rfl | hq
          · exact absurd hhandled hno
          · exact ⟨hq, hno, hrest⟩
      · rw [if_neg hhandled]
        by_cases hdest : path ∈ paired
        · rw [if_pos hdest]
          obtain ⟨visited, heq, hnd, hmem⟩ := ih (path :: handled)
          refine ⟨visited, heq, hnd, fun q => (hmem q).trans ?_⟩
          constructor
          · rintro ⟨hq, hno, hrest⟩
            exact ⟨mem_cons_of_mem _ hq, fun h => hno (mem_cons_of_mem _ h), hrest⟩
          · rintro ⟨hq, hno, hrest⟩
            have hne : q ≠ path := by rintro rfl; exact hrest hdest
            exact ⟨(mem_cons.mp hq).resolve_left hne, by simp [hne, hno], hrest⟩
        · rw [if_neg hdest]
          -- The path is visited; a destination that is handled with it is not visited anyway.
          have hvisit : ∀ (extra : List AbsolutePath) (visited : List AbsolutePath), (∀ q ∈ extra, q ∈ paired) →
              visited.Nodup → (∀ q, q ∈ visited ↔ q ∈ paths ∧ q ∉ extra ++ path :: handled ∧ q ∉ paired) →
              (path :: visited).Nodup ∧ ∀ q, q ∈ path :: visited ↔ q ∈ path :: paths ∧ q ∉ handled ∧ q ∉ paired := by
            intro extra visited hextra hnd hmem
            refine ⟨nodup_cons.mpr ⟨fun h => ((hmem path).mp h).2.1 (by simp), hnd⟩, fun q => ?_⟩
            rw [mem_cons, hmem, mem_cons]
            constructor
            · rintro (rfl | ⟨hq, hno, hrest⟩)
              · exact ⟨.inl rfl, hhandled, hdest⟩
              · exact ⟨.inr hq, fun h => hno (by simp [h]), hrest⟩
            · rintro ⟨hq, hno, hrest⟩
              by_cases hpath : q = path
              · exact .inl hpath
              · refine .inr ⟨hq.resolve_left hpath, ?_, hrest⟩
                intro h
                rcases mem_append.mp h with h | h
                · exact hrest (hextra q h)
                · exact hno ((mem_cons.mp h).resolve_left hpath)
          cases hlk : pairs.lookup path with
          | some dest =>
              obtain ⟨visited, heq, hnd, hmem⟩ := ih (dest :: path :: handled)
              obtain ⟨hnd', hmem'⟩ := hvisit [dest] visited
                (fun q hq => by rw [mem_singleton.mp hq]; exact hpd path dest hlk) hnd hmem
              refine ⟨path :: visited, ?_, hnd', hmem'⟩
              have hsection : t.sectionAt format pairs path = t.renderRenameDiff format path dest := by
                rw [sectionAt, hlk]
              dsimp only
              rw [heq, filterMap_cons, hsection]
              cases t.renderRenameDiff format path dest <;> rfl
          | none =>
              obtain ⟨visited, heq, hnd, hmem⟩ := ih (path :: handled)
              obtain ⟨hnd', hmem'⟩ := hvisit [] visited (by simp) hnd hmem
              refine ⟨path :: visited, ?_, hnd', hmem'⟩
              have hsection : t.sectionAt format pairs path = t.renderPathDiff format path := by
                rw [sectionAt, hlk]
              dsimp only
              rw [heq, filterMap_cons, hsection]
              cases t.renderPathDiff format path <;> rfl

theorem length_filter_filterMap {f : AbsolutePath → Option DiffSection} {c : DiffSection → Bool}
    {visited : List AbsolutePath} {rep : AbsolutePath} (hnd : visited.Nodup) (hmem : rep ∈ visited)
    (hrep : ∃ s, f rep = some s ∧ c s = true) (hoth : ∀ q ∈ visited, q ≠ rep → ∀ s, f q = some s → c s = false) :
    ((visited.filterMap f).filter c).length = 1 := by
  obtain ⟨pre, post, rfl⟩ := append_of_mem hmem
  have hnone : ∀ qs : List AbsolutePath, (∀ q ∈ qs, q ∈ pre ++ rep :: post ∧ q ≠ rep) →
      (qs.filterMap f).filter c = [] := by
    intro qs hqs
    rw [filter_eq_nil_iff]
    intro s hs
    obtain ⟨q, hq, hf⟩ := mem_filterMap.mp hs
    rw [hoth q (hqs q hq).1 (hqs q hq).2 s hf]
    simp
  obtain ⟨s, hs, hc⟩ := hrep
  rw [nodup_append] at hnd
  obtain ⟨-, hpost, hdisjoint⟩ := hnd
  have hpre := hnone pre fun q hq => ⟨by simp [hq], hdisjoint q hq rep mem_cons_self⟩
  have hpost := hnone post fun q hq => ⟨by simp [hq], fun h => (nodup_cons.mp hpost).1 (h ▸ hq)⟩
  rw [filterMap_append, filterMap_cons, hs, filter_append, hpre, nil_append]
  dsimp only
  rw [filter_cons_of_pos hc, hpost]
  rfl

theorem renderDiff_isSome (format : DiffFormat) (left right : AbsolutePath) {l r : Option Text} (h : l ≠ r) :
    (t.renderDiff format left l right r).isSome = true := by
  unfold renderDiff
  rw [if_neg h]
  rfl

def covers (p : AbsolutePath) (s : DiffSection) : Bool := decide (s.left = p) || decide (s.right = p)

theorem sectionAt_paths {format : DiffFormat}
    (h : t.sectionAt format pairs q = some s) :
    s.left = q ∧ (pairs.lookup q = some s.right ∨ pairs.lookup q = none ∧ s.right = q) := by
  unfold sectionAt at h
  split at h
  · rename_i dest hdest
    obtain ⟨diff, -, rfl⟩ := Option.map_eq_some_iff.mp h
    exact ⟨rfl, .inl hdest⟩
  · rename_i hdest
    obtain ⟨diff, -, rfl⟩ := Option.map_eq_some_iff.mp h
    exact ⟨rfl, .inr ⟨hdest, rfl⟩⟩

theorem covers_of_tracksAt (h : ∀ p, t.TracksAt files₀ files p) (format : DiffFormat) (order : WalkOrder t)
    (hdiffers : files₀ p ≠ files p) : ((t.sections format order).filter (covers p)).length = 1 ∨
      ∃ o d, (t.renamePairs order).lookup o = some d ∧ files₀ o = files d ∧ (p = o ∨ p = d) := by
  obtain ⟨visited, hsections, hnd, hmem⟩ := renderPaths_eq (t := t) format
    (fun o d hod => (mem_pairedDestinations order).mpr ⟨o, hod⟩) order.paths []
  have hboth : t.baselineByPath.lookup p = files₀ p ∧ t.currentByPath.lookup p = files p := by
    rcases h p with hp | ⟨-, -, heq⟩
    · exact hp
    · exact absurd heq hdiffers
  have hknown : p ∈ order.paths := by
    rw [mem_paths]
    by_contra hno
    obtain ⟨hbase, hcur⟩ := not_or.mp hno
    rw [← lookup_eq_none] at hbase hcur
    exact hdiffers (by rw [← hboth.1, ← hboth.2, hbase, hcur])
  -- What a renamed path and its destination held and hold.
  have hends : ∀ o d, (t.renamePairs order).lookup o = some d →
      t.baselineByPath.lookup o = files₀ o ∧ t.currentByPath.lookup d = files d := by
    intro o d hod
    obtain ⟨-, hd, ho, -⟩ := (renamed_of_lookup order hod).isRename_iff
    refine ⟨?_, ?_⟩
    · rcases h o with ⟨hbase, -⟩ | ⟨hbase, -, -⟩
      · exact hbase
      · exact absurd ho (lookup_eq_none.mp hbase)
    · rcases h d with ⟨-, hcur⟩ | ⟨-, hcur, -⟩
      · exact hcur
      · exact absurd hd (lookup_eq_none.mp hcur)
  have hrename : ∀ o d, (t.renamePairs order).lookup o = some d → p = o ∨ p = d →
      ((t.sections format order).filter (covers p)).length = 1 ∨
        ∃ o d, (t.renamePairs order).lookup o = some d ∧ files₀ o = files d ∧ (p = o ∨ p = d) := by
    intro o d hod hp
    by_cases hsame : files₀ o = files d
    · exact .inr ⟨o, d, hod, hsame, hp⟩
    · left
      obtain ⟨hbase, hcur⟩ := hends o d hod
      obtain ⟨hno, hd, ho, hnb⟩ := (renamed_of_lookup order hod).isRename_iff
      have hvisited : o ∈ visited := by
        refine (hmem o).mpr ⟨(mem_paths order).mpr (.inl ho), by simp, ?_⟩
        intro hpd
        obtain ⟨o', ho'⟩ := (mem_pairedDestinations order).mp hpd
        exact hno (renamed_of_lookup order ho').isRename_iff.2.1
      rw [sections, hsections]
      refine length_filter_filterMap hnd hvisited ?_ ?_
      · have hsome := renderDiff_isSome (t := t) format o d
          (l := t.baselineByPath.lookup o) (r := t.currentByPath.lookup d) (by rw [hbase, hcur]; exact hsame)
        obtain ⟨diff, hdiff⟩ := Option.isSome_iff_exists.mp hsome
        refine ⟨⟨o, d, diff⟩, ?_, ?_⟩
        · rw [sectionAt, hod]
          dsimp only
          rw [renderRenameDiff, hdiff]
          rfl
        · rcases hp with rfl | rfl
          · simp [covers]
          · simp [covers]
      · intro q hq hne s hs
        obtain ⟨hleft, hright⟩ := sectionAt_paths hs
        obtain ⟨-, -, hqpaired⟩ := (hmem q).mp hq
        have hqd : q ≠ d := by
          rintro rfl
          exact hqpaired ((mem_pairedDestinations order).mpr ⟨o, hod⟩)
        -- The section of another path has neither `o` nor `d` on its sides.
        have hr : s.right ≠ o ∧ s.right ≠ d := by
          rcases hright with hpair | ⟨-, hright⟩
          · refine ⟨?_, ?_⟩
            · intro hro
              rw [hro] at hpair
              exact hno (renamed_of_lookup order hpair).isRename_iff.2.1
            · intro hrd
              rw [hrd] at hpair
              have horigin := (renamed_of_lookup order hpair).origin
              rw [(renamed_of_lookup order hod).origin] at horigin
              exact hne (Option.some.inj horigin).symm
          · rw [hright]
            exact ⟨hne, hqd⟩
        rcases hp with rfl | rfl
        · simp [covers, hleft, hne, hr.1]
        · simp [covers, hleft, hqd, hr.2]
  by_cases hpd : p ∈ order.pairedDestinations
  · obtain ⟨o, hod⟩ := (mem_pairedDestinations order).mp hpd
    exact hrename o p hod (.inr rfl)
  · cases hlk : (t.renamePairs order).lookup p with
    | some d => exact hrename p d hlk (.inl rfl)
    | none =>
        left
        rw [sections, hsections]
        refine length_filter_filterMap hnd ((hmem p).mpr ⟨hknown, by simp, hpd⟩) ?_ ?_
        · have hsome := renderDiff_isSome (t := t) format p p
            (l := t.baselineByPath.lookup p) (r := t.currentByPath.lookup p) (by rw [hboth.1, hboth.2]; exact hdiffers)
          obtain ⟨diff, hdiff⟩ := Option.isSome_iff_exists.mp hsome
          refine ⟨⟨p, p, diff⟩, ?_, by simp [covers]⟩
          rw [sectionAt, hlk]
          dsimp only
          rw [renderPathDiff, hdiff]
          rfl
        · intro q hq hne s hs
          obtain ⟨hleft, hright⟩ := sectionAt_paths hs
          have hr : s.right ≠ p := by
            rcases hright with hpair | ⟨-, hright⟩
            · intro hrp
              rw [hrp] at hpair
              exact hpd ((mem_pairedDestinations order).mpr ⟨q, hpair⟩)
            · rw [hright]
              exact hne
          simp [covers, hleft, hne, hr]

theorem sections_paths (format : DiffFormat) (order : WalkOrder t)
    (hs : s ∈ t.sections format order) : s.left = s.right ∨ (t.renamePairs order).lookup s.left = some s.right := by
  obtain ⟨visited, hsections, -, -⟩ := renderPaths_eq (t := t) format
    (fun o d hod => (mem_pairedDestinations order).mpr ⟨o, hod⟩) order.paths []
  rw [sections, hsections] at hs
  obtain ⟨q, -, hs⟩ := mem_filterMap.mp hs
  obtain ⟨hleft, hpair | ⟨-, hright⟩⟩ := sectionAt_paths hs
  · exact .inr (by rw [hleft]; exact hpair)
  · exact .inl (by rw [hleft, hright])

/-- What stood at a path that differs and what stands there now is known, nothing else is held, and one section shows
the path, unless it is an end of a rename that keeps the content. -/
structure TurnTracked (files₀ files : FileMap) (t : TurnDiffTracker) (format : DiffFormat) (order : t.WalkOrder) :
    Prop where
  differs : ∀ p, files₀ p ≠ files p → t.baselineByPath.lookup p = files₀ p ∧ t.currentByPath.lookup p = files p
  baseline : ∀ p c, t.baselineByPath.lookup p = some c → files₀ p = some c
  current : ∀ p c, t.currentByPath.lookup p = some c → files p = some c
  paths : ∀ s ∈ t.sections format order, s.left = s.right ∨ (t.renamePairs order).lookup s.left = some s.right
  shown : ∀ p, files₀ p ≠ files p → ((t.sections format order).filter (covers p)).length = 1 ∨
    ∃ o d, (t.renamePairs order).lookup o = some d ∧ files₀ o = files d ∧ (p = o ∨ p = d)

theorem turnTracked_of_tracksAt (h : ∀ p, t.TracksAt files₀ files p) (format : DiffFormat) (order : WalkOrder t) :
    TurnTracked files₀ files t format order where
  differs p hp := (h p).resolve_right fun hno => hp hno.2.2
  baseline p c hc := by
    rcases h p with ⟨hbase, -⟩ | ⟨hbase, -, -⟩
    · rw [← hbase, hc]
    · rw [hbase] at hc
      cases hc
  current p c hc := by
    rcases h p with ⟨-, hcurrent⟩ | ⟨-, hcurrent, -⟩
    · rw [← hcurrent, hc]
    · rw [hcurrent] at hc
      cases hc
  paths _ hs := sections_paths format order hs
  shown _ hp := covers_of_tracksAt h format order hp

end TurnDiffTracker

open TurnDiffTracker in
/-- After exact deltas consistent with the files, in whatever order the maps are walked, the turn is tracked exactly
when no file was moved to its own path and so lost. -/
theorem turn_diff_tracks_files {files₀ files : FileMap} {deltas : List AppliedPatchDelta}
    (hexact : ∀ delta ∈ deltas, delta.exact = true)
    (hchanges : Evolves files₀ (deltas.flatMap changes) files) (displayRoot : Option AbsolutePath)
    (format : DiffFormat) (order : WalkOrder (deltas.foldl trackDelta { displayRoot })) :
    (deltas.foldl trackDelta { displayRoot }).valid = true ∧
      (TurnTracked files₀ files (deltas.foldl trackDelta { displayRoot }) format order ↔
        ∀ p, (deltas.flatMap changes).foldl (movedOnto p) false = false) := by
  have ht := @foldl_trackDelta { displayRoot } _ hexact
  have hfollows : ∀ p, (deltas.foldl trackDelta { displayRoot }).FollowsAt files₀ files p
      ((deltas.flatMap changes).foldl (movedOnto p) false) := by
    rw [ht]
    exact @followsAt_foldl _ _ _ _ (fun _ => false) _
      (fun p => .inr ⟨lookup_empty p, lookup_empty p, rfl⟩) hchanges
  refine ⟨by rw [ht, foldl_applyChange_valid], fun htracked p => ?_, fun hgone => ?_⟩
  · by_contra hgone
    have hp := hfollows p
    rw [Bool.eq_true_of_not_eq_false hgone] at hp
    obtain ⟨c, hc⟩ := Option.isSome_iff_exists.mp hp.2.1
    exact absurd ((htracked.current p c hc).symm.trans hp.2.2) nofun
  · refine turnTracked_of_tracksAt (fun p => ?_) format order
    have hp := hfollows p
    rw [hgone p] at hp
    exact hp

/-! ## A turn -/

def samplePath (name : Text) (h : IsName name := by decide) : AbsolutePath := ⟨[name], by simpa using h⟩

def sampleFilesBefore : FileMap := update (fun _ => none) (samplePath ['a']) (some "x\n")

/-- The file `/a` is moved to `/b`, written again, and moved to `/b` over the first copy. -/
def sampleDeltas : List AppliedPatchDelta :=
  [⟨[⟨samplePath ['a'], .update (some (samplePath ['b'])) "x\n" none "y\n"⟩], true⟩,
   ⟨[⟨samplePath ['a'], .add "z\n" none⟩,
     ⟨samplePath ['a'], .update (some (samplePath ['b'])) "z\n" (some "y\n") "w\n"⟩], true⟩]

open TurnDiffTracker in
theorem sample_turn_is_tracked : (sampleDeltas.foldl trackDelta { displayRoot := none }).valid = true ∧
      (sampleDeltas.foldl trackDelta { displayRoot := none }).baselineByPath.lookup (samplePath ['a']) =
        sampleFilesBefore (samplePath ['a']) := by
  obtain ⟨order⟩ := WalkOrder.nonempty (sampleDeltas.foldl trackDelta { displayRoot := none })
  have hchanges : Evolves sampleFilesBefore (sampleDeltas.flatMap changes) _ :=
    ⟨⟨by decide +kernel, by decide +kernel⟩, by unfold Consistent; decide +kernel, ⟨by decide +kernel, by decide +kernel⟩,
      rfl⟩
  obtain ⟨hvalid, htracked⟩ :=
    turn_diff_tracks_files (by simp [sampleDeltas]) hchanges none ⟨id, fun _ _ _ _ => []⟩ order
  refine ⟨hvalid, ((htracked.mpr fun p => ?_).differs (samplePath ['a']) (by decide +kernel)).1⟩
  by_cases hp : samplePath ['b'] = p
  · subst hp
    decide +kernel
  · simp [sampleDeltas, movedOnto, hp]

/-- A file that is moved to its own path is gone, and the tracker has it still. -/
theorem moved_onto_itself_is_lost :
    ∃ (deltas : List AppliedPatchDelta) (files : FileMap), (∀ delta ∈ deltas, delta.exact = true) ∧
      Evolves sampleFilesBefore (deltas.flatMap changes) files ∧
      ∀ format order, ¬ TurnDiffTracker.TurnTracked sampleFilesBefore files
        (deltas.foldl TurnDiffTracker.trackDelta { displayRoot := none }) format order := by
  refine ⟨[⟨[⟨samplePath ['a'], .update (some (samplePath ['a'])) "x\n" (some "x\n") "y\n"⟩], true⟩], _, by simp,
    ⟨⟨by decide +kernel, by decide +kernel⟩, rfl⟩, fun format order htracked => ?_⟩
  have h := htracked.current (samplePath ['a']) "y\n" (by decide +kernel)
  revert h
  decide +kernel

end CodexStudy.Core
