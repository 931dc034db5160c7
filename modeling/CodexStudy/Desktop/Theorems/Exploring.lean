import CodexStudy.Desktop.Lemmas.PrepareItems
import CodexStudy.Lib.Lists
import CodexStudy.Lib.Transition

/-!
# Exploring commands that are shown

Every command that has been reported has a tool item, or an explore item shows its entries, as long as no report replaces
an explore item that also shows another command.
-/

namespace CodexStudy.Desktop

open CodexStudy.Lib JsString List Option

/-! ## File names -/

section

variable {path s name : JsString} {u : UInt16}

theorem fileNameOf_slash (hu : isSlash u = true) : fileNameOf (u :: path) = fileNameOf path := by
  unfold fileNameOf
  rw [splitOnP_cons_eq_if_modifyHead, if_pos hu]
  rfl

theorem fileNameOf_cons (h : fileNameOf path = some name) : ∃ name', fileNameOf (u :: path) = some name' ∧ name <:+ name' := by
  by_cases hu : isSlash u = true
  · exact ⟨name, (fileNameOf_slash hu).trans h, suffix_rfl⟩
  · unfold fileNameOf at h ⊢
    rw [splitOnP_cons_eq_if_modifyHead, if_neg hu]
    cases hpts : path.splitOnP isSlash with
    | nil => exact absurd hpts (splitOnP_ne_nil isSlash path)
    | cons first rest =>
        rw [hpts] at h
        rw [modifyHead_cons, filter_cons_of_pos (by simp)]
        cases hrest : (rest.filter (· ≠ [])).getLast? with
        | some last =>
            obtain ⟨front, hfro⟩ := getLast?_eq_some_iff.mp hrest
            refine ⟨last, ?_, ?_⟩
            · rw [hfro, ← cons_append, getLast?_concat]
            · have hlast : ((first :: rest).filter (· ≠ [])).getLast? = some last := by
                by_cases hfst : first = []
                · rw [filter_cons_of_neg (by simp [hfst]), hrest]
                · rw [filter_cons_of_pos (by simp [hfst]), hfro, ← cons_append, getLast?_concat]
              exact some.inj (hlast.symm.trans h) ▸ suffix_rfl
        | none =>
            rw [getLast?_eq_none_iff] at hrest
            refine ⟨u :: first, by rw [hrest]; rfl, ?_⟩
            by_cases hfst : first = []
            · rw [filter_cons_of_neg (by simp [hfst]), hrest] at h
              cases h
            · rw [filter_cons_of_pos (by simp [hfst]), hrest] at h
              exact some.inj h ▸ suffix_cons u first

theorem fileNameOf_append (h : fileNameOf path = some name) :
    ∃ name', fileNameOf (s ++ path) = some name' ∧ name <:+ name' := by
  induction s with
  | nil => exact ⟨name, h, suffix_rfl⟩
  | cons u s ih =>
      obtain ⟨name', hname', hsuf⟩ := ih
      obtain ⟨name'', hname'', hsuf'⟩ := fileNameOf_cons (u := u) hname'
      exact ⟨name'', hname'', hsuf.trans hsuf'⟩

theorem not_isSlash_of_mem_splitOnP {part : JsString} (h : part ∈ path.splitOnP isSlash) :
    ∀ u ∈ part, isSlash u = false := by
  induction path generalizing part with
  | nil =>
      rw [splitOnP_nil, mem_singleton] at h
      exact h ▸ fun u hu => (by cases hu)
  | cons v path ih =>
      rw [splitOnP_cons_eq_if_modifyHead] at h
      split at h
      next =>
        rcases mem_cons.mp h with rfl | h
        · exact fun u hu => (by cases hu)
        · exact ih h
      next hv =>
        cases hpts : path.splitOnP isSlash with
        | nil => exact absurd hpts (splitOnP_ne_nil isSlash path)
        | cons first rest =>
            rw [hpts, modifyHead_cons] at h
            rcases mem_cons.mp h with rfl | h
            · intro u hu
              rcases mem_cons.mp hu with rfl | hu
              · exact Bool.eq_false_iff.mpr hv
              · exact ih (hpts ▸ mem_cons_self) u hu
            · exact ih (hpts ▸ mem_cons_of_mem _ h)

theorem fileNameOf_some (h : fileNameOf path = some name) : name ≠ [] ∧ ∀ u ∈ name, isSlash u = false := by
  obtain ⟨hmem, hne⟩ := mem_filter.mp (mem_of_getLast? h)
  exact ⟨of_decide_eq_true hne, not_isSlash_of_mem_splitOnP hmem⟩

theorem fileNameOf_of_no_slash (hpath : path ≠ []) (h : ∀ u ∈ path, isSlash u = false) : fileNameOf path = some path := by
  unfold fileNameOf
  rw [splitOnP_eq_singleton h, filter_cons_of_pos (by simp [hpath])]
  rfl

theorem isSlash_of_fileNameOf_none (h : fileNameOf path = none) : ∀ u ∈ path, isSlash u = true := by
  intro u hu
  by_contra hslash
  obtain ⟨front, back, rfl⟩ := append_of_mem hu
  have hst : fileNameOf (u :: back) ≠ none := by
    unfold fileNameOf
    rw [splitOnP_cons_eq_if_modifyHead, if_neg hslash]
    cases hpts : back.splitOnP isSlash with
    | nil => exact absurd hpts (splitOnP_ne_nil isSlash back)
    | cons first rest =>
        rw [modifyHead_cons, filter_cons_of_pos (by simp)]
        exact fun hnone => cons_ne_nil _ _ (getLast?_eq_none_iff.mp hnone)
  obtain ⟨name, hname⟩ := ne_none_iff_exists'.mp hst
  obtain ⟨name', hname', -⟩ := fileNameOf_append (s := front) hname
  cases h.symm.trans hname'

/-! ## Entries have their own keys -/

def ExploreEntry.WellFormed (entry : ExploreEntry) : Prop :=
  (∃ path, path ≠ [] ∧ entry = readEntry path) ∨ entry.kind ≠ .read ∧ entry.detail = none

theorem readEntry_cases (path : JsString) : (∃ name, fileNameOf path = some name ∧ name ≠ path ∧
      readEntry path = { kind := .read, label := name, detail := some path }) ∨
    readEntry path = { kind := .read, label := path } ∧ (fileNameOf path = none ∨ fileNameOf path = some path) := by
  unfold readEntry
  cases hname : fileNameOf path with
  | none => exact .inr ⟨if_neg fun h => h.2 rfl, .inl rfl⟩
  | some name =>
      by_cases hsame : name = path
      · exact .inr ⟨if_neg fun h => h.2 hsame, .inr (hsame ▸ rfl)⟩
      · exact .inl ⟨name, rfl, hsame, if_pos ⟨(fileNameOf_some hname).1, hsame⟩⟩

theorem verticalBar_not_slash : isSlash verticalBar = false := by decide

theorem append_cons_inj {a b x y : JsString} {sep : UInt16} (h : a ++ sep :: x = b ++ sep :: y) (ha : sep ∉ a)
    (hb : sep ∉ b) : a = b ∧ x = y := by
  induction a generalizing b with
  | nil =>
      cases b with
      | nil => exact ⟨rfl, (cons.inj h).2⟩
      | cons u b => exact absurd ((cons.inj h).1 ▸ mem_cons_self) hb
  | cons u a ih =>
      cases b with
      | nil => exact absurd ((cons.inj h).1 ▸ mem_cons_self) ha
      | cons v b =>
          obtain ⟨hhead, htail⟩ := cons.inj h
          obtain ⟨rfl, rfl⟩ := ih htail (fun hmem => ha (mem_cons_of_mem _ hmem))
            fun hmem => hb (mem_cons_of_mem _ hmem)
          exact ⟨hhead ▸ rfl, rfl⟩

theorem names_eq {path' name' : JsString} (hname : fileNameOf path = some name) (hname' : fileNameOf path' = some name')
    (h : name ++ verticalBar :: path = name' ++ verticalBar :: path') : name.length = name'.length := by
  -- A longer name would end a part of the other path, whose name it would then be no longer than.
  have hlonger : ∀ {p p' n n' : JsString}, fileNameOf p = some n → fileNameOf p' = some n' →
      n ++ verticalBar :: p = n' ++ verticalBar :: p' → n'.length ≤ n.length := by
    intro p p' n n' hn hn' heq
    rcases append_eq_append_iff.mp heq with ⟨rest, rfl, hrest⟩ | ⟨rest, rfl, -⟩
    · cases rest with
      | nil => rw [append_nil]
      | cons u rest =>
          obtain ⟨-, rfl⟩ := cons.inj hrest
          obtain ⟨n'', hn'', hsuf⟩ := fileNameOf_append (s := rest ++ [verticalBar]) hn'
          rw [append_assoc] at hn''
          exact some.inj (hn''.symm.trans hn) ▸ hsuf.length_le
    · rw [length_append]
      exact Nat.le_add_right _ _
  exact Nat.le_antisymm (hlonger hname' hname h.symm) (hlonger hname hname' h)

theorem readEntry_inj {path' : JsString} (hne : path ≠ []) (hne' : path' ≠ [])
    (h : entryKey (readEntry path) = entryKey (readEntry path')) : readEntry path = readEntry path' := by
  -- A path that is its own label has no end that is a name and a path with slashes.
  have hmixed : ∀ {p q n : JsString}, p ≠ [] → q ≠ [] → fileNameOf p = some n → n ≠ p →
      (fileNameOf q = none ∨ fileNameOf q = some q) → n ++ verticalBar :: p ≠ q ++ verticalBar :: [] := by
    intro p q n hp hq hn hnp hname heq
    have hbar : q = n ++ verticalBar :: p.dropLast := by
      have hdrop := congrArg dropLast heq
      rw [dropLast_concat, dropLast_append_of_ne_nil (cons_ne_nil _ _),
        dropLast_cons_of_ne_nil hp] at hdrop
      exact hdrop.symm
    have hlast : p = p.dropLast ++ [verticalBar] := by
      have hget := congrArg getLast? heq
      rw [getLast?_concat, getLast?_append_of_ne_nil _ (cons_ne_nil _ _), getLast?_cons_of_ne_nil hp] at hget
      obtain ⟨front, hfro⟩ := getLast?_eq_some_iff.mp hget
      rw [hfro, dropLast_concat]
    rcases hname with hnone | hsame
    · have hslash := isSlash_of_fileNameOf_none hnone verticalBar (hbar ▸ mem_append_right _ mem_cons_self)
      cases hslash.symm.trans verticalBar_not_slash
    · have hfree := (fileNameOf_some hsame).2
      refine hnp (some.inj (hn.symm.trans (fileNameOf_of_no_slash hp fun u hu => ?_)))
      rw [hlast] at hu
      rcases mem_append.mp hu with hu | hu
      · exact hfree u (hbar ▸ mem_append_right _ (mem_cons_of_mem _ hu))
      · rw [mem_singleton.mp hu]
        exact verticalBar_not_slash
  rcases readEntry_cases path with ⟨n, hn, hnp, heq⟩ | ⟨heq, hname⟩ <;>
    rcases readEntry_cases path' with ⟨n', hn', hnp', heq'⟩ | ⟨heq', hname'⟩ <;>
    rw [heq, heq'] at h ⊢ <;>
    have hbody := (cons.inj (append_cancel_left h)).2
  · obtain ⟨rfl, hps⟩ := append_inj hbody (names_eq hn hn' hbody)
    obtain rfl := (cons.inj hps).2
    rfl
  · exact absurd hbody (hmixed hne hne' hn hnp hname')
  · exact absurd hbody.symm (hmixed hne' hne hn' hnp' hname)
  · obtain rfl := append_cancel_right hbody
    rfl

theorem verticalBar_not_mem_name (kind : ExploreKind) : verticalBar ∉ kind.name := by
  cases kind with
  | _ => decide

theorem kind_name_inj {kind kind' : ExploreKind} (h : kind.name = kind'.name) : kind = kind' := by
  cases kind with
  | _ =>
      cases kind' with
      | _ => first | rfl | exact absurd h (by decide)

theorem readEntry_kind (path : JsString) : (readEntry path).kind = .read := by
  rcases readEntry_cases path with ⟨_, -, -, heq⟩ | ⟨heq, -⟩
  · rw [heq]
  · rw [heq]

theorem entryKey_inj {a b : ExploreEntry} (ha : a.WellFormed) (hb : b.WellFormed) (h : entryKey a = entryKey b) :
    a = b := by
  obtain ⟨hkind, hbody⟩ := append_cons_inj h (verticalBar_not_mem_name a.kind) (verticalBar_not_mem_name b.kind)
  have hkinds := kind_name_inj hkind
  rcases ha with ⟨path, hpath, rfl⟩ | ⟨hread, hnone⟩
  · rcases hb with ⟨path', hpath', rfl⟩ | ⟨hread', -⟩
    · exact readEntry_inj hpath hpath' h
    · exact absurd (hkinds ▸ readEntry_kind path) hread'
  · rcases hb with ⟨path', hpath', rfl⟩ | ⟨hread', hnone'⟩
    · exact absurd (hkinds ▸ readEntry_kind path') hread
    · obtain ⟨kind, label, detail⟩ := a
      obtain ⟨kind', label', detail'⟩ := b
      obtain rfl : detail = none := hnone
      obtain rfl : detail' = none := hnone'
      obtain rfl : kind = kind' := hkinds
      obtain rfl := append_cancel_right hbody
      rfl

/-! ## The entries of a command -/

variable {key : ExploreEntry → JsString} {seen : List JsString} {entries : List ExploreEntry} {entry : ExploreEntry}

theorem dedupeBy_sublist : (dedupeBy key seen entries).Sublist entries := by
  induction entries generalizing seen with
  | nil => exact List.Sublist.slnil
  | cons entry rest ih =>
      unfold dedupeBy
      split
      next => exact ih.cons entry
      next => exact ih.cons_cons entry

theorem exists_mem_dedupeBy (h : entry ∈ entries) (hkey : key entry ∉ seen) :
    ∃ other ∈ dedupeBy key seen entries, key other = key entry := by
  induction entries generalizing seen with
  | nil => cases h
  | cons first rest ih =>
      unfold dedupeBy
      split
      next hseen =>
        rcases mem_cons.mp h with rfl | h
        · exact absurd (contains_iff_mem.mp hseen) hkey
        · exact ih h hkey
      next =>
        by_cases hfst : key entry = key first
        · exact ⟨first, mem_cons_self, hfst.symm⟩
        · rcases mem_cons.mp h with rfl | h
          · exact absurd rfl hfst
          · obtain ⟨other, hoth, heq⟩ := ih h fun hmem => (mem_cons.mp hmem).elim hfst hkey
            exact ⟨other, mem_cons_of_mem _ hoth, heq⟩

theorem coalesceReadEntries_sublist : (coalesceReadEntries seen entries).Sublist entries := by
  induction entries generalizing seen with
  | nil => exact List.Sublist.slnil
  | cons entry rest ih =>
      unfold coalesceReadEntries
      split
      next => exact ih.cons_cons entry
      next =>
        split
        next => exact ih.cons entry
        next => exact ih.cons_cons entry

theorem mem_mergeExploreEntries {base more : List ExploreEntry} (hbase : ∀ entry ∈ base, entry.WellFormed)
    (hmore : ∀ entry ∈ more, entry.WellFormed) :
    entry ∈ mergeExploreEntries base more ↔ entry ∈ base ∨ entry ∈ more := by
  have hall : ∀ entry ∈ base ++ more, entry.WellFormed := fun entry h => (mem_append.mp h).elim (hbase entry) (hmore entry)
  rw [← mem_append]
  constructor
  · exact fun h => dedupeBy_sublist.subset h
  · intro h
    obtain ⟨other, hoth, heq⟩ := @exists_mem_dedupeBy entryKey _ _ _ h not_mem_nil
    exact entryKey_inj (hall other (dedupeBy_sublist.subset hoth)) (hall entry h) heq ▸ hoth

theorem parseCommandSegment_wellFormed {segment : JsString} (h : parseCommandSegment segment = some entries) :
    ∀ entry ∈ entries, entry.WellFormed := by
  have hlist : ∀ tokens, (parseList tokens).WellFormed := fun tokens => .inr ⟨fun h => (by cases h), rfl⟩
  unfold parseCommandSegment at h
  simp only at h
  split at h
  next => cases h
  next =>
    split at h
    next =>
      unfold parseRead at h
      simp only [ite_none_left_eq_some] at h
      obtain ⟨-, hents⟩ := h
      intro entry hent
      rw [← some.inj hents] at hent
      obtain ⟨path, hpath, rfl⟩ := mem_map.mp (dedupeBy_sublist.subset hent)
      exact .inl ⟨path, of_decide_eq_true (mem_filter.mp hpath).2, rfl⟩
    next =>
      split at h
      next =>
        cases h
        exact fun entry hent => mem_singleton.mp hent ▸ hlist _
      next =>
        split at h
        next =>
          obtain ⟨found, hfnd, rfl⟩ := map_eq_some_iff.mp h
          refine fun entry hent => mem_singleton.mp hent ▸ ?_
          unfold parseSearch at hfnd
          simp only at hfnd
          split at hfnd
          next =>
            cases hfnd
            exact .inr ⟨fun h => (by cases h), rfl⟩
          next =>
            split at hfnd
            next => cases hfnd
            next =>
              cases hfnd
              exact .inr ⟨fun h => (by cases h), rfl⟩
        next => cases h

theorem commandEntries_wellFormed {title : JsString} (h : commandEntries title = some entries) :
    ∀ entry ∈ entries, entry.WellFormed := by
  unfold commandEntries at h
  simp only [ite_none_left_eq_some] at h
  obtain ⟨-, hbind⟩ := h
  obtain ⟨parsed, hparsed, hrest⟩ := bind_eq_some_iff.mp hbind
  simp only [ite_none_left_eq_some] at hrest
  intro entry hent
  rw [← some.inj hrest.2] at hent
  obtain ⟨part, hpart, hmem⟩ := mem_flatten.mp (coalesceReadEntries_sublist.subset hent)
  obtain ⟨segment, -, hsegment⟩ := exists_of_mem_mapM hparsed hpart
  exact parseCommandSegment_wellFormed hsegment entry hmem

end

/-! ## Reports -/

def keptTitle (title : JsString) : JsString := truncateText title 200

structure CommandReport where
  workspaceId : JsString
  tool : ToolItem
  hasCustomName : Bool

variable (titles : JsString → JsString) (id : JsString)

/-- A report of a command, which has the same title each time. -/
def CommandReport.Of (report : CommandReport) : Prop :=
  report.tool.toolType = ofLiteral "commandExecution" ∧ report.tool.title = titles report.tool.id

structure ReportRun where
  state : ThreadState
  reported : List JsString

def ReportRun.next (threadId : JsString) (run : ReportRun) (report : CommandReport) : ReportRun where
  state := threadReducer run.state
    (.upsertItem report.workspaceId threadId (.tool report.tool) report.hasCustomName)
  reported := report.tool.id :: run.reported

/-- The command has its own tool item, or an explore item has its entries. -/
def Represented (items : List ConversationItem) (id : JsString) : Prop :=
  (∃ tool, .tool tool ∈ items ∧ tool.id = id) ∨
    ∃ entries shown, commandEntries (titles id) = some entries ∧ .explore shown ∈ items ∧ entries ⊆ shown.entries

/-- The title is kept as far as its entries go, and the other commands are represented without the item that the report
replaces, or its entries are theirs too. -/
structure KeepsCommands (titles : JsString → JsString) (threadId : JsString) (run : ReportRun) (report : CommandReport) :
    Prop where
  title : ∀ entries, commandEntries (keptTitle (titles report.tool.id)) = some entries →
    commandEntries (titles report.tool.id) = some entries
  others : ∀ id ∈ run.reported, id ≠ report.tool.id →
    Represented titles ((run.state.itemsOf threadId).eraseP fun item => item.id == report.tool.id) id ∨
      ∃ entries summary, commandEntries (titles id) = some entries ∧
        exploreOf (normalizeItem (.tool report.tool)) = some summary ∧ entries ⊆ summary.entries

def ItemsOk (items : List ConversationItem) : Prop :=
  ∀ item ∈ items, (∃ shown, item = .explore shown ∧ ∀ entry ∈ shown.entries, entry.WellFormed) ∨
    ∃ tool, item = .tool tool ∧ tool.toolType = ofLiteral "commandExecution" ∧ tool.title = keptTitle (titles tool.id)

structure CommandsShown (titles : JsString → JsString) (threadId : JsString) (run : ReportRun) : Prop where
  unlimited : run.state.maxItemsPerThread = none
  items : ItemsOk titles (run.state.itemsOf threadId)
  kept : ∀ id ∈ run.reported, ∀ entries, commandEntries (keptTitle (titles id)) = some entries →
    commandEntries (titles id) = some entries
  represented : ∀ id ∈ run.reported, Represented titles (run.state.itemsOf threadId) id

section

variable {titles : JsString → JsString} {items more : List ConversationItem} {item : ConversationItem} {id : JsString}

/-! ## Items that are shown -/

def KeptIn (items : List ConversationItem) : ConversationItem → Prop
  | .explore shown => ∃ other, .explore other ∈ items ∧ shown.entries ⊆ other.entries
  | item => item ∈ items

def shownAs (item : ConversationItem) : ConversationItem := (exploreOf item).elim item .explore

theorem keptIn_of_mem (h : item ∈ items) : KeptIn items item := by
  cases item with
  | explore shown => exact ⟨shown, h, List.Subset.refl _⟩
  | _ => exact h

theorem KeptIn.trans (h : KeptIn items item) (hmore : ∀ other ∈ items, KeptIn more other) : KeptIn more item := by
  cases item with
  | explore shown =>
      obtain ⟨other, hoth, hsub⟩ := h
      obtain ⟨last, hlast, hsub'⟩ := hmore _ hoth
      exact ⟨last, hlast, List.Subset.trans hsub hsub'⟩
  | _ => exact hmore _ h

theorem exploreOf_entries {tool : ToolItem} {summary : ExploreItem} (h : exploreOf (.tool tool) = some summary) :
    commandEntries tool.title = some summary.entries := by
  unfold exploreOf at h
  simp only [ite_none_right_eq_some] at h
  have hsum := h.2
  unfold summarizeCommandExecution at hsum
  split at hsum
  next => cases hsum
  next =>
    obtain ⟨entries, hents, rfl⟩ := map_eq_some_iff.mp hsum
    exact hents

theorem ItemsOk.exploreOf_wellFormed (h : ItemsOk titles [item]) {summary : ExploreItem}
    (hsum : exploreOf item = some summary) : ∀ entry ∈ summary.entries, entry.WellFormed := by
  rcases h item (mem_singleton_self item) with ⟨shown, rfl, hwell⟩ | ⟨tool, rfl, -⟩
  · cases hsum
    exact hwell
  · exact commandEntries_wellFormed (exploreOf_entries hsum)

variable (h : ItemsOk titles items)

include h in
theorem ItemsOk.append (hmore : ItemsOk titles more) : ItemsOk titles (items ++ more) :=
  fun item hitem => (mem_append.mp hitem).elim (h item) (hmore item)

theorem itemsOk_explore {shown : ExploreItem} (h : ∀ entry ∈ shown.entries, entry.WellFormed) :
    ItemsOk titles [.explore shown] :=
  fun _ hitem => .inl ⟨shown, mem_singleton.mp hitem, h⟩

include h in
theorem pushItem_kept (hitem : ItemsOk titles [item]) :
    ItemsOk titles (pushItem items item) ∧ (∀ other ∈ items, KeptIn (pushItem items item) other) ∧
      KeptIn (pushItem items item) (shownAs item) := by
  rcases @pushItem_cases items item with ⟨hnone, heq⟩ | ⟨summary, hsum, heq, -⟩ |
    ⟨rest, last, summary, hsum, rfl, -, heq⟩
  · rw [heq, shownAs, hnone]
    exact ⟨h.append hitem, fun other hoth => keptIn_of_mem (mem_append_left _ hoth),
      keptIn_of_mem (mem_append_right _ (mem_singleton_self item))⟩
  · rw [heq, shownAs, hsum]
    exact ⟨h.append (itemsOk_explore (hitem.exploreOf_wellFormed hsum)),
      fun other hoth => keptIn_of_mem (mem_append_left _ hoth),
      keptIn_of_mem (mem_append_right _ (mem_singleton_self _))⟩
  · have hlast : ∀ entry ∈ last.entries, entry.WellFormed := by
      rcases h (.explore last) (mem_append_right _ (mem_singleton_self _)) with ⟨shown, heq, hwell⟩ | ⟨tool, heq, -⟩
      · cases heq
        exact hwell
      · cases heq
    have hmg := fun entry => @mem_mergeExploreEntries entry _ _ hlast (hitem.exploreOf_wellFormed hsum)
    have hmem : .explore { last with entries := mergeExploreEntries last.entries summary.entries } ∈
        rest ++ [ConversationItem.explore { last with entries := mergeExploreEntries last.entries summary.entries }] :=
      mem_append_right _ (mem_singleton_self _)
    rw [heq, shownAs, hsum]
    refine ⟨ItemsOk.append (fun other hoth => h other (mem_append_left _ hoth)) (itemsOk_explore ?_),
      fun other hoth => ?_, ⟨_, hmem, fun entry hent => (hmg entry).mpr (.inr hent)⟩⟩
    · exact fun entry hent => ((hmg entry).mp hent).elim (hlast entry) (hitem.exploreOf_wellFormed hsum entry)
    · rcases mem_append.mp hoth with hoth | hoth
      · exact keptIn_of_mem (mem_append_left _ hoth)
      · rw [mem_singleton.mp hoth]
        exact ⟨_, hmem, fun entry hent => (hmg entry).mpr (.inl hent)⟩

include h in
theorem foldl_pushItem_kept (hmore : ItemsOk titles more) :
    ItemsOk titles (more.foldl pushItem items) ∧ (∀ other ∈ items, KeptIn (more.foldl pushItem items) other) ∧
      ∀ item ∈ more, KeptIn (more.foldl pushItem items) (shownAs item) := by
  induction more generalizing items with
  | nil => exact ⟨h, fun other hoth => keptIn_of_mem hoth, fun item hitem => (by cases hitem)⟩
  | cons first rest ih =>
      obtain ⟨hok, hkept, hshn⟩ := pushItem_kept h fun item hitem =>
        hmore item (mem_singleton.mp hitem ▸ mem_cons_self)
      obtain ⟨hok', hkept', hshn'⟩ := ih hok fun item hitem => hmore item (mem_cons_of_mem _ hitem)
      refine ⟨hok', fun other hoth => (hkept other hoth).trans hkept', fun item hitem => ?_⟩
      rcases mem_cons.mp hitem with rfl | hitem
      · exact hshn.trans hkept'
      · exact hshn' item hitem

/-! ## Prepared items -/

theorem ItemsOk.dropRepeatedReviews_eq {last : Option ConversationItem} (h : ItemsOk titles items) :
    dropRepeatedReviews last items = items := by
  induction items generalizing last with
  | nil => rfl
  | cons item rest ih =>
      have hitem : repeatsReview last item = false := by
        rcases h item mem_cons_self with ⟨shown, rfl, -⟩ | ⟨tool, rfl, -⟩
        · rfl
        · rfl
      rw [dropRepeatedReviews_cons, hitem, if_neg Bool.false_ne_true, ih fun item hitem => h item (mem_cons_of_mem _ hitem)]

include h in
theorem ItemsOk.normalizeItem : ItemsOk titles (items.map normalizeItem) := by
  intro item hitem
  obtain ⟨old, hold, rfl⟩ := mem_map.mp hitem
  rcases h old hold with ⟨shown, rfl, hwell⟩ | ⟨tool, rfl, htype, htitle⟩
  · exact .inl ⟨shown, rfl, hwell⟩
  · refine .inr ⟨normalizeTool tool, rfl, htype, ?_⟩
    show truncateText tool.title 200 = keptTitle (titles tool.id)
    rw [htitle, keptTitle, truncateText_truncateText _ (by decide)]

theorem truncateOldItems_mem (h : item ∈ items) :
    item ∈ truncateOldItems items ∨ truncateOldItem item ∈ truncateOldItems items := by
  rw [← take_append_drop (items.length - TOOL_OUTPUT_RECENT_ITEMS) items] at h
  rcases mem_append.mp h with h | h
  · exact .inr (mem_append_left _ (mem_map_of_mem h))
  · exact .inl (mem_append_right _ h)

include h in
theorem ItemsOk.truncateOldItems : ItemsOk titles (truncateOldItems items) := by
  intro item hitem
  obtain ⟨old, hold, rfl | rfl⟩ := mem_truncateOldItems hitem
  · exact h _ hold
  · rcases h old hold with ⟨shown, rfl, hwell⟩ | ⟨tool, rfl, htype, htitle⟩
    · exact .inl ⟨shown, rfl, hwell⟩
    · exact .inr ⟨_, rfl, htype, htitle⟩

theorem Represented.truncateOldItems (h : Represented titles items id) : Represented titles (truncateOldItems items) id := by
  rcases h with ⟨tool, htool, hid⟩ | ⟨entries, shown, hents, hshn, hsub⟩
  · rcases truncateOldItems_mem htool with h | h
    · exact .inl ⟨tool, h, hid⟩
    · exact .inl ⟨_, h, hid⟩
  · exact .inr ⟨entries, shown, hents, (truncateOldItems_mem hshn).elim (fun h => h) fun h => h, hsub⟩

theorem represented_of_keptIn (h : ItemsOk titles [item]) (hid : item.id = id) (htool : ∃ tool, item = .tool tool)
    (hkept : ∀ entries, commandEntries (keptTitle (titles id)) = some entries → commandEntries (titles id) = some entries)
    (hshn : KeptIn items (shownAs item)) : Represented titles items id := by
  obtain ⟨tool, rfl⟩ := htool
  obtain rfl : tool.id = id := hid
  unfold shownAs at hshn
  cases hsum : exploreOf (.tool tool) with
  | none =>
      rw [hsum] at hshn
      exact .inl ⟨tool, hshn, rfl⟩
  | some summary =>
      rw [hsum] at hshn
      obtain ⟨other, hoth, hsub⟩ := hshn
      rcases h _ (mem_singleton_self _) with ⟨shown, heq, -⟩ | ⟨tool', heq, -, htitle⟩
      · cases heq
      · cases heq
        exact .inr ⟨summary.entries, other, hkept _ (htitle ▸ exploreOf_entries hsum), hoth, hsub⟩

include h in
theorem prepareThreadItems_represented : ItemsOk titles (prepareThreadItems items none) ∧
    (∀ id, (∀ entries, commandEntries (keptTitle (titles id)) = some entries →
        commandEntries (titles id) = some entries) →
      Represented titles items id → Represented titles (prepareThreadItems items none) id) ∧
    ∀ tool summary entries, .tool tool ∈ items → exploreOf (normalizeItem (.tool tool)) = some summary →
      commandEntries (titles id) = some entries → entries ⊆ summary.entries →
      Represented titles (prepareThreadItems items none) id := by
  have hprepare : prepareThreadItems items none =
      truncateOldItems (summarizeExploration (items.map normalizeItem)) := by
    unfold prepareThreadItems
    simp only
    rw [h.dropRepeatedReviews_eq]
    rfl
  obtain ⟨hok, -, hshn⟩ := @foldl_pushItem_kept titles [] _
    (fun item hitem => (by cases hitem)) h.normalizeItem
  have hkeptIn : ∀ item ∈ items, KeptIn (summarizeExploration (items.map normalizeItem)) (shownAs (normalizeItem item)) :=
    fun item hitem => hshn _ (mem_map_of_mem hitem)
  rw [hprepare]
  refine ⟨hok.truncateOldItems, fun id hkept hrep => Represented.truncateOldItems ?_,
    fun tool summary entries htool hsum hents hsub => Represented.truncateOldItems ?_⟩
  · rcases hrep with ⟨tool, htool, hid⟩ | ⟨entries, shown, hents, hmem, hsub⟩
    · have hitem : ItemsOk titles [normalizeItem (.tool tool)] := fun item hitem =>
        h.normalizeItem item (mem_singleton.mp hitem ▸ mem_map_of_mem htool)
      exact represented_of_keptIn hitem hid ⟨_, rfl⟩ hkept (hkeptIn _ htool)
    · obtain ⟨other, hoth, hsub'⟩ := hkeptIn _ hmem
      exact .inr ⟨entries, other, hents, hoth, List.Subset.trans hsub hsub'⟩
  · have hkept := hkeptIn _ htool
    rw [shownAs, hsum] at hkept
    obtain ⟨other, hoth, hsub'⟩ := hkept
    exact .inr ⟨entries, other, hents, hoth, List.Subset.trans hsub hsub'⟩

/-! ## Reports of commands -/

variable {report : CommandReport} {reports : List CommandReport} {run run' : ReportRun} {threadId : JsString}

theorem Represented.mono (h : Represented titles items id) (hsub : items ⊆ more) : Represented titles more id := by
  rcases h with ⟨tool, htool, hid⟩ | ⟨entries, shown, hents, hshn, hentriesSubset⟩
  · exact .inl ⟨tool, hsub htool, hid⟩
  · exact .inr ⟨entries, shown, hents, hsub hshn, hentriesSubset⟩

theorem next_items_eq (run : ReportRun) (report : CommandReport) : (run.next threadId report).state.itemsOf threadId =
    prepareThreadItems (upsertItem (run.state.itemsOf threadId) (.tool (normalizeTool report.tool)))
      run.state.maxItemsPerThread :=
  itemsOf_setItems _

include h in
theorem upsertItem_split (hreport : report.Of titles) :
    ∃ before tool after, upsertItem items (.tool (normalizeTool report.tool)) = before ++ .tool tool :: after ∧
      (items.eraseP fun item => item.id == report.tool.id) = before ++ after ∧ tool.id = report.tool.id ∧
      ItemsOk titles [.tool tool] ∧
      (tool = normalizeTool report.tool ∨ ∃ old, .tool old ∈ items ∧ old.id = report.tool.id ∧
        items ⊆ .tool old :: (before ++ after)) := by
  have hnew : ItemsOk titles [.tool (normalizeTool report.tool)] := by
    refine fun item hitem => .inr ⟨normalizeTool report.tool, mem_singleton.mp hitem, hreport.1, ?_⟩
    exact congrArg keptTitle hreport.2
  by_cases hany : (items.any fun entry => entry.id == report.tool.id) = true
  · obtain ⟨item, hitem, hid⟩ := any_eq_true.mp hany
    obtain ⟨old, before, after, hbef, hold, hspl, herase⟩ :=
      exists_of_eraseP (p := fun entry : ConversationItem => entry.id == report.tool.id) hitem hid
    have hnotMem : report.tool.id ∉ itemIds before := by
      intro hmem
      obtain ⟨other, hoth, heq⟩ := mem_map.mp hmem
      exact hbef other hoth (beq_iff_eq.mpr heq)
    have hmodify := @modifyItem_split _ after _ _ hnotMem (beq_iff_eq.mp hold)
      fun existing => mergeItem existing (.tool (normalizeTool report.tool))
    have hupsert : upsertItem items (.tool (normalizeTool report.tool)) =
        before ++ mergeItem old (.tool (normalizeTool report.tool)) :: after := by
      rw [← hmodify, ← hspl]
      exact if_pos hany
    rcases h old (hspl ▸ mem_append_right _ mem_cons_self) with ⟨shown, rfl, -⟩ | ⟨tool, rfl, htype, htitle⟩
    · exact ⟨before, _, after, hupsert, herase, rfl, hnew, .inl rfl⟩
    · refine ⟨before, _, after, hupsert, herase, rfl, fun item hitem => ?_, .inr ⟨tool, ?_, beq_iff_eq.mp hold, ?_⟩⟩
      · refine .inr ⟨_, mem_singleton.mp hitem, hreport.1, ?_⟩
        have hsame : tool.id = report.tool.id := beq_iff_eq.mp hold
        show unlessBlank (truncateText report.tool.title 200) tool.title = keptTitle (titles report.tool.id)
        rw [htitle, hsame, hreport.2]
        exact ite_self _
      · exact hspl ▸ mem_append_right _ mem_cons_self
      · rw [hspl]
        exact perm_middle.subset
  · refine ⟨items, _, [], if_neg hany, ?_, rfl, hnew, .inl rfl⟩
    rw [append_nil]
    refine eraseP_of_forall_not fun item hitem hid => hany (any_eq_true.mpr ⟨item, hitem, hid⟩)

theorem commandsShown_next (h : CommandsShown titles threadId run) (hreport : report.Of titles)
    (hkps : KeepsCommands titles threadId run report) : CommandsShown titles threadId (run.next threadId report) := by
  obtain ⟨before, tool, after, hupsert, herase, hid, htool, hnew⟩ := upsertItem_split h.items hreport
  have hok : ItemsOk titles (upsertItem (run.state.itemsOf threadId) (.tool (normalizeTool report.tool))) := by
    have hrest : ItemsOk titles (before ++ after) :=
      herase ▸ fun item hitem => h.items item (eraseP_subset hitem)
    rw [hupsert]
    intro item hitem
    rcases mem_cons.mp (perm_middle.subset hitem) with rfl | hitem
    · exact htool _ (mem_singleton_self _)
    · exact hrest item hitem
  have hrest : before ++ after ⊆ upsertItem (run.state.itemsOf threadId) (.tool (normalizeTool report.tool)) := by
    rw [hupsert]
    exact fun item hitem => perm_middle.symm.subset (mem_cons_of_mem _ hitem)
  have hmem : .tool tool ∈ upsertItem (run.state.itemsOf threadId) (.tool (normalizeTool report.tool)) := by
    rw [hupsert]
    exact mem_append_right _ mem_cons_self
  have hkept : ∀ id ∈ report.tool.id :: run.reported, ∀ entries,
      commandEntries (keptTitle (titles id)) = some entries → commandEntries (titles id) = some entries := by
    intro id hmem
    rcases mem_cons.mp hmem with rfl | hmem
    · exact hkps.title
    · exact h.kept id hmem
  obtain ⟨hprep, hrepresented, -⟩ := @prepareThreadItems_represented titles _ [] hok
  have hits : (run.next threadId report).state.itemsOf threadId = prepareThreadItems
      (upsertItem (run.state.itemsOf threadId) (.tool (normalizeTool report.tool))) none :=
    (next_items_eq run report).trans (congrArg _ h.unlimited)
  refine ⟨h.unlimited, hits ▸ hprep, hkept, fun id hrepd => hits ▸ ?_⟩
  by_cases hsame : id = report.tool.id
  · exact hrepresented id (hkept id hrepd) (.inl ⟨tool, hmem, hid.trans hsame.symm⟩)
  · have hbef : id ∈ run.reported := (mem_cons.mp hrepd).resolve_left hsame
    -- Where the report takes the place of a tool item, no other command loses what represents it.
    rcases hnew with hnew | ⟨old, -, hold, hsub⟩
    · rcases hkps.others id hbef hsame with hothers | ⟨entries, summary, hents, hsum, hentriesSubset⟩
      · exact hrepresented id (hkept id hrepd) ((herase ▸ hothers).mono hrest)
      · have htwice : exploreOf (normalizeItem (.tool tool)) = exploreOf (normalizeItem (.tool report.tool)) := by
          subst hnew
          exact exploreOf_tool_congr rfl rfl rfl (truncateText_truncateText report.tool.title (by decide))
        exact (prepareThreadItems_represented hok).2.2 tool summary entries hmem (htwice.trans hsum) hents
          hentriesSubset
    · refine hrepresented id (hkept id hrepd) (Represented.mono ?_ hrest)
      rcases h.represented id hbef with ⟨other, hoth, hotherId⟩ | ⟨entries, shown, hents, hshn, hentriesSubset⟩
      · rcases mem_cons.mp (hsub hoth) with heq | hoth
        · cases heq
          exact absurd (hotherId.symm.trans hold) hsame
        · exact .inl ⟨other, hoth, hotherId⟩
      · rcases mem_cons.mp (hsub hshn) with heq | hshn
        · cases heq
        · exact .inr ⟨entries, shown, hents, hshn, hentriesSubset⟩

/-- After every report, every command is represented, if each report keeps the other commands. -/
theorem commands_represented {state : ThreadState} (hempty : state.itemsOf threadId = [])
    (hunlimited : state.maxItemsPerThread = none) (hreports : ∀ report ∈ reports, report.Of titles)
    (h : StepsMeet (fun run report run' => ReportRun.next threadId run report = run') (KeepsCommands titles threadId)
      ⟨state, []⟩ reports) : StatesMeet (fun run report run' => ReportRun.next threadId run report = run')
      (fun run => ∀ id ∈ run.reported, Represented titles (run.state.itemsOf threadId) id) ⟨state, []⟩ reports := by
  have hst : CommandsShown titles threadId ⟨state, []⟩ := by
    refine ⟨hunlimited, fun item hitem => ?_, fun id hid => (by cases hid), fun id hid => (by cases hid)⟩
    rw [hempty] at hitem
    cases hitem
  have hsts : StepsMeet (fun run report run' => ReportRun.next threadId run report = run')
      (fun run report => report.Of titles ∧ KeepsCommands titles threadId run report) ⟨state, []⟩ reports := by
    intro before report run run' hbeg hrun hnext
    exact ⟨hreports report (hbeg.subset (mem_append_right _ (mem_singleton_self report))),
      h before report run run' hbeg hrun hnext⟩
  have hstates : StatesMeet (fun run report run' => ReportRun.next threadId run report = run')
      (CommandsShown titles threadId) ⟨state, []⟩ reports := by
    refine statesMeet_of_stepsMeet hst (fun run report run' hshn hmeets hnext => ?_) hsts
    subst hnext
    exact commandsShown_next hshn hmeets.1 hmeets.2
  exact fun before run hbeg hrun => (hstates before run hbeg hrun).represented

end

/-! ## Two commands -/

def readTitles : JsString := if id = [49] then ofLiteral "cat a" else ofLiteral "cat b"

def readReport (completed : Bool) : CommandReport where
  workspaceId := []
  tool :=
    { id, toolType := ofLiteral "commandExecution", title := readTitles id, detail := [],
      status := some (if completed then ofLiteral "completed" else ofLiteral "inProgress") }
  hasCustomName := false

def emptyThread : ThreadState := { maxItemsPerThread := none }

theorem readReport_of (completed : Bool) : (readReport id completed).Of readTitles := ⟨rfl, rfl⟩

theorem readTitles_kept (entries : List ExploreEntry)
    (h : commandEntries (keptTitle (readTitles id)) = some entries) : commandEntries (readTitles id) = some entries := by
  have hshort : (readTitles id).length ≤ 200 := by
    unfold readTitles
    split
    next => decide
    next => decide
  rwa [keptTitle, truncateText_of_le hshort] at h

def readEntries : List ExploreEntry :=
  [{ kind := .read, label := if id = [49] then ofLiteral "a" else ofLiteral "b" }]

theorem commandEntries_readTitles : commandEntries (readTitles id) = some (readEntries id) := by
  unfold readTitles readEntries
  split
  next => decide +kernel
  next => decide +kernel

/-- Both commands run at once, and the second one completes first. -/
theorem second_completes_first : StatesMeet (fun run report run' => ReportRun.next [] run report = run')
    (fun run => ∀ id ∈ run.reported, Represented readTitles (run.state.itemsOf []) id) ⟨emptyThread, []⟩
    [readReport [49] false, readReport [50] false, readReport [50] true, readReport [49] true] := by
  refine commands_represented rfl rfl ?_ ?_
  · simp only [forall_mem_cons, readReport_of, not_mem_nil, false_imp_iff, implies_true, and_self]
  · have hshn : ∀ items : List ConversationItem, ∀ id, ∀ shown : ExploreItem, .explore shown ∈ items →
        readEntries id ⊆ shown.entries → Represented readTitles items id :=
      fun items id shown hmem hsub => .inr ⟨_, shown, commandEntries_readTitles id, hmem, hsub⟩
    refine stepsMeet_cons_iff.mpr ⟨⟨readTitles_kept _, fun id hid => (by cases hid)⟩, ?_⟩
    refine stepsMeet_cons_iff.mpr ⟨⟨readTitles_kept _, fun id hid hne => .inl ?_⟩, ?_⟩
    · obtain rfl := mem_singleton.mp hid
      exact hshn _ _ { id := [49], status := .exploring, entries := readEntries [49] } (by decide +kernel) (by decide)
    refine stepsMeet_cons_iff.mpr ⟨⟨readTitles_kept _, fun id hid hne => .inl ?_⟩, ?_⟩
    · obtain rfl := mem_singleton.mp ((mem_cons.mp hid).resolve_left hne)
      refine hshn _ _ { id := [49], status := .exploring, entries := readEntries [49] ++ readEntries [50] } ?_ ?_
      · decide +kernel
      · decide
    refine stepsMeet_cons_iff.mpr ⟨⟨readTitles_kept _, fun id hid hne => .inl ?_⟩, stepsMeet_nil⟩
    have hid : id = [50] := by
      rcases mem_cons.mp hid with rfl | hid
      · rfl
      · rcases mem_cons.mp hid with rfl | hid
        · rfl
        · exact absurd (mem_singleton.mp hid) hne
    subst hid
    exact hshn _ _ { id := [50], status := .explored, entries := readEntries [50] } (by decide +kernel) (by decide)

/-- The commands are reported in progress first, and completed later. -/
structure ReportsInOrder (titles : JsString → JsString) (reports : List CommandReport) : Prop where
  of : ∀ report ∈ reports, report.Of titles ∧ (commandEntries (titles report.tool.id)).isSome
  order : ∀ n : Fin reports.length, (reports.get n).tool.status = some (ofLiteral "inProgress") ∨
    (reports.get n).tool.status = some (ofLiteral "completed") ∧
      (reports.take n).any fun earlier => earlier.tool.id == (reports.get n).tool.id
  completed : ∀ report ∈ reports, ∃ last ∈ reports, last.tool.id = report.tool.id ∧
    last.tool.status = some (ofLiteral "completed")

/-- The first command takes what is shown of the second one along when it completes. -/
theorem second_command_lost : ¬∀ (titles : JsString → JsString) (threadId : JsString) (state : ThreadState)
    (reports : List CommandReport), state.itemsOf threadId = [] → state.maxItemsPerThread = none →
    ReportsInOrder titles reports → StatesMeet (fun run report run' => ReportRun.next threadId run report = run')
      (fun run => ∀ id ∈ run.reported, Represented titles (run.state.itemsOf threadId) id) ⟨state, []⟩ reports := by
  intro h
  have hrep : ReportsInOrder readTitles
      [readReport [49] false, readReport [50] false, readReport [49] true, readReport [50] true] := by
    refine ⟨?_, by decide +kernel, by decide +kernel⟩
    intro report hreport
    rw [commandEntries_readTitles]
    refine ⟨?_, rfl⟩
    simp only [mem_cons, not_mem_nil, or_false] at hreport
    rcases hreport with rfl | rfl | rfl | rfl
    · exact readReport_of _ _
    · exact readReport_of _ _
    · exact readReport_of _ _
    · exact readReport_of _ _
  have hlost := h readTitles [] emptyThread _ rfl rfl hrep
    [readReport [49] false, readReport [50] false, readReport [49] true] _ ⟨[readReport [50] true], rfl⟩
    (.cons rfl (.cons rfl (.cons rfl (.nil _)))) [50] (by decide)
  have hits : (((ReportRun.next [] ⟨emptyThread, []⟩ (readReport [49] false)).next [] (readReport [50] false)).next []
      (readReport [49] true)).state.itemsOf [] =
      [.explore { id := [49], status := .explored, entries := readEntries [49] }] := by decide +kernel
  rw [hits] at hlost
  rcases hlost with ⟨tool, htool, -⟩ | ⟨entries, shown, hents, hmem, hsub⟩
  · cases mem_singleton.mp htool
  · cases mem_singleton.mp hmem
    rw [commandEntries_readTitles, some.injEq] at hents
    subst hents
    exact absurd hsub (by decide)

end CodexStudy.Desktop
