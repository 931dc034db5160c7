import CodexStudy.Lib.Paging
import CodexStudy.Rollout.Traversal
import Mathlib.Data.List.Perm.Basic
import Mathlib.Data.List.Sort

/-!
# Every thread is listed once

Under the scan cap all four traversals give pages of one sorted list of files, and the cursor is the time of the last
item.
-/

namespace CodexStudy.Rollout

open CodexStudy.Lib List Paging Walk Cursor AnchorState Nat FilesByCreatedAtVisitor OffsetDateTime

/-! ## The walk as one loop -/

variable {names : List Nat} {scanned : Nat}

section

variable {σ ν : Type} {visit : ν → RolloutFile σ → Nat → ν × Bool}

def walkOrder (files : List (RolloutFile σ)) : List (RolloutFile σ) :=
  (collectDirsDesc (files.map fun file => file.path.ts.year)).flatMap fun year =>
    let files := files.filter fun file => file.path.ts.year = year
    (collectDirsDesc (files.map fun file => file.path.ts.month)).flatMap fun month =>
      let files := files.filter fun file => file.path.ts.month = month
      (collectDirsDesc (files.map fun file => file.path.ts.day)).flatMap fun day =>
        collectRolloutDayFiles (files.filter fun file => file.path.ts.day = day)

theorem Walk.foldl_file_stopped (files : List (RolloutFile σ)) {walk : Walk ν} (h : walk.stopped = true) :
    files.foldl (file visit) walk = walk := by
  induction files with
  | nil => rfl
  | cons file files ih =>
      rw [foldl_cons, Walk.file, if_pos h]
      exact ih

variable (visit) in
theorem Walk.scannedFiles_foldl_file (files : List (RolloutFile σ)) (walk : Walk ν) :
    (files.foldl (file visit) walk).scannedFiles ≤ walk.scannedFiles + files.length := by
  induction files generalizing walk with
  | nil => exact le_rfl
  | cons file files ih =>
      have hfile : (Walk.file visit walk file).scannedFiles ≤ walk.scannedFiles + 1 := by
        unfold Walk.file
        split
        · exact le_succ _
        · dsimp only
          split
          · exact le_rfl
          · exact le_rfl
      have hrest := ih (Walk.file visit walk file)
      rw [foldl_cons, length_cons]
      omega

variable (visit) in
theorem Walk.scannedFiles_lt {files : List (RolloutFile σ)} (h : files.length < MAX_SCAN_FILES) (visitor : ν) :
    (files.foldl (file visit) ⟨0, visitor, false⟩).scannedFiles < MAX_SCAN_FILES := by
  have hle := scannedFiles_foldl_file visit files ⟨0, visitor, false⟩
  change _ ≤ 0 + files.length at hle
  omega

theorem Walk.dirs_eq {inside : Nat → List (RolloutFile σ)} {body : Nat → Walk ν → Walk ν} {walk : Walk ν}
    (hbody : ∀ name walk, walk.scannedFiles + (inside name).length < MAX_SCAN_FILES →
      body name walk = (inside name).foldl (file visit) walk)
    (hcap : walk.scannedFiles + (names.flatMap inside).length < MAX_SCAN_FILES) :
    walk.dirs names body = (names.flatMap inside).foldl (file visit) walk := by
  induction names generalizing walk with
  | nil => rfl
  | cons name names ih =>
      rw [flatMap_cons, length_append] at hcap
      have hdirs : walk.dirs (name :: names) body =
          (if walk.stopped then walk
            else if MAX_SCAN_FILES ≤ walk.scannedFiles then { walk with stopped := true }
            else body name walk).dirs names body := rfl
      have hscanned := scannedFiles_foldl_file visit (inside name) walk
      rw [hdirs, flatMap_cons, foldl_append, ← ih (by omega)]
      by_cases hstopped : walk.stopped = true
      · rw [if_pos hstopped, foldl_file_stopped _ hstopped]
      · rw [if_neg hstopped, if_neg (by omega), hbody name walk (by omega)]

theorem walkRolloutFiles_eq {files : List (RolloutFile σ)} (h : (walkOrder files).length < MAX_SCAN_FILES) (visitor : ν) :
    walkRolloutFiles visit files visitor = (walkOrder files).foldl (file visit) ⟨0, visitor, false⟩ := by
  refine dirs_eq (fun year walk hyear => ?_) (by rw [zero_add]; exact h)
  refine dirs_eq (fun month walk hmonth => ?_) hyear
  exact dirs_eq (fun day walk hday => rfl) hmonth

end

/-! ## The walk is sorted -/

section

variable {σ : Type} {files : List (RolloutFile σ)}

theorem pairwise_sortNewest (ts : RolloutFile σ → OffsetDateTime) (files : List (RolloutFile σ)) :
    (sortNewest ts files).Pairwise (Newer ts) := by
  have htrans : ∀ a b c : RolloutFile σ, Newer ts a b → Newer ts b c → Newer ts a c := by
    rintro a b c (hab | ⟨hab, hab'⟩) (hbc | ⟨hbc, hbc'⟩)
    · exact .inl (hbc.trans hab)
    · exact .inl (hbc ▸ hab)
    · exact .inl (hab ▸ hbc)
    · exact .inr ⟨hbc.trans hab, hbc'.trans hab'⟩
  have htot : ∀ a b : RolloutFile σ, Newer ts a b ∨ Newer ts b a := by
    intro a b
    rcases lt_trichotomy (ts a) (ts b) with hlt | heq | hgt
    · exact .inr (.inl hlt)
    · rcases le_total b.path.id a.path.id with hle | hle
      · exact .inl (.inr ⟨heq.symm, hle⟩)
      · exact .inr (.inr ⟨heq, hle⟩)
    · exact .inl (.inl hgt)
  have hpairwise := @pairwise_mergeSort _ (fun a b => decide (Newer ts a b))
    (fun a b c hab hbc => decide_eq_true (htrans a b c (of_decide_eq_true hab) (of_decide_eq_true hbc)))
    (fun a b => by
      rw [Bool.or_eq_true, decide_eq_true_iff, decide_eq_true_iff]
      exact htot a b) files
  exact hpairwise.imp of_decide_eq_true

theorem sortNewest_perm (ts : RolloutFile σ → OffsetDateTime) (files : List (RolloutFile σ)) :
    (sortNewest ts files).Perm files :=
  mergeSort_perm files _

theorem pairwise_collectDirsDesc (names : List Nat) : (collectDirsDesc names).Pairwise fun a b => b < a := by
  have hpairwise := @pairwise_mergeSort Nat (fun a b => decide (b ≤ a))
    (fun a b c hab hbc => decide_eq_true ((of_decide_eq_true hbc).trans (of_decide_eq_true hab)))
    (fun a b => by
      rw [Bool.or_eq_true, decide_eq_true_iff, decide_eq_true_iff]
      exact (le_total a b).symm) names.dedup
  have hnd : (collectDirsDesc names).Nodup := (mergeSort_perm _ _).nodup_iff.mpr names.nodup_dedup
  exact (hpairwise.and hnd).imp fun h => lt_of_le_of_ne (of_decide_eq_true h.1) (Ne.symm h.2)

theorem flatMap_filter_perm (field : RolloutFile σ → Nat) (hnms : names.Nodup) (h : ∀ file ∈ files, field file ∈ names) :
    (names.flatMap fun name => files.filter fun file => field file = name).Perm files := by
  induction names generalizing files with
  | nil =>
      cases files with
      | nil => exact List.Perm.refl _
      | cons file files => cases h file mem_cons_self
  | cons name names ih =>
      obtain ⟨hname, hnms'⟩ := nodup_cons.mp hnms
      have hothers : ∀ file ∈ files.filter (fun file => !decide (field file = name)), field file ∈ names := by
        intro file hfile
        obtain ⟨hmem, hne⟩ := mem_filter.mp hfile
        exact mem_of_ne_of_mem (by simpa using hne) (h file hmem)
      have hsame : (names.flatMap fun name' => (files.filter fun file => !decide (field file = name)).filter
          fun file => field file = name') = names.flatMap fun name' => files.filter fun file => field file = name' := by
        refine flatMap_congr fun name' hname' => ?_
        rw [filter_filter]
        refine filter_congr fun file _ => ?_
        have hne : name' ≠ name := fun heq => hname (heq ▸ hname')
        by_cases hfield : field file = name'
        · simp [hfield, hne]
        · simp [hfield]
      rw [flatMap_cons, ← hsame]
      exact ((ih hnms' hothers).append_left _).trans (filter_append_perm _ files)

theorem flatMap_dirs_perm (field : RolloutFile σ → Nat) {inside : Nat → List (RolloutFile σ)}
    (h : ∀ name, (inside name).Perm (files.filter fun file => field file = name)) :
    ((collectDirsDesc (files.map field)).flatMap inside).Perm files := by
  refine (List.Perm.flatMap_left _ fun name _ => h name).trans ?_
  have hnd : (collectDirsDesc (files.map field)).Nodup := (pairwise_collectDirsDesc _).imp fun h => (ne_of_lt h).symm
  refine flatMap_filter_perm field hnd fun file hfile => ?_
  rw [collectDirsDesc, mem_mergeSort, mem_dedup]
  exact mem_map_of_mem hfile

theorem walkOrder_perm (files : List (RolloutFile σ)) : (walkOrder files).Perm files := by
  refine flatMap_dirs_perm (fun file => file.path.ts.year) fun year => ?_
  refine flatMap_dirs_perm (fun file => file.path.ts.month) fun month => ?_
  exact flatMap_dirs_perm (fun file => file.path.ts.day) fun day => sortNewest_perm _ _

theorem pairwise_flatMap_dirs {field : RolloutFile σ → Nat} {inside : Nat → List (RolloutFile σ)}
    (hins : ∀ name, (inside name).Pairwise (Newer createdTs))
    (hperm : ∀ name, (inside name).Perm (files.filter fun file => field file = name))
    (hfield : ∀ a ∈ files, ∀ b ∈ files, field b < field a → createdTs b < createdTs a) :
    ((collectDirsDesc (files.map field)).flatMap inside).Pairwise (Newer createdTs) := by
  rw [pairwise_flatMap]
  refine ⟨fun name _ => hins name, (pairwise_collectDirsDesc _).imp fun hlt a ha b hb => .inl ?_⟩
  obtain ⟨ha, haname⟩ := mem_filter.mp ((hperm _).subset ha)
  obtain ⟨hb, hbname⟩ := mem_filter.mp ((hperm _).subset hb)
  refine hfield a ha b hb ?_
  rw [of_decide_eq_true haname, of_decide_eq_true hbname]
  exact hlt

theorem OffsetDateTime.lt_of_date {a b : OffsetDateTime}
    (h : a.year < b.year ∨ (a.year = b.year ∧ (a.month < b.month ∨ (a.month = b.month ∧ a.day < b.day)))) : a < b := by
  change a.key < b.key
  rw [key, key, Prod.Lex.toLex_lt_toLex]
  refine h.imp_right (And.imp_right fun h => ?_)
  rw [Prod.Lex.toLex_lt_toLex]
  refine h.imp_right (And.imp_right fun h => ?_)
  rw [Prod.Lex.toLex_lt_toLex]
  exact .inl h

theorem pairwise_walkOrder (files : List (RolloutFile σ)) : (walkOrder files).Pairwise (Newer createdTs) := by
  refine pairwise_flatMap_dirs (fun year => ?_)
    (fun year => flatMap_dirs_perm (fun file => file.path.ts.month) fun month =>
      flatMap_dirs_perm (fun file => file.path.ts.day) fun day => sortNewest_perm _ _)
    fun a _ b _ hlt => lt_of_date (.inl hlt)
  -- In the directory of a year the month decides.
  refine pairwise_flatMap_dirs (fun month => ?_)
    (fun month => flatMap_dirs_perm (fun file => file.path.ts.day) fun day => sortNewest_perm _ _)
    fun a ha b hb hlt => ?_
  · -- In the directory of a month the day decides.
    refine pairwise_flatMap_dirs (fun day => pairwise_sortNewest _ _) (fun day => sortNewest_perm _ _)
      fun a ha b hb hlt => ?_
    obtain ⟨ha, hamonth⟩ := mem_filter.mp ha
    obtain ⟨hb, hbmonth⟩ := mem_filter.mp hb
    have hyear := (of_decide_eq_true (mem_filter.mp hb).2).trans (of_decide_eq_true (mem_filter.mp ha).2).symm
    have hmonth := (of_decide_eq_true hbmonth).trans (of_decide_eq_true hamonth).symm
    exact lt_of_date (.inr ⟨hyear, .inr ⟨hmonth, hlt⟩⟩)
  · have hyear := (of_decide_eq_true (mem_filter.mp hb).2).trans (of_decide_eq_true (mem_filter.mp ha).2).symm
    exact lt_of_date (.inr ⟨hyear, .inl hlt⟩)

end

/-! ## One page -/

section

variable {σ : Type} [DecidableEq σ] {config : ThreadListConfig σ} {pageSize : Nat}

def Listed (config : ThreadListConfig σ) (file : RolloutFile σ) : Bool := (threadItem config file).isSome

variable {ts : RolloutFile σ → OffsetDateTime} {files : List (RolloutFile σ)}

theorem pageLoop_passed (files : List (RolloutFile σ)) {anchor : AnchorState} (h : anchor.passed = true)
    (items : List (ThreadItem σ)) (n : Nat) (hn : items.length + n = pageSize) :
    pageLoop config pageSize ts files anchor items =
      (items ++ (takePage (Listed config) n files).1.filterMap (threadItem config),
        decide ((takePage (Listed config) n files).2 ≠ [])) := by
  induction files generalizing items n with
  | nil => cases n <;> simp [pageLoop, takePage]
  | cons file files ih =>
      have hskip : anchor.shouldSkip (ts file) = (false, anchor) := by
        rw [shouldSkip, if_pos h]
      rw [pageLoop, hskip]
      dsimp only
      rw [if_neg Bool.false_ne_true]
      cases n with
      | zero =>
          rw [if_pos (by omega)]
          simp [takePage]
      | succ n =>
          rw [if_neg (by omega), takePage, Listed]
          cases hitem : threadItem config file with
          | some item =>
              dsimp only
              rw [ih (items ++ [item]) n (by rw [length_append, length_singleton]; omega)]
              simp [hitem]
          | none =>
              dsimp only
              rw [ih items (n + 1) hn]
              simp

theorem pageLoop_anchored (files : List (RolloutFile σ)) (c : OffsetDateTime) (items : List (ThreadItem σ)) :
    pageLoop config pageSize ts files ⟨c, false⟩ items =
      pageLoop config pageSize ts (files.dropWhile fun file => c ≤ ts file) ⟨c, true⟩ items := by
  induction files with
  | nil => rfl
  | cons file files ih =>
      by_cases hc : c ≤ ts file
      · have hskip : shouldSkip ⟨c, false⟩ (ts file) = (true, ⟨c, false⟩) := if_neg (not_lt_of_ge hc)
        rw [dropWhile_cons_of_pos (by simpa using hc), ← ih, pageLoop, hskip]
        rfl
      · have hskip : shouldSkip ⟨c, false⟩ (ts file) = (false, ⟨c, true⟩) := if_pos (lt_of_not_ge hc)
        rw [dropWhile_cons_of_neg (by simpa using hc), pageLoop, pageLoop, hskip]
        rfl

theorem pageLoop_new (files : List (RolloutFile σ)) (anchor : Option Cursor) :
    pageLoop config pageSize ts files (.new anchor) [] =
      ((takePage (Listed config) pageSize (after ts (anchor.map Cursor.ts) files)).1.filterMap (threadItem config),
        decide ((takePage (Listed config) pageSize (after ts (anchor.map Cursor.ts) files)).2 ≠ [])) := by
  cases anchor with
  | none =>
      rw [AnchorState.new, pageLoop_passed files rfl [] pageSize (zero_add _), nil_append]
      rfl
  | some cursor =>
      rw [AnchorState.new, pageLoop_anchored, pageLoop_passed _ rfl [] pageSize (zero_add _), nil_append]
      rfl

theorem foldl_visit (files : List (RolloutFile σ)) (anchor : AnchorState) (items : List (ThreadItem σ))
    (hcap : scanned + files.length < MAX_SCAN_FILES) :
    let walk := files.foldl (file (visit config pageSize)) ⟨scanned, ⟨items, anchor, false⟩, false⟩
    (walk.visitor.items, walk.visitor.moreMatchesAvailable) = pageLoop config pageSize createdTs files anchor items := by
  induction files generalizing scanned anchor items with
  | nil => rfl
  | cons file files ih =>
      rw [length_cons] at hcap
      have hfile : Walk.file (visit config pageSize) ⟨scanned, ⟨items, anchor, false⟩, false⟩ file =
          { scannedFiles := scanned + 1
            visitor := (visit config pageSize ⟨items, anchor, false⟩ file (scanned + 1)).1
            stopped := (visit config pageSize ⟨items, anchor, false⟩ file (scanned + 1)).2 } := by
        have hscanned : ¬ MAX_SCAN_FILES < scanned + 1 := by omega
        rw [Walk.file, if_neg Bool.false_ne_true]
        exact if_neg hscanned
      have hcapped : ¬ (MAX_SCAN_FILES ≤ scanned + 1 ∧ pageSize ≤ items.length) := by omega
      rw [foldl_cons, hfile, visit, if_neg hcapped, pageLoop]
      dsimp only
      split
      · exact ih _ _ (by omega)
      · split
        · rw [foldl_file_stopped files rfl]
        · cases hitem : threadItem config file with
          | some item => exact ih _ _ (by omega)
          | none => exact ih _ _ (by omega)

/-! ## The order of the list -/

variable (config) in
def sortTs : ThreadSortKey → RolloutFile σ → OffsetDateTime
  | .createdAt => createdTs
  | .updatedAt => updatedTs

variable (config) in
def visitOrder (files : List (RolloutFile σ)) (sortKey : ThreadSortKey) : List (RolloutFile σ) :=
  match config.layout, sortKey with
  | .nestedByDate, .createdAt => walkOrder files
  | .nestedByDate, .updatedAt => sortNewest updatedTs (walkOrder files)
  | .flat, .createdAt => sortNewest createdTs files
  | .flat, .updatedAt => sortNewest updatedTs files

variable (config) in
def cursorTs (sortKey : ThreadSortKey) (file : RolloutFile σ) : Option OffsetDateTime :=
  match sortKey with
  | .createdAt => some file.path.ts
  | .updatedAt => (threadItem config file).bind fun item => item.updatedAt.bind config.rfc3339.parse


theorem path_of_threadItem {file : RolloutFile σ} {item : ThreadItem σ} (h : threadItem config file = some item) :
    item.path = file.path := by
  unfold threadItem buildThreadItem at h
  dsimp only at h
  split at h
  · cases h
  · split at h
    · cases h
    · split at h
      · cases h
      · split at h
        · cases h
          rfl
        · cases h

theorem getLast?_filterMap {page : List (RolloutFile σ)} (h : ∀ file ∈ page, Listed config file = true) :
    (page.filterMap (threadItem config)).getLast? = page.getLast?.bind (threadItem config) := by
  rcases eq_nil_or_concat page with rfl | ⟨before, file, rfl⟩
  · rfl
  · obtain ⟨item, hitem⟩ := Option.isSome_iff_exists.mp (h file (by simp))
    simp [filterMap_append, hitem]

theorem nextCursor_threadsPage {page rest : List (RolloutFile σ)}
    (hpage : ∀ file ∈ page, Listed config file = true) (hcap : scanned < MAX_SCAN_FILES) (sortKey : ThreadSortKey) :
    (threadsPage config (page.filterMap (threadItem config)) (decide (rest ≠ [])) scanned sortKey).nextCursor =
      (next (cursorTs config sortKey) page rest).map Cursor.mk := by
  have hreached : decide (MAX_SCAN_FILES ≤ scanned) = false := decide_eq_false (by omega)
  unfold threadsPage
  dsimp only
  rw [hreached, Bool.false_and, Bool.or_false, Paging.next]
  by_cases hrest : rest = []
  · rw [if_pos hrest, if_neg (by simp [hrest])]
    rfl
  · rw [if_neg hrest, if_pos (by simpa using hrest), buildNextCursor, getLast?_filterMap hpage]
    cases hlast : page.getLast? with
    | none => rfl
    | some file =>
        obtain ⟨item, hitem⟩ := Option.isSome_iff_exists.mp (hpage file (mem_of_getLast? hlast))
        cases sortKey with
        | createdAt =>
            rw [Option.bind_some, hitem]
            dsimp only
            rw [path_of_threadItem hitem]
            rfl
        | updatedAt =>
            rw [Option.bind_some, Option.bind_some, cursorTs, hitem]
            rfl

theorem listed_of_mem_takePage {n : Nat} {l : List (RolloutFile σ)} :
    ∀ file ∈ (takePage (Listed config) n l).1, Listed config file = true := by
  intro file hfile
  rw [takePage_fst] at hfile
  exact (mem_filter.mp (mem_of_mem_take hfile)).2

omit [DecidableEq σ] in
theorem foldl_push (files candidates : List (RolloutFile σ)) (hcap : scanned + files.length < MAX_SCAN_FILES) :
    (files.foldl (file fun candidates file _ => (candidates ++ [file], false)) ⟨scanned, candidates, false⟩).visitor =
      candidates ++ files := by
  induction files generalizing scanned candidates with
  | nil => exact (append_nil _).symm
  | cons file files ih =>
      rw [length_cons] at hcap
      have hscanned : ¬ MAX_SCAN_FILES < scanned + 1 := by omega
      have hfile : Walk.file (fun candidates file _ => (candidates ++ [file], false)) ⟨scanned, candidates, false⟩ file =
          ⟨scanned + 1, candidates ++ [file], false⟩ := by
        rw [Walk.file, if_neg Bool.false_ne_true]
        exact if_neg hscanned
      rw [foldl_cons, hfile, ih _ (by omega), append_assoc]
      rfl

theorem threadsPage_pageLoop (order : List (RolloutFile σ)) (anchor : Option Cursor)
    (hcap : scanned < MAX_SCAN_FILES) (sortKey : ThreadSortKey) :
    let looped := pageLoop config pageSize (sortTs sortKey) order (.new anchor) []
    let split := takePage (Listed config) pageSize (after (sortTs sortKey) (anchor.map Cursor.ts) order)
    (threadsPage config looped.1 looped.2 scanned sortKey).items = split.1.filterMap (threadItem config) ∧
      (threadsPage config looped.1 looped.2 scanned sortKey).nextCursor =
        (next (cursorTs config sortKey) split.1 split.2).map Cursor.mk := by
  dsimp only
  rw [pageLoop_new]
  exact ⟨rfl, nextCursor_threadsPage listed_of_mem_takePage hcap sortKey⟩

theorem getThreadsInRoot_eq (h : files.length < MAX_SCAN_FILES) (anchor : Option Cursor)
    (sortKey : ThreadSortKey) :
    let split := takePage (Listed config) pageSize
      (after (sortTs sortKey) (anchor.map Cursor.ts) (visitOrder config files sortKey))
    (getThreadsInRoot config files pageSize anchor sortKey).items = split.1.filterMap (threadItem config) ∧
      (getThreadsInRoot config files pageSize anchor sortKey).nextCursor =
        (next (cursorTs config sortKey) split.1 split.2).map Cursor.mk := by
  have hwalk : (walkOrder files).length < MAX_SCAN_FILES := by
    rw [(walkOrder_perm files).length_eq]
    exact h
  have htake : files.take MAX_SCAN_FILES = files := take_of_length_le h.le
  unfold getThreadsInRoot visitOrder
  cases config.layout with
  | nestedByDate =>
      cases sortKey with
      | createdAt =>
          dsimp only
          obtain ⟨hits, hmore⟩ := Prod.ext_iff.mp
            (@foldl_visit 0 _ _ config pageSize (walkOrder files) (.new anchor) [] (by omega))
          rw [traverseDirectoriesForPathsCreated, walkRolloutFiles_eq hwalk]
          dsimp only at hits hmore ⊢
          rw [hits, hmore]
          exact threadsPage_pageLoop (walkOrder files) anchor (scannedFiles_lt _ hwalk _) .createdAt
      | updatedAt =>
          dsimp only
          rw [traverseDirectoriesForPathsUpdated, collectFilesByUpdatedAt, walkRolloutFiles_eq hwalk]
          dsimp only
          rw [foldl_push _ _ (by omega), nil_append]
          exact threadsPage_pageLoop (sortNewest updatedTs (walkOrder files)) anchor (scannedFiles_lt _ hwalk _)
            .updatedAt
  | flat =>
      cases sortKey with
      | createdAt =>
          dsimp only
          rw [traverseFlatPathsCreated, collectFlatRolloutFiles, htake]
          exact threadsPage_pageLoop (sortNewest createdTs files) anchor h .createdAt
      | updatedAt =>
          dsimp only
          rw [traverseFlatPathsUpdated, collectFlatFilesByUpdatedAt, htake]
          exact threadsPage_pageLoop (sortNewest updatedTs files) anchor h .updatedAt

/-! ## All pages -/

variable (config pageSize) in
def listThreads (files : List (RolloutFile σ)) (sortKey : ThreadSortKey) : Nat → Option Cursor → Option (List (ThreadItem σ))
  | 0, _ => none
  | n + 1, anchor =>
      let page := getThreadsInRoot config files pageSize anchor sortKey
      match page.nextCursor with
      | some cursor => (listThreads files sortKey n (some cursor)).map (page.items ++ ·)
      | none => some page.items

variable (config pageSize) in
/-- The pages come to an end, and together they are the items of all files that have one, each once and sorted. -/
def ListsEveryThread (files : List (RolloutFile σ)) (sortKey : ThreadSortKey) : Prop :=
  ∃ (n : Nat) (listed : List (RolloutFile σ)), listThreads config pageSize files sortKey n none =
      some (listed.filterMap (threadItem config)) ∧
    listed.Perm (files.filter (Listed config)) ∧ listed.Pairwise (Newer (sortTs sortKey))

theorem listThreads_eq (h : files.length < MAX_SCAN_FILES) (sortKey : ThreadSortKey) (n : Nat)
    (anchor : Option Cursor) : listThreads config pageSize files sortKey n anchor =
      (pages (sortTs sortKey) (Listed config) (cursorTs config sortKey) pageSize (visitOrder config files sortKey) n
        (anchor.map Cursor.ts)).map (filterMap (threadItem config)) := by
  induction n generalizing anchor with
  | zero => rfl
  | succ n ih =>
      obtain ⟨hits, hcursor⟩ := @getThreadsInRoot_eq _ _ config pageSize files h anchor sortKey
      rw [listThreads, pages_succ]
      rw [hits, hcursor]
      cases next (cursorTs config sortKey) _ _ with
      | none => rfl
      | some c =>
          rw [Option.map_some]
          change (listThreads config pageSize files sortKey n (some ⟨c⟩)).map _ = _
          rw [ih, Option.map_some, Option.map_map, Option.map_map]
          exact congrArg (Option.map · _) (funext fun rest => (filterMap_append).symm)

omit [DecidableEq σ] in
variable (config) in
theorem pairwise_visitOrder (files : List (RolloutFile σ)) (sortKey : ThreadSortKey) :
    (visitOrder config files sortKey).Pairwise (Newer (sortTs sortKey)) := by
  unfold visitOrder
  cases config.layout with
  | nestedByDate =>
      cases sortKey with
      | createdAt => exact pairwise_walkOrder files
      | updatedAt => exact pairwise_sortNewest _ _
  | flat =>
      cases sortKey with
      | createdAt => exact pairwise_sortNewest _ _
      | updatedAt => exact pairwise_sortNewest _ _

omit [DecidableEq σ] in
variable (config) in
theorem visitOrder_perm (files : List (RolloutFile σ)) (sortKey : ThreadSortKey) :
    (visitOrder config files sortKey).Perm files := by
  unfold visitOrder
  cases config.layout with
  | nestedByDate =>
      cases sortKey with
      | createdAt => exact walkOrder_perm files
      | updatedAt => exact (sortNewest_perm _ _).trans (walkOrder_perm files)
  | flat =>
      cases sortKey with
      | createdAt => exact sortNewest_perm _ _
      | updatedAt => exact sortNewest_perm _ _

omit [DecidableEq σ] in
theorem Newer.le {a b : RolloutFile σ} (h : Newer ts a b) : ts b ≤ ts a := by
  rcases h with h | ⟨h, -⟩
  · exact h.le
  · exact h.le

theorem eq_of_filterMap_eq {l l' : List (RolloutFile σ)} (hl : ∀ file ∈ l, Listed config file = true)
    (hl' : ∀ file ∈ l', Listed config file = true) (hpath : ∀ a ∈ l, ∀ b ∈ l', a.path = b.path → a = b)
    (h : l.filterMap (threadItem config) = l'.filterMap (threadItem config)) : l = l' := by
  induction l generalizing l' with
  | nil =>
      cases l' with
      | nil => rfl
      | cons b l' =>
          obtain ⟨item, hitem⟩ := Option.isSome_iff_exists.mp (hl' b mem_cons_self)
          rw [filterMap_cons_some hitem] at h
          cases h
  | cons a l ih =>
      obtain ⟨item, hitem⟩ := Option.isSome_iff_exists.mp (hl a mem_cons_self)
      rw [filterMap_cons_some hitem] at h
      cases l' with
      | nil => cases h
      | cons b l' =>
          obtain ⟨item', hitem'⟩ := Option.isSome_iff_exists.mp (hl' b mem_cons_self)
          rw [filterMap_cons_some hitem'] at h
          obtain ⟨rfl, hrest⟩ := cons.inj h
          have hab := hpath a mem_cons_self b mem_cons_self
            ((path_of_threadItem hitem).symm.trans (path_of_threadItem hitem'))
          rw [hab, ih (fun file hfile => hl file (mem_cons_of_mem _ hfile))
            (fun file hfile => hl' file (mem_cons_of_mem _ hfile))
            (fun x hx y hy => hpath x (mem_cons_of_mem _ hx) y (mem_cons_of_mem _ hy)) hrest]

theorem listsEveryThread_iff_separates (hps : (files.map RolloutFile.path).Nodup)
    (hcap : files.length < MAX_SCAN_FILES) (hpage : 0 < pageSize) (sortKey : ThreadSortKey) :
    ListsEveryThread config pageSize files sortKey ↔
      Paging.Separates (sortTs sortKey) (Listed config) (cursorTs config sortKey) pageSize
        (visitOrder config files sortKey) := by
  have hnewer := pairwise_visitOrder config files sortKey
  have hsrt := hnewer.imp Newer.le
  have hperm := visitOrder_perm config files sortKey
  have hnd : (visitOrder config files sortKey).Nodup := hperm.nodup_iff.mpr (List.Nodup.of_map _ hps)
  have hinj : ∀ a ∈ files, ∀ b ∈ files, a.path = b.path → a = b := fun a ha b hb => inj_on_of_nodup_map hps ha hb
  constructor
  · rintro ⟨n, listed, hlist, hlis, hlistedSorted⟩
    rw [listThreads_eq hcap] at hlist
    obtain ⟨collected, hpages, hits⟩ := Option.map_eq_some_iff.mp hlist
    have hcollected : ∀ file ∈ collected, file ∈ files.filter (Listed config) :=
      fun file hfile => (hperm.filter _).subset (mem_of_pages hpages file hfile)
    have hlis' : ∀ file ∈ listed, file ∈ files.filter (Listed config) := fun file hfile => hlis.subset hfile
    obtain rfl : collected = listed := by
      refine eq_of_filterMap_eq (fun file hfile => (mem_filter.mp (hcollected file hfile)).2)
        (fun file hfile => (mem_filter.mp (hlis' file hfile)).2) (fun a ha b hb => ?_) hits
      exact hinj a (mem_filter.mp (hcollected a ha)).1 b (mem_filter.mp (hlis' b hb)).1
    exact (exists_pages_perm_iff hsrt hnd hpage).mp
      ⟨n, collected, hpages, hlis.trans (hperm.filter _).symm, hlistedSorted.imp Newer.le⟩
  · intro h
    obtain ⟨n, hn⟩ := exists_pages hsrt hnd hpage h 0 (atBorder_none _ _ _ _)
    rw [zero_mul, drop_zero] at hn
    refine ⟨n, _, ?_, hperm.filter _, hnewer.filter _⟩
    rw [listThreads_eq hcap, Option.map_none, hn]
    rfl

variable (config pageSize) in
/-- No page ends inside a group of files of one time. Behind every full page with an item the cursor is found, no later
than the last file of the page, and the next file with an item is older; at the end a cursor does not lead back. -/
structure BordersApart (files : List (RolloutFile σ)) (sortKey : ThreadSortKey) : Prop where
  apart : ∀ k last next, 0 < k → ((visitOrder config files sortKey).filter (Listed config))[k * pageSize - 1]? = some last →
    ((visitOrder config files sortKey).filter (Listed config))[k * pageSize]? = some next →
    ∃ c, cursorTs config sortKey last = some c ∧ sortTs sortKey next < c ∧ c ≤ sortTs sortKey last
  ends : ∀ k last, 0 < k → ((visitOrder config files sortKey).filter (Listed config)).length = k * pageSize →
    ((visitOrder config files sortKey).filter (Listed config)).getLast? = some last →
    (visitOrder config files sortKey).getLast? ≠ some last →
    ∀ c, cursorTs config sortKey last = some c → c ≤ sortTs sortKey last

theorem bordersApart_of_nodup {sortKey : ThreadSortKey} (hpage : 0 < pageSize)
    (hcursor : ∀ file ∈ files, Listed config file = true → cursorTs config sortKey file = some (sortTs sortKey file))
    (hnd : (files.map (sortTs sortKey)).Nodup) : BordersApart config pageSize files sortKey := by
  have hperm := visitOrder_perm config files sortKey
  have hstrict : ((visitOrder config files sortKey).filter (Listed config)).Pairwise
      fun a b => sortTs sortKey b < sortTs sortKey a := by
    have hne : (visitOrder config files sortKey).Pairwise fun a b => sortTs sortKey a ≠ sortTs sortKey b :=
      List.pairwise_map.mp ((hperm.map _).nodup_iff.mpr hnd)
    refine List.Pairwise.filter _ ?_
    exact ((pairwise_visitOrder config files sortKey).and hne).imp fun h => lt_of_le_of_ne h.1.le h.2.symm
  have hmem : ∀ file ∈ (visitOrder config files sortKey).filter (Listed config),
      cursorTs config sortKey file = some (sortTs sortKey file) := by
    intro file hfile
    obtain ⟨hfile, hlis⟩ := List.mem_filter.mp hfile
    exact hcursor file (hperm.subset hfile) hlis
  refine ⟨fun k last next hk hlast hnext => ?_, fun k last hk hlen hlast _ c hc => ?_⟩
  · refine ⟨_, hmem last (List.mem_of_getElem? hlast), ?_, le_rfl⟩
    obtain ⟨hi, rfl⟩ := List.getElem?_eq_some_iff.mp hlast
    obtain ⟨hj, rfl⟩ := List.getElem?_eq_some_iff.mp hnext
    have hpos := Nat.mul_pos hk hpage
    exact List.pairwise_iff_getElem.mp hstrict _ _ hi hj (by omega)
  · rw [hmem last (List.mem_of_getLast? hlast)] at hc
    exact (Option.some.inj hc).ge

/-- Every thread is listed exactly if the pages do not end inside a group of files of one time. -/
theorem lists_every_thread_iff {files : List (RolloutFile σ)} (hpaths : (files.map RolloutFile.path).Nodup)
    (hcap : files.length < MAX_SCAN_FILES) (hpage : 0 < pageSize) (sortKey : ThreadSortKey) :
    ListsEveryThread config pageSize files sortKey ↔ BordersApart config pageSize files sortKey := by
  rw [listsEveryThread_iff_separates hpaths hcap hpage]
  exact ⟨fun h => ⟨h.inside, h.last⟩, fun h => ⟨h.apart, h.ends⟩⟩

end

/-! ## Two threads -/

def sampleTime (second : Nat) : OffsetDateTime := ⟨2025, 1, 2, 3, 4, second, 0⟩

def sampleRfc3339 : Rfc3339 where
  format t := if t = sampleTime 30 then some "2025-01-02T03:04:30Z" else none
  parse s := if s = "2025-01-02T03:04:30Z" then some (sampleTime 30) else none
  parse_format := by
    intro t s h
    split at h
    · rename_i ht
      cases h
      rw [if_pos rfl, ht]
    · cases h

def sampleConfig (layout : ThreadListLayout) : ThreadListConfig Text :=
  { allowedSources := [], modelProviders := none, cwdFilters := none, defaultProvider := "openai", layout
    pathsMatch := fun a b => a = b, rfc3339 := sampleRfc3339 }

def sampleFile (second id : Nat) : RolloutFile Text :=
  { path := ⟨"rollout", sampleTime second, id⟩, modified := some (sampleTime 30)
    lines :=
      [.item (.sessionMeta
          { id := "t", timestamp := "2025-01-02T03:04:05Z", cwd := "/work", source := "cli",
            agentNickname := none, agentRole := none, modelProvider := none, cliVersion := "0",
            gitBranch := none, gitSha := none, gitOriginUrl := none }),
        .item (.eventMsg (.threadGoalUpdated "goal"))] }

theorem lists_every_thread_of_sampleFile :
    ListsEveryThread (sampleConfig .flat) 1 [sampleFile 5 1, sampleFile 6 2] .createdAt :=
  (lists_every_thread_iff (by decide) (by decide) one_pos .createdAt).mpr
    (bordersApart_of_nodup one_pos (fun _ _ _ => rfl) (by decide))

/-- Of two threads of one second the second page lists neither. -/
theorem thread_of_one_second_is_lost :
    ([sampleFile 5 1, sampleFile 5 2].map RolloutFile.path).Nodup ∧ [sampleFile 5 1, sampleFile 5 2].length < MAX_SCAN_FILES ∧
      ¬ ListsEveryThread (sampleConfig .nestedByDate) 1 [sampleFile 5 1, sampleFile 5 2] .createdAt := by
  refine ⟨by decide, by decide, fun h => ?_⟩
  have hseparates := (listsEveryThread_iff_separates (by decide) (by decide) one_pos .createdAt).mp h
  have hperm := (visitOrder_perm (sampleConfig .nestedByDate) [sampleFile 5 1, sampleFile 5 2] .createdAt).filter
    (Listed (sampleConfig .nestedByDate))
  have hall : [sampleFile 5 1, sampleFile 5 2].filter (Listed (sampleConfig .nestedByDate)) =
      [sampleFile 5 1, sampleFile 5 2] := rfl
  have hsecond : ∀ file ∈ [sampleFile 5 1, sampleFile 5 2], sortTs .createdAt file = sampleTime 5 := by
    intro file hfile
    rcases mem_pair.mp hfile with rfl | rfl
    · rfl
    · rfl
  rw [hall] at hperm
  have hlen := hperm.length_eq
  obtain ⟨c, hc, hlt, -⟩ := hseparates.inside 1 _ _ one_pos (getElem?_eq_getElem (by rw [hlen]; decide))
    (getElem?_eq_getElem (by rw [hlen]; decide))
  rw [hsecond _ (hperm.subset (getElem_mem _))] at hlt
  cases hc
  exact absurd hlt (not_lt_of_ge (hsecond _ (hperm.subset (getElem_mem _))).le)

end CodexStudy.Rollout
