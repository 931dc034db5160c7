import CodexStudy.Rollout.SessionIndex
import CodexStudy.StreamParser.Theorems.Utf8Stream

/-!
# Names in the index of sessions

Read from its end, the index gives the name in the last entry of a thread, and so it does read from its beginning.
-/

namespace CodexStudy.Rollout

open CodexStudy.Lib CodexStudy.Lib.Text List
open CodexStudy.StreamParser (fromUtf8 fromUtf8_utf8)

section

variable {σ : Type} (fromStr : Text → Option SessionIndexEntry)
  (visitEntry : σ → SessionIndexEntry → Option SessionIndexEntry × σ)

/-- Entries are visited until one is given back. -/
def visitAll : List SessionIndexEntry → σ → Option SessionIndexEntry × σ
  | [], s => (none, s)
  | entry :: rest, s =>
      match visitEntry s entry with
      | (some found, s) => (some found, s)
      | (none, s) => visitAll rest s

/-- What is done when all bytes were met. -/
def finishScan : Option SessionIndexEntry × List UInt8 × σ → Option SessionIndexEntry × σ
  | (some entry, _, s) => (some entry, s)
  | (none, lineRev, s) => parseLineFromRev fromStr visitEntry lineRev s

def entryOf (line : Text) : Option SessionIndexEntry := if line.trim = [] then none else fromStr line.trim

def entries (text : Text) : List SessionIndexEntry := (lines text).filterMap (entryOf fromStr)

/-- The name in the last entry of a thread. -/
def lastName (es : List SessionIndexEntry) (threadId : ThreadId) : Option Text :=
  (es.reverse.find? (·.id == threadId)).map (·.threadName)

end

variable {ls : List Text} {last : Text} {entry : SessionIndexEntry} {threadId : ThreadId}

section

variable {σ : Type} {fromStr : Text → Option SessionIndexEntry}
  {visitEntry : σ → SessionIndexEntry → Option SessionIndexEntry × σ} {line : Text}

theorem visitAll_append (front back : List SessionIndexEntry) (s : σ) :
    visitAll visitEntry (front ++ back) s =
      match visitAll visitEntry front s with
      | (some found, s) => (some found, s)
      | (none, s) => visitAll visitEntry back s := by
  induction front generalizing s with
  | nil => rfl
  | cons entry front ih =>
      rw [cons_append, visitAll, visitAll]
      split <;> simp_all

/-! ## Chunks -/

theorem finishScan_append (front back lineRev : List UInt8) (s : σ) :
    finishScan fromStr visitEntry (scanBytes fromStr visitEntry (front ++ back) lineRev s) =
      match scanBytes fromStr visitEntry front lineRev s with
      | (some entry, _, s) => (some entry, s)
      | (none, lineRev, s) => finishScan fromStr visitEntry (scanBytes fromStr visitEntry back lineRev s) := by
  induction front generalizing lineRev s with
  | nil => rfl
  | cons byte front ih =>
      rw [cons_append, scanBytes, scanBytes]
      split
      · split
        · rfl
        · exact ih _ _
      · exact ih _ _

theorem scanChunks_eq (file : List UInt8) {remaining : Nat} (h : remaining ≤ file.length) (lineRev : List UInt8) (s : σ) :
    scanChunks fromStr visitEntry file remaining lineRev s =
      finishScan fromStr visitEntry (scanBytes fromStr visitEntry (file.take remaining).reverse lineRev s) := by
  induction remaining using Nat.strongRecOn generalizing lineRev s with
  | ind remaining ih =>
      rw [scanChunks]
      split
      next hzero => simp [hzero, scanBytes, finishScan]
      next hpos =>
        have hread : min remaining READ_CHUNK_SIZE ≤ remaining := min_le_left ..
        have htake : file.take remaining = file.take (remaining - min remaining READ_CHUNK_SIZE) ++
            (file.drop (remaining - min remaining READ_CHUNK_SIZE)).take (min remaining READ_CHUNK_SIZE) := by
          rw [← take_add, Nat.sub_add_cancel hread]
        rw [htake, reverse_append, finishScan_append]
        have hless : remaining - min remaining READ_CHUNK_SIZE < remaining := by
          simp only [READ_CHUNK_SIZE]
          omega
        dsimp only
        rcases scanBytes fromStr visitEntry _ lineRev s with ⟨_ | entry, lineRev, s⟩
        · exact ih _ hless (by omega) _ _
        · rfl

/-! ## Lines -/

theorem newline_of_mem_utf8EncodeChar {c : Char} (h : '\n'.toUInt8 ∈ String.utf8EncodeChar c) : c = '\n' := by
  obtain ⟨i, hi, hbyte⟩ := getElem_of_mem h
  have hzero : i = 0 := by
    rw [← @UInt8.isUTF8FirstByte_getElem_utf8EncodeChar c i hi, hbyte]
    decide
  subst hzero
  have hcons : String.utf8EncodeChar '\n' ++ (String.utf8EncodeChar c).tail = String.utf8EncodeChar c ++ [] := by
    rw [append_nil, ← cons_head_tail (l := String.utf8EncodeChar c) (ne_nil_of_mem h), tail_cons, head_eq_getElem, hbyte]
    rfl
  exact (utf8EncodeChar_append_inj hcons).symm

theorem scanBytes_line (h : ∀ byte ∈ bytes, byte ≠ '\n'.toUInt8) (rest lineRev : List UInt8) (s : σ) :
    scanBytes fromStr visitEntry (bytes ++ rest) lineRev s = scanBytes fromStr visitEntry rest (lineRev ++ bytes) s := by
  induction bytes generalizing lineRev with
  | nil => simp
  | cons byte bytes ih =>
      rw [forall_mem_cons] at h
      rw [cons_append, scanBytes, if_neg h.1, ih h.2, append_assoc, singleton_append]

theorem parseLineFromRev_utf8 (line : Text) (s : σ) :
    parseLineFromRev fromStr visitEntry (utf8 line).reverse s = visitAll visitEntry (entryOf fromStr line).toList s := by
  unfold parseLineFromRev entryOf
  by_cases hblank : line.trim = []
  · rw [if_pos hblank, reverse_reverse, fromUtf8_utf8]
    simp [hblank, visitAll]
  · have hne : (utf8 line).reverse ≠ [] := by
      intro hnil
      rw [reverse_eq_nil_iff, ← length_eq_zero_iff, length_utf8, byteLen_eq_zero] at hnil
      subst hnil
      exact hblank rfl
    rw [if_neg hblank, if_neg hne, reverse_reverse, fromUtf8_utf8]
    simp only [trim_stripCr, if_neg hblank]
    cases fromStr line.trim with
    | none => rfl
    | some entry =>
        rw [Option.toList_some, visitAll]
        dsimp only
        cases visitEntry s entry with
        | mk found s => cases found <;> rfl

theorem ne_newline_of_mem_utf8 (h : '\n' ∉ line) : ∀ byte ∈ (utf8 line).reverse, byte ≠ '\n'.toUInt8 := by
  rintro byte hbyte rfl
  obtain ⟨c, hc, hmem⟩ := mem_flatMap.mp (mem_reverse.mp hbyte)
  exact h (newline_of_mem_utf8EncodeChar hmem ▸ hc)

theorem finishScan_ofLines (hls : ∀ line ∈ ls, '\n' ∉ line) (hlast : '\n' ∉ last) (s : σ) :
    finishScan fromStr visitEntry (scanBytes fromStr visitEntry (utf8 (ofLines ls ++ last)).reverse [] s) =
      visitAll visitEntry ((ls ++ [last]).filterMap (entryOf fromStr)).reverse s := by
  have hlastLine := ne_newline_of_mem_utf8 hlast
  induction ls using reverseRecOn generalizing last s with
  | nil =>
      rw [show ofLines [] ++ last = last from rfl, ← append_nil (utf8 last).reverse, scanBytes_line hlastLine, scanBytes,
        nil_append, finishScan, parseLineFromRev_utf8]
      cases h : entryOf fromStr last <;> simp [h]
  | append_singleton ls line ih =>
      rw [forall_mem_append, forall_mem_singleton] at hls
      have hbytes : (utf8 (ofLines (ls ++ [line]) ++ last)).reverse =
          (utf8 last).reverse ++ '\n'.toUInt8 :: (utf8 (ofLines ls ++ line)).reverse := by
        have hnewline : String.utf8EncodeChar '\n' = ['\n'.toUInt8] := by decide
        simp [ofLines, utf8, hnewline]
      rw [hbytes, scanBytes_line hlastLine, nil_append, scanBytes, if_pos rfl, parseLineFromRev_utf8, filterMap_append,
        reverse_append, visitAll_append, show (filterMap (entryOf fromStr) [last]).reverse = (entryOf fromStr last).toList by
          cases h : entryOf fromStr last <;> simp [h]]
      cases visitAll visitEntry (entryOf fromStr last).toList s with
      | mk found s =>
          cases found with
          | some found => rfl
          | none => exact ih hls.1 hls.2 s (ne_newline_of_mem_utf8 hls.2)

theorem entryOf_stripCr (line : Text) : entryOf fromStr (stripCr line) = entryOf fromStr line := by
  rw [entryOf, trim_stripCr, entryOf]

theorem entries_ofLines (hls : ∀ line ∈ ls, '\n' ∉ line) (hlast : '\n' ∉ last) :
    entries fromStr (ofLines ls ++ last) = (ls ++ [last]).filterMap (entryOf fromStr) := by
  rw [entries, lines_ofLines_append hls hlast, filterMap_append, filterMap_append, filterMap_map]
  congr 1
  · exact filterMap_congr fun line _ => entryOf_stripCr line
  · unfold lastLine
    split
    next hnil => simp [hnil, entryOf, Text.trim, trimStart, trimEnd]
    next => rfl

/-- The scan from the end visits the entries from the last to the first. -/
theorem scanIndexFromEndForEach_utf8 (text : Text) (s : σ) :
    scanIndexFromEndForEach fromStr visitEntry (utf8 text) s = visitAll visitEntry (entries fromStr text).reverse s := by
  obtain ⟨ls, last, rfl, hls, hlast⟩ := exists_ofLines text
  rw [scanIndexFromEndForEach, scanChunks_eq _ (le_refl _), take_length, finishScan_ofLines hls hlast,
    entries_ofLines hls hlast]

theorem visitAll_find (predicate : SessionIndexEntry → Bool) (es : List SessionIndexEntry) :
    (visitAll (fun _ entry => (if predicate entry then some entry else none, ())) es ()).1 = es.find? predicate := by
  induction es with
  | nil => rfl
  | cons entry es ih =>
      rw [visitAll, find?_cons]
      cases predicate entry with
      | true => rfl
      | false => exact ih

theorem findThreadNameById_utf8 (text : Text) (threadId : ThreadId) :
    findThreadNameById fromStr (some (utf8 text)) threadId = lastName (entries fromStr text) threadId := by
  rw [lastName, ← visitAll_find, ← scanIndexFromEndForEach_utf8]
  rfl

theorem lastName_cons (entry : SessionIndexEntry) (es : List SessionIndexEntry) (threadId : ThreadId) :
    lastName (entry :: es) threadId =
      (lastName es threadId).or (if entry.id = threadId then some entry.threadName else none) := by
  rw [lastName, reverse_cons, find?_append, find?_singleton, lastName]
  cases es.reverse.find? (·.id == threadId) <;> by_cases h : entry.id = threadId <;> simp [h]

theorem lastName_cons_of_mem {es : List SessionIndexEntry}
    (h : threadId ∈ es.map (·.id)) : lastName (entry :: es) threadId = lastName es threadId := by
  obtain ⟨later, hlater, rfl⟩ := mem_map.mp h
  have hsome : (lastName es later.id).isSome := by
    rw [lastName, Option.isSome_map, find?_isSome]
    exact ⟨later, mem_reverse.mpr hlater, beq_self_eq_true _⟩
  rw [lastName_cons, Option.or_of_isSome hsome]

/-! ## Both scans -/

theorem insertName_eq (threadIds : Finset ThreadId) (names : HashMap ThreadId Text) (line : Text) :
    insertName fromStr threadIds names line =
      match entryOf fromStr line with
      | none => names
      | some entry =>
          if entry.threadName.trim ≠ [] ∧ entry.id ∈ threadIds then
              names.insert entry.id entry.threadName.trim else names := by
  unfold insertName entryOf
  split
  · rfl
  · cases fromStr line.trim <;> rfl

theorem lookup_insertNames {threadIds : Finset ThreadId} (hid : threadId ∈ threadIds)
    (hnames : ∀ entry ∈ ls.filterMap (entryOf fromStr), entry.threadName.trim = entry.threadName ∧ entry.threadName ≠ [])
    (names : HashMap ThreadId Text) : (ls.foldl (insertName fromStr threadIds) names).lookup threadId =
      (lastName (ls.filterMap (entryOf fromStr)) threadId).or (names.lookup threadId) := by
  induction ls generalizing names with
  | nil => rfl
  | cons line ls ih =>
      rw [foldl_cons, insertName_eq]
      cases h : entryOf fromStr line with
      | none =>
          rw [filterMap_cons_none h] at hnames ⊢
          exact ih hnames names
      | some entry =>
          rw [filterMap_cons_some h] at hnames ⊢
          obtain ⟨⟨htrim, hne⟩, hnames⟩ := forall_mem_cons.mp hnames
          dsimp only
          rw [ih hnames, lastName_cons, Option.or_assoc, htrim]
          by_cases heq : entry.id = threadId
          · subst heq
            rw [if_pos ⟨hne, hid⟩, if_pos rfl, AList.lookup_insert, Option.some_or]
          · split <;> simp [AList.lookup_insert_ne (Ne.symm heq)]

theorem visitAll_byName (name : Text) (es : List SessionIndexEntry) :
    visitAll (visitByName name fun _ => false) es.reverse ⟨∅, []⟩ = (none, ⟨(es.map (·.id)).toFinset,
        ((es.map (·.id)).dedup.filter fun threadId => lastName es threadId = some name).reverse⟩) := by
  induction es with
  | nil => rfl
  | cons entry es ih =>
      have hearlier : ((es.map (·.id)).dedup.filter fun threadId => lastName (entry :: es) threadId = some name) =
          (es.map (·.id)).dedup.filter fun threadId => lastName es threadId = some name :=
        filter_congr fun threadId h => by rw [lastName_cons_of_mem (mem_dedup.mp h)]
      rw [reverse_cons, visitAll_append, ih, map_cons, toFinset_cons]
      dsimp only
      rw [visitAll, visitByName]
      simp only [mem_toFinset]
      by_cases hmem : entry.id ∈ es.map (·.id)
      · rw [if_pos hmem, dedup_cons_of_mem hmem, hearlier, Finset.insert_eq_of_mem (mem_toFinset.mpr hmem)]
        rfl
      · have hlast : lastName (entry :: es) entry.id = some entry.threadName := by
          have hnone : lastName es entry.id = none := by
            rw [lastName, Option.map_eq_none_iff, find?_eq_none]
            exact fun later hlater heq => hmem (mem_map.mpr ⟨later, mem_reverse.mp hlater, beq_iff_eq.mp heq⟩)
          rw [lastName_cons, hnone, if_pos rfl, Option.none_or]
        rw [if_neg hmem, dedup_cons_of_notMem hmem, filter_cons, hlast, hearlier]
        by_cases hname : entry.threadName = name <;> simp [hname, visitAll]

/-- A single name is the one that all names have, and the threads of a name are those with it now, newest first. -/
theorem scans_agree (text : Text) (hnames : ∀ entry ∈ entries fromStr text,
      entry.threadName.trim = entry.threadName ∧ entry.threadName ≠ []) :
    (∀ threadIds : Finset ThreadId, ∀ threadId ∈ threadIds,
      (findThreadNamesByIds fromStr (some (utf8 text)) threadIds).map (·.lookup threadId) =
        .ok (findThreadNameById fromStr (some (utf8 text)) threadId)) ∧
    ∀ name, streamThreadIdsFromEndByName fromStr (utf8 text) name (fun _ => false) =
      (((entries fromStr text).map (·.id)).dedup.filter
        fun threadId => findThreadNameById fromStr (some (utf8 text)) threadId = some name).reverse := by
  refine ⟨fun threadIds threadId hid => ?_, fun name => ?_⟩
  · rw [findThreadNamesByIds, if_neg (Finset.ne_empty_of_mem hid), fromUtf8_utf8, findThreadNameById_utf8]
    have hlk := lookup_insertNames hid hnames ∅
    rw [AList.lookup_empty, Option.or_none] at hlk
    exact congrArg Except.ok hlk
  · simp only [findThreadNameById_utf8]
    rw [streamThreadIdsFromEndByName, scanIndexFromEndForEach_utf8, visitAll_byName]

/-! ## Appended names -/

/-- What is written for an entry is one line, and is read back. -/
def WrittenAsLine (fromStr : Text → Option SessionIndexEntry) (toText : SessionIndexEntry → Text) (entry : SessionIndexEntry) :
    Prop :=
  '\n' ∉ toText entry ∧ entryOf fromStr (toText entry) = some entry

theorem entries_append {toText : SessionIndexEntry → Text}
    (hwr : WrittenAsLine fromStr toText entry) {text : Text} (hend : text = [] ∨ text.getLast? = some '\n') :
    entries fromStr (text ++ (toText entry ++ ['\n'])) = entries fromStr text ++ [entry] := by
  obtain ⟨ls, last, rfl, hls, hlast⟩ := exists_ofLines text
  have hnil : last = [] := by
    by_contra hne
    rw [append_eq_nil_iff, getLast?_append_of_ne_nil _ hne] at hend
    exact hend.elim (fun h => hne h.2) fun h => hlast (mem_of_getLast? h)
  subst hnil
  have hspl : ofLines ls ++ [] ++ (toText entry ++ ['\n']) = ofLines (ls ++ [toText entry]) ++ [] := by simp [ofLines]
  rw [hspl, entries_ofLines (forall_mem_append.mpr ⟨hls, forall_mem_singleton.mpr hwr.1⟩) hlast, entries_ofLines hls hlast,
    append_assoc, filterMap_append, filterMap_append, filterMap_append, filterMap_cons_some hwr.2, append_assoc]
  rfl

/-- The name of a thread is the last one appended for it. Of a thread that none was appended for, it stays. -/
theorem appended_names_found (before : Option Text) (hend : ∀ text ∈ before, text = [] ∨ text.getLast? = some '\n')
    (toText : SessionIndexEntry → Text) (es : List SessionIndexEntry) (hwr : ∀ entry ∈ es, WrittenAsLine fromStr toText entry)
    (threadId : ThreadId) :
    findThreadNameById fromStr (es.foldl (appendSessionIndexEntry toText) (before.map utf8)) threadId =
      (lastName es threadId).or (findThreadNameById fromStr (before.map utf8) threadId) := by
  induction es generalizing before with
  | nil => rfl
  | cons entry es ih =>
      rw [forall_mem_cons] at hwr
      have hend' : before.getD [] = [] ∨ (before.getD []).getLast? = some '\n' := by
        cases before with
        | none => exact .inl rfl
        | some text => exact hend text rfl
      have happend : appendSessionIndexEntry toText (before.map utf8) entry =
          (some (before.getD [] ++ (toText entry ++ ['\n']))).map utf8 := by
        cases before <;> simp [appendSessionIndexEntry, utf8]
      have hfind : findThreadNameById fromStr (some (utf8 (before.getD []))) threadId =
          findThreadNameById fromStr (before.map utf8) threadId := by
        cases before with
        | none => exact findThreadNameById_utf8 [] threadId
        | some text => rfl
      have hnew : lastName (entries fromStr (before.getD []) ++ [entry]) threadId =
          (if entry.id = threadId then some entry.threadName else none).or
            (lastName (entries fromStr (before.getD [])) threadId) := by
        by_cases h : entry.id = threadId <;> simp [lastName, h]
      rw [foldl_cons, happend, ih _ (by simp) hwr.2, Option.map_some, ← hfind, findThreadNameById_utf8,
        findThreadNameById_utf8, entries_append hwr.1 hend', hnew, lastName_cons, Option.or_assoc]

/-! ## An index of two threads -/

/-- What serde_json writes where nothing has to be escaped. -/
def plainToText (entry : SessionIndexEntry) : Text :=
  "\x7b\"id\":\"".toList ++ entry.id ++ "\",\"thread_name\":\"" ++ entry.threadName ++ "\",\"updated_at\":\"" ++
    entry.updatedAt ++ "\"\x7d"

def plainThread (last : Char) : ThreadId := "0199a213-81c0-7800-8aa1-bbab2a035a5".toList ++ [last]

/-- The first thread is renamed after the second one got the name that it had. -/
def plainEntries : List SessionIndexEntry :=
  [⟨plainThread '1', "plan", "2026-01-01"⟩, ⟨plainThread '2', "plan", "2026-01-02"⟩, ⟨plainThread '1', "review", "2026-01-03"⟩]

def plainFromStr (text : Text) : Option SessionIndexEntry := plainEntries.find? fun entry => plainToText entry = text

def plainIndex : Text := ofLines (plainEntries.map plainToText)

theorem scans_agree_plain :
    (findThreadNamesByIds plainFromStr (some (utf8 plainIndex)) {plainThread '1', plainThread '2'}).map
        (·.lookup (plainThread '1')) = .ok (findThreadNameById plainFromStr (some (utf8 plainIndex)) (plainThread '1')) ∧
      streamThreadIdsFromEndByName plainFromStr (utf8 plainIndex) "plan" (fun _ => false) =
        (((entries plainFromStr plainIndex).map (·.id)).dedup.filter fun threadId =>
          findThreadNameById plainFromStr (some (utf8 plainIndex)) threadId = some "plan".toList).reverse := by
  obtain ⟨hnames, hthreads⟩ := @scans_agree plainFromStr plainIndex (by decide +kernel)
  exact ⟨hnames _ _ (Finset.mem_insert_self _ _), hthreads "plan"⟩

theorem appended_names_found_plain :
    findThreadNameById plainFromStr (plainEntries.foldl (appendSessionIndexEntry plainToText)
      ((some plainIndex).map utf8)) (plainThread '1') = some "review".toList := by
  rw [appended_names_found (some plainIndex) (fun _ h => .inr (by cases h; decide +kernel)) plainToText plainEntries
    (by unfold WrittenAsLine; decide +kernel)]
  rw [show lastName plainEntries (plainThread '1') = some "review".toList by decide +kernel, Option.some_or]

end

end CodexStudy.Rollout
