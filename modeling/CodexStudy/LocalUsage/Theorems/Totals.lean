import CodexStudy.LocalUsage.Scan

/-!
# A log is counted once

What was counted is what was used in all, less what stands in lines that are lost after the last total.
-/

namespace CodexStudy.LocalUsage

open CodexStudy.Lib HashMap UsageTotals

variable {u v usage lost' : UsageTotals} {usedTotal : Bool}

namespace UsageTotals

instance : Add UsageTotals := ⟨fun u v => ⟨u.input + v.input, u.cached + v.cached, u.output + v.output⟩⟩

instance : Sub UsageTotals := ⟨fun u v => ⟨u.input - v.input, u.cached - v.cached, u.output - v.output⟩⟩

@[simp] theorem input_add (u v : UsageTotals) : (u + v).input = u.input + v.input := rfl

@[simp] theorem cached_add (u v : UsageTotals) : (u + v).cached = u.cached + v.cached := rfl

@[simp] theorem output_add (u v : UsageTotals) : (u + v).output = u.output + v.output := rfl

@[simp] theorem input_sub (u v : UsageTotals) : (u - v).input = u.input - v.input := rfl

@[simp] theorem cached_sub (u v : UsageTotals) : (u - v).cached = u.cached - v.cached := rfl

@[simp] theorem output_sub (u v : UsageTotals) : (u - v).output = u.output - v.output := rfl

theorem eq_of_fields (hinput : u.input = v.input) (hcached : u.cached = v.cached)
    (hout : u.output = v.output) : u = v := by
  cases u
  cases v
  simp_all

/-- None of the three is less. -/
structure AtMost (u v : UsageTotals) : Prop where
  input : u.input ≤ v.input
  cached : u.cached ≤ v.cached
  output : u.output ≤ v.output

instance (u v : UsageTotals) : Decidable (u.AtMost v) :=
  decidable_of_iff (u.input ≤ v.input ∧ u.cached ≤ v.cached ∧ u.output ≤ v.output)
    ⟨fun ⟨input, cached, output⟩ => ⟨input, cached, output⟩, fun ⟨input, cached, output⟩ => ⟨input, cached, output⟩⟩

theorem AtMost.refl (u : UsageTotals) : u.AtMost u := ⟨Int.le_refl _, Int.le_refl _, Int.le_refl _⟩

theorem AtMost.lose {lost : UsageTotals} (h : AtMost {} lost) (hgr : u.AtMost v) : AtMost {} (lost + (v - u)) where
  input := Int.add_nonneg h.input (Int.sub_nonneg.mpr hgr.input)
  cached := Int.add_nonneg h.cached (Int.sub_nonneg.mpr hgr.cached)
  output := Int.add_nonneg h.output (Int.sub_nonneg.mpr hgr.output)

end UsageTotals

/-! ## Logs of what is used -/

def reportedUsage (tools : UsageTools) (value : Json) : Option (UsageTotals × Bool) :=
  let entryType := (value.getStr "type").getD []
  let payloadType := (payloadOf value).bind fun payload => payload.getStr "type"
  if (entryType = "event_msg".toList ∨ entryType = []) ∧ payloadType = some "token_count".toList then
    (payloadOf value).bind tools.readTokenCount
  else none

/-- The day of a line is one that is counted. -/
def OnKnownDay (tools : UsageTools) (daily : HashMap Text DailyTotals) (value : Json) : Prop :=
  ∃ day, (tools.readTimestampMs value).bind tools.dayKeyForTimestampMs = some day ∧ (daily.lookup day).isSome

/-- A log from `used` and `lost` to `used'` and `lost'`: what was used, and what of it stands in lines lost after the
last total. -/
inductive UsageLog (tools : UsageTools) (daily : HashMap Text DailyTotals) :
    UsageTotals → UsageTotals → List LogLine → UsageTotals → UsageTotals → Prop
  | nil {used lost} : UsageLog tools daily used lost [] used lost
  | other {used lost line lines used' lost'} {value : Json} (hvalue : line.value? = some value)
      (hreports : reportedUsage tools value = none) (hrest : UsageLog tools daily used lost lines used' lost') :
      UsageLog tools daily used lost (line :: lines) used' lost'
  | snapshot {used lost line lines used' lost'} {value : Json} {total : UsageTotals} (hvalue : line.value? = some value)
      (hreports : reportedUsage tools value = some (total, true)) (hgrows : used.AtMost total)
      (hday : OnKnownDay tools daily value) (hrest : UsageLog tools daily total {} lines used' lost') :
      UsageLog tools daily used lost (line :: lines) used' lost'
  | delta {used lost line lines used' lost'} {value : Json} {total : UsageTotals} (hvalue : line.value? = some value)
      (hreports : reportedUsage tools value = some (total - used, false)) (hgrows : used.AtMost total)
      (hday : OnKnownDay tools daily value) (hrest : UsageLog tools daily total lost lines used' lost') :
      UsageLog tools daily used lost (line :: lines) used' lost'
  | lost {used lost line lines used' lost'} {total : UsageTotals} (hvalue : line.value? = none)
      (hgrows : used.AtMost total) (hrest : UsageLog tools daily total (lost + (total - used)) lines used' lost') :
      UsageLog tools daily used lost (line :: lines) used' lost'

/-! ## What is counted -/

/-- The totals with the given input and output added to them. On each day no more is cached than is put in. -/
structure Counted (daily : HashMap Text DailyTotals) (modelTotals : HashMap Text Int) (input output : Int)
    (daily' : HashMap Text DailyTotals) (modelTotals' : HashMap Text Int) : Prop where
  daysInput : total daily' (·.input) = total daily (·.input) + input
  daysOutput : total daily' (·.output) = total daily (·.output) + output
  models : total modelTotals' id = total modelTotals id + (input + output)
  cached : ∀ day totals', daily'.lookup day = some totals' →
    ∃ totals, daily.lookup day = some totals ∧ totals'.cached - totals.cached ≤ totals'.input - totals.input

namespace Counted

variable {daily daily' : HashMap Text DailyTotals} {modelTotals modelTotals' : HashMap Text Int} {input output : Int}

theorem refl : Counted daily modelTotals 0 0 daily modelTotals where
  daysInput := by omega
  daysOutput := by omega
  models := by omega
  cached _ totals h := ⟨totals, h, by omega⟩

theorem insert {day : Text} {totals totals' : DailyTotals} {moreInput moreOutput : Int}
    {modelTotals'' : HashMap Text Int} (h : Counted daily modelTotals input output daily' modelTotals')
    (hday : daily'.lookup day = some totals) (hinput : totals'.input = totals.input + moreInput)
    (hout : totals'.output = totals.output + moreOutput)
    (hcached : totals'.cached - totals.cached ≤ totals'.input - totals.input)
    (hmodels : total modelTotals'' id = total modelTotals' id + (moreInput + moreOutput)) :
    Counted daily modelTotals (input + moreInput) (output + moreOutput) (daily'.insert day totals') modelTotals'' where
  daysInput := by
    rw [total_insert_of_lookup _ hday, h.daysInput]
    omega
  daysOutput := by
    rw [total_insert_of_lookup _ hday, h.daysOutput]
    omega
  models := by
    rw [hmodels, h.models]
    omega
  cached key found hfnd := by
    rw [lookup_insert_eq] at hfnd
    split at hfnd
    next heq =>
      obtain rfl := Option.some.inj hfnd
      obtain ⟨first, hfst, hle⟩ := h.cached day totals hday
      exact ⟨first, heq ▸ hfst, by omega⟩
    next => exact h.cached key found hfnd

end Counted

namespace ScanState

variable {tools : UsageTools} {daily : HashMap Text DailyTotals} {modelTotals : HashMap Text Int}
  {s : ScanState} {used lost : UsageTotals}

structure UpTo (daily : HashMap Text DailyTotals) (modelTotals : HashMap Text Int) (used lost : UsageTotals)
    (s : ScanState) : Prop where
  matchKnown : s.matchKnown = true
  matchesWorkspace : s.matchesWorkspace = true
  previous : s.previousTotals.getD {} = used - lost
  counted : Counted daily modelTotals (used.input - lost.input) (used.output - lost.output) s.daily s.modelTotals
  days : ∀ day, (daily.lookup day).isSome → (s.daily.lookup day).isSome

/-! ## Events that report no usage -/

variable (h : s.UpTo daily modelTotals used lost)

include h in
theorem UpTo.changeDay (day : Option Text) {change : DailyTotals → DailyTotals}
    (hchg : ∀ totals, (change totals).input = totals.input ∧ (change totals).cached = totals.cached ∧
      (change totals).output = totals.output) : (s.changeDay day change).UpTo daily modelTotals used lost := by
  unfold ScanState.changeDay
  cases day with
  | none => exact h
  | some key =>
      cases hlk : s.daily.lookup key with
      | none =>
          simp only [hlk]
          exact h
      | some totals =>
          obtain ⟨hinput, hcached, hout⟩ := hchg totals
          have hcounted : Counted daily modelTotals (used.input - lost.input + 0) (used.output - lost.output + 0)
              (s.daily.insert key (change totals)) s.modelTotals :=
            h.counted.insert hlk (by omega) (by omega) (by omega) (by omega)
          simp only [hlk]
          refine ⟨h.matchKnown, h.matchesWorkspace, h.previous, ?_, fun day hday => ?_⟩
          · simpa only [Int.add_zero] using hcounted
          · have hsome := h.days day hday
            simp only [lookup_insert_eq]
            split
            next => rfl
            next => exact hsome

include h in
theorem UpTo.trackActivity (timestampMs : Int) :
    (s.trackActivity tools timestampMs).UpTo daily modelTotals used lost := by
  have hset : ∀ {s : ScanState}, s.UpTo daily modelTotals used lost →
      { s with lastActivityMs := some timestampMs }.UpTo daily modelTotals used lost :=
    fun h => ⟨h.matchKnown, h.matchesWorkspace, h.previous, h.counted, h.days⟩
  refine hset ?_
  split
  · exact h
  · dsimp only
    split
    · exact h.changeDay _ fun _ => ⟨rfl, rfl, rfl⟩
    · exact h

include h in
theorem UpTo.trackTimestamp (timestampMs : Option Int) :
    (s.trackTimestamp tools timestampMs).UpTo daily modelTotals used lost := by
  cases timestampMs with
  | none => exact h
  | some timestampMs => exact h.trackActivity timestampMs

include h in
theorem UpTo.countRun (timestampMs : Option Int) :
    (s.countRun tools timestampMs).UpTo daily modelTotals used lost := by
  cases timestampMs with
  | none => exact h
  | some timestampMs =>
      refine UpTo.trackActivity ?_ timestampMs
      split
      · exact h
      · have hseen : { s with seenRuns := timestampMs :: s.seenRuns }.UpTo daily modelTotals used lost :=
          ⟨h.matchKnown, h.matchesWorkspace, h.previous, h.counted, h.days⟩
        exact hseen.changeDay _ fun _ => ⟨rfl, rfl, rfl⟩

variable {value : Json} {total : UsageTotals}

include h in
theorem scanValue_other (hrep : reportedUsage tools value = none) :
    ∃ s', s.scanValue tools none value = (s', true) ∧ s'.UpTo daily modelTotals used lost := by
  have hnone : s.matchWorkspace tools none value = s := by
    unfold matchWorkspace
    split
    · contradiction
    · rfl
  unfold scanValue
  simp only [hnone, h.matchKnown, h.matchesWorkspace, Bool.not_true, Bool.and_false, Bool.false_eq_true, if_false]
  split
  · split
    · exact ⟨_, rfl, ⟨rfl, rfl, h.previous, h.counted, h.days⟩⟩
    · exact ⟨_, rfl, h⟩
  · split
    next hevent =>
      refine ⟨_, rfl, ?_⟩
      unfold scanEvent
      dsimp only
      split
      · exact h.countRun _
      · split
        · exact h.trackTimestamp _
        · split
          next htype =>
            unfold reportedUsage at hrep
            dsimp only at hrep
            rw [if_pos ⟨hevent, htype⟩] at hrep
            rw [hrep]
            exact h
          next => exact h
    next =>
      split
      · refine ⟨_, rfl, ?_⟩
        unfold scanResponseItem
        dsimp only
        split
        · exact h.countRun _
        · split
          · exact h.trackTimestamp _
          · exact h
      · exact ⟨_, rfl, h⟩

/-! ## Events that report usage -/

include h in
theorem UpTo.scanTokenCount
    (hday : OnKnownDay tools daily value) (htot : (s.usageDelta usage usedTotal).2 = total - lost')
    (hinput : total.input - lost'.input = used.input - lost.input + (s.usageDelta usage usedTotal).1.input)
    (hout : total.output - lost'.output = used.output - lost.output + (s.usageDelta usage usedTotal).1.output) :
    (s.scanTokenCount tools value usage usedTotal).UpTo daily modelTotals total lost' := by
  unfold ScanState.scanTokenCount
  generalize s.usageDelta usage usedTotal = new at *
  obtain ⟨delta, next⟩ := new
  obtain rfl : next = total - lost' := htot
  dsimp only at *
  split
  next hzero =>
    rw [hzero] at hinput hout
    refine ⟨h.matchKnown, h.matchesWorkspace, rfl, ?_, h.days⟩
    rw [hinput, hout, Int.add_zero, Int.add_zero]
    exact h.counted
  next =>
    refine UpTo.trackTimestamp ?_ _
    obtain ⟨day, hkey, hknown⟩ := hday
    obtain ⟨totals, hlk⟩ := Option.isSome_iff_exists.mp (h.days day hknown)
    simp only [ScanState.addUsage, hkey, hlk]
    refine ⟨h.matchKnown, h.matchesWorkspace, rfl, ?_, fun key hsome => ?_⟩
    · rw [hinput, hout]
      refine h.counted.insert hlk rfl rfl ?_ (total_insert_getD ..)
      have hmin := Int.min_le_right delta.cached delta.input
      dsimp only
      omega
    · rw [lookup_insert_eq]
      split
      · rfl
      · exact h.days key hsome

include h in
theorem scanValue_reported (hrep : reportedUsage tools value = some (usage, usedTotal)) :
    s.scanValue tools none value = (s.scanTokenCount tools value usage usedTotal, true) := by
  unfold reportedUsage at hrep
  dsimp only at hrep
  split at hrep
  next hevent =>
    obtain ⟨hent, htype⟩ := hevent
    have hmeta : ¬((value.getStr "type").getD [] = "session_meta".toList ∨
        (value.getStr "type").getD [] = "turn_context".toList) := by
      rcases hent with hent | hent
      · rw [hent]
        decide
      · rw [hent]
        decide
    unfold scanValue scanEvent
    simp only [h.matchKnown, h.matchesWorkspace, if_neg hmeta, if_pos hent, htype, hrep, Bool.not_true,
      Bool.false_eq_true, if_false, if_true]
    rw [if_neg (by decide), if_neg (by decide)]
  next => cases hrep

include h in
theorem UpTo.snapshot (hgr : used.AtMost total)
    (hlost : UsageTotals.AtMost {} lost) (hday : OnKnownDay tools daily value) :
    (s.scanTokenCount tools value total true).UpTo daily modelTotals total {} := by
  have hinput := hgr.input
  have hout := hgr.output
  have hlostInput : 0 ≤ lost.input := hlost.input
  have hlostOutput : 0 ≤ lost.output := hlost.output
  refine h.scanTokenCount hday (eq_of_fields ?_ ?_ ?_) ?_ ?_
  all_goals
    simp only [usageDelta, h.previous, if_true, input_sub, cached_sub, output_sub]
    omega

include h in
theorem UpTo.delta (hday : OnKnownDay tools daily value) :
    (s.scanTokenCount tools value (total - used) false).UpTo daily modelTotals total lost := by
  refine h.scanTokenCount hday (eq_of_fields ?_ ?_ ?_) ?_ ?_
  all_goals
    simp only [usageDelta, h.previous, Bool.false_eq_true, if_false, input_sub, cached_sub,
      output_sub]
    omega

include h in
theorem UpTo.lose :
    s.UpTo daily modelTotals total (lost + (total - used)) := by
  have hsub : total - (lost + (total - used)) = used - lost := by
    apply eq_of_fields
    all_goals
      simp
      omega
  refine ⟨h.matchKnown, h.matchesWorkspace, hsub ▸ h.previous, ?_, h.days⟩
  rw [← input_sub, ← output_sub, hsub]
  exact h.counted

/-! ## The whole log -/

theorem upTo_scanLines {lines : List LogLine} {used' : UsageTotals}
    (hlog : UsageLog tools daily used lost lines used' lost') (hlost : UsageTotals.AtMost {} lost)
    (h : s.UpTo daily modelTotals used lost) : (s.scanLines tools none lines).UpTo daily modelTotals used' lost' := by
  induction hlog generalizing s with
  | nil => exact h
  | other hval hrep _ ih =>
      obtain ⟨s', hscan, hs'⟩ := scanValue_other h hrep
      simp only [scanLines, hval, hscan]
      exact ih hlost hs'
  | snapshot hval hrep hgr hday _ ih =>
      simp only [scanLines, hval, scanValue_reported h hrep]
      exact ih (.refl _) (h.snapshot hgr hlost hday)
  | delta hval hrep _ hday _ ih =>
      simp only [scanLines, hval, scanValue_reported h hrep]
      exact ih hlost (h.delta hday)
  | lost hval hgr _ ih =>
      simp only [scanLines, hval]
      exact ih (hlost.lose hgr) h.lose

end ScanState

theorem usage_counted_once {tools : UsageTools} {daily : HashMap Text DailyTotals} {lines : List LogLine}
    {used lost : UsageTotals} (modelTotals : HashMap Text Int) (hlog : UsageLog tools daily {} {} lines used lost) :
    Counted daily modelTotals (used.input - lost.input) (used.output - lost.output)
      (scanFile tools (some lines) daily modelTotals none).1 (scanFile tools (some lines) daily modelTotals none).2 := by
  refine (ScanState.upTo_scanLines hlog (.refl _) ?_).counted
  exact ⟨rfl, rfl, rfl, .refl, fun _ h => h⟩

/-! ## Two logs with a line that is lost -/

def sampleTools : UsageTools where
  floatAsI64 _ := none
  parseRfc3339 _ := none
  dayKeyForTimestampMs _ := some "2026-01-19".toList
  pathMatchesWorkspace cwd path := cwd == path

def sampleDays : HashMap Text DailyTotals := (∅ : HashMap Text DailyTotals).insert "2026-01-19" {}

def sampleCount (kind : String) (input output : Int) : Json :=
  .obj [("timestamp", .int 1768824000000), ("payload", .obj [("type", .str "token_count"),
    ("info", .obj [(kind, .obj [("input_tokens", .int input), ("output_tokens", .int output)])])])]

theorem total_after_lost_line : Counted sampleDays ∅ 20 10
    (scanFile sampleTools (some [.text 180 (some (sampleCount "last_token_usage" 10 5)), .unreadable,
      .text 180 (some (sampleCount "total_token_usage" 20 10))]) sampleDays ∅ none).1
    (scanFile sampleTools (some [.text 180 (some (sampleCount "last_token_usage" 10 5)), .unreadable,
      .text 180 (some (sampleCount "total_token_usage" 20 10))]) sampleDays ∅ none).2 := by
  have hday : ∀ kind input output, OnKnownDay sampleTools sampleDays (sampleCount kind input output) :=
    fun _ _ _ => ⟨"2026-01-19", rfl, rfl⟩
  have hlog : UsageLog sampleTools sampleDays {} {} [.text 180 (some (sampleCount "last_token_usage" 10 5)), .unreadable,
      .text 180 (some (sampleCount "total_token_usage" 20 10))] ⟨20, 0, 10⟩ {} := by
    refine .delta rfl (by decide +kernel) (show UsageTotals.AtMost {} ⟨10, 0, 5⟩ by decide) (hday ..) ?_
    refine .lost rfl (show UsageTotals.AtMost _ ⟨15, 0, 5⟩ by decide) ?_
    exact .snapshot rfl (by decide +kernel) (by decide) (hday ..) .nil
  exact usage_counted_once ∅ hlog

theorem lost_line_before_delta_uncounted : ∃ value used lost,
    UsageLog sampleTools sampleDays {} {} [.unreadable, .text 180 (some value)] used lost ∧
      (reportedUsage sampleTools value).isSome ∧
      total (scanFile sampleTools (some [.unreadable, .text 180 (some value)]) sampleDays ∅ none).1 (·.input) ≠
        total sampleDays (·.input) + used.input := by
  refine ⟨sampleCount "last_token_usage" 5 5, ⟨15, 0, 10⟩, ⟨10, 0, 5⟩, ?_, by decide +kernel, by decide +kernel⟩
  refine .lost rfl (show UsageTotals.AtMost {} ⟨10, 0, 5⟩ by decide) ?_
  exact .delta rfl (by decide +kernel) (by decide) ⟨"2026-01-19", rfl, rfl⟩ .nil

end CodexStudy.LocalUsage
