import CodexStudy.Lib.Text
import CodexStudy.Lib.Transition
import Mathlib.Data.List.Nodup

/-!
# What a poller of the activity feed gets

The poller passes on the number of the last event of the file, whether it has got that event or not, and the number 0
for an empty file as for a file of one event.
-/

namespace CodexStudy.NewCore

open CodexStudy.Lib List Text Option

/-! ## The activity feed of a task (`activity.rs`) -/

section

inductive TimelineEventKind where
  | workspaceCreated | agentStarted | agentCompleted | agentPlan | agentNote
  | fileRead | fileEditStarted | fileEditCompleted | diffGenerated | diffUpdated
  | commandStarted | commandOutput | commandCompleted | reviewCompleted
  | testStarted | testCompleted | mergeStarted | mergeCompleted | rollbackCompleted
  | error | summaryGenerated
  deriving DecidableEq, Repr

structure TimelineEvent (Payload : Type) where
  id : String
  taskId : String
  seq : Nat
  kind : TimelineEventKind
  createdAt : Nat
  payload : Payload
  deriving DecidableEq, Repr

structure TaskActivityFeed (Payload : Type) where
  taskId : String
  latestSeq : Nat
  events : List (TimelineEvent Payload)

structure Json (Payload : Type) where
  toString : TimelineEvent Payload → Option Text
  fromStr : Text → Option (TimelineEvent Payload)

/-- What is documented of `serde_json`: an event is written on one line, as an object, and read back. -/
structure Json.Lawful {Payload : Type} (json : Json Payload) : Prop where
  fromStr_toString : ∀ e line, json.toString e = some line → json.fromStr line = some e
  oneLine : ∀ e line, json.toString e = some line → '\n' ∉ line ∧ '\r' ∉ line
  object : ∀ e line, json.toString e = some line → line.head? = some '{'

variable {Payload : Type}

variable (json : Json Payload) (taskId : String)

def appendTimelineEvent (uuid taskId : String) (kind : TimelineEventKind) (now : Nat)
    (payload : Payload) (timeline : Option Text) : Option (TimelineEvent Payload × Text) := do
  let seq := (timeline.map fun text => (lines text).length).getD 0
  let event := { id := uuid, taskId, seq, kind, createdAt := now, payload }
  let line ← json.toString event
  return (event, timeline.getD [] ++ (line ++ ['\n']))

def readTimelineEvents (afterSeq : Option Nat) (limit : Nat)
    (timeline : Option Text) : TaskActivityFeed Payload :=
  match timeline with
  | none => { taskId, latestSeq := 0, events := [] }
  | some text =>
      let events := ((lines text).filter fun line => !(trim line).isEmpty).filterMap json.fromStr
      let latestSeq := (events.getLast?.map TimelineEvent.seq).getD 0
      let events := match afterSeq with
        | some afterSeq =>
            let events := events.filter fun event => event.seq > afterSeq
            if limit > 0 ∧ events.length > limit then events.take limit else events
        | none => if limit > 0 ∧ events.length > limit then events.drop (events.length - limit) else events
      { taskId, latestSeq, events }

/-! ## A writer and a poller -/

/-- The file, the appended events, what the poller passes as `after_seq`, how many events there were at its last poll,
how many its first poll cut off, and the events it got. -/
structure Activity (Payload : Type) where
  timeline : Option Text
  appended : List (TimelineEvent Payload)
  cursor : Option Nat
  seen : Nat
  skipped : Nat
  polled : List (TimelineEvent Payload)

inductive ActivityAction (Payload : Type) where
  | append (uuid : String) (kind : TimelineEventKind) (now : Nat) (payload : Payload)
  | poll (limit : Nat)

/-- A task without a timeline, and a poller that has not polled. -/
def Activity.start : Activity Payload := ⟨none, [], none, 0, 0, []⟩

def ActivityAction.perform (s : Activity Payload) :
    ActivityAction Payload → Activity Payload
  | .append uuid kind now payload =>
      match appendTimelineEvent json uuid taskId kind now payload s.timeline with
      | none => s
      | some (event, text) => { s with timeline := some text, appended := s.appended ++ [event] }
  | .poll limit =>
      let feed := readTimelineEvents json taskId s.cursor limit s.timeline
      { s with
        cursor := some feed.latestSeq
        seen := s.appended.length
        skipped := if s.cursor.isNone ∧ limit > 0 then s.appended.length - limit else s.skipped
        polled := s.polled ++ feed.events }

def ActivityStep (s : Activity Payload) (a : ActivityAction Payload)
    (s' : Activity Payload) : Prop :=
  s' = a.perform json taskId s

end

variable {Payload : Type} {json : Json Payload} {taskId : String} {s s' : Activity Payload}

/-- Of the events up to its last poll the poller has got those its first did not skip, in order and once each. -/
structure Complete (s : Activity Payload) : Prop where
  inOrder : s.polled = (s.appended.take s.seen).drop s.skipped
  once : s.polled.Nodup

/-- A later poll has no limit or one that covers the events since the poll before, which found one if any was appended.
-/
def Drained (s : Activity Payload) : ActivityAction Payload → Prop
  | .append _ _ _ _ => True
  | .poll limit => s.cursor = none ∨
      (limit = 0 ∨ s.appended.length - s.seen ≤ limit) ∧ (s.seen = 0 → s.appended = [])

/-! ## The file holds the events -/

/-- The lines of the file are the events, numbered from 0 on, and the cursor is the number of the last one polled. -/
structure Written (json : Json Payload) (s : Activity Payload) : Prop where
  file : ∃ ls, s.appended.map json.toString = ls.map some ∧ s.timeline.getD [] = ofLines ls ∧
    (s.timeline = none → ls = [])
  seqs : s.appended.map TimelineEvent.seq = range s.appended.length
  seen : s.seen ≤ s.appended.length
  cursor : ∀ n, s.cursor = some n → n = s.seen - 1
  skipped : s.skipped ≤ s.seen
  fresh : s.cursor = none → s.seen = 0 ∧ s.skipped = 0 ∧ s.polled = []

theorem written_start : Written json (.start : Activity Payload) where
  file := ⟨[], rfl, rfl, fun _ => rfl⟩
  seqs := rfl
  seen := Nat.le_refl _
  cursor n h := by cases h
  skipped := Nat.le_refl _
  fresh _ := ⟨rfl, rfl, rfl⟩

variable {events : List (TimelineEvent Payload)} {k now : Nat} {uuid : String} {kind : TimelineEventKind}
    {payload : Payload} {a : ActivityAction Payload}

variable (h : Written json s) (hjson : json.Lawful)

include hjson in
theorem events_of_lines {ls : List Text}
    (h : events.map json.toString = ls.map some) : (∀ l ∈ ls, '\n' ∉ l ∧ '\r' ∉ l) ∧
      (ls.filter fun line => !(trim line).isEmpty).filterMap json.fromStr = events := by
  induction events generalizing ls with
  | nil =>
      obtain rfl : ls = [] := by simpa using h.symm
      exact ⟨by simp, rfl⟩
  | cons e events ih =>
      cases ls with
      | nil => cases h
      | cons l ls =>
          rw [map_cons, map_cons, cons.injEq] at h
          obtain ⟨hlns, hevents⟩ := ih h.2
          have hbl : (trim l).isEmpty = false := by
            obtain ⟨rest, rfl⟩ : ∃ rest, l = '{' :: rest := by
              cases l with
              | nil => cases hjson.object e _ h.1
              | cons c rest => exact ⟨rest, by rw [some.inj (hjson.object e _ h.1)]⟩
            simpa using trim_cons_ne_nil rest (by decide)
          refine ⟨fun l' hl' => ?_, ?_⟩
          · rcases mem_cons.mp hl' with rfl | hl'
            · exact hjson.oneLine e l' h.1
            · exact hlns l' hl'
          · rw [filter_cons_of_pos (by simp [hbl]), filterMap_cons, hjson.fromStr_toString e l h.1, hevents]

theorem filter_seq (h : events.map TimelineEvent.seq = range' k events.length) (n : Nat) :
    (events.filter fun e => e.seq > n) = events.drop (n + 1 - k) := by
  induction events generalizing k with
  | nil => simp
  | cons e events ih =>
      rw [map_cons, length_cons, range'_succ, cons.injEq] at h
      rw [filter_cons, ih h.2, h.1]
      by_cases hk : k > n
      · rw [if_pos (by simpa using hk), show n + 1 - k = 0 by omega, show n + 1 - (k + 1) = 0 by omega]
        rfl
      · rw [if_neg (by simpa using hk), show n + 1 - k = (n + 1 - (k + 1)) + 1 by omega, drop_succ_cons]

/-! ## A poll of the feed -/

def firstEvents (limit : Nat) (events : List (TimelineEvent Payload)) : List (TimelineEvent Payload) :=
  if limit > 0 ∧ events.length > limit then events.take limit else events

def lastEvents (limit : Nat) (events : List (TimelineEvent Payload)) : List (TimelineEvent Payload) :=
  if limit > 0 ∧ events.length > limit then events.drop (events.length - limit) else events

include h in
theorem Written.nodup : s.appended.Nodup := by
  refine List.Nodup.of_map TimelineEvent.seq ?_
  rw [h.seqs]
  exact nodup_range

include h hjson in
theorem Written.lines :
    (lines (s.timeline.getD [])).length = s.appended.length ∧
      ((lines (s.timeline.getD [])).filter fun line => !(trim line).isEmpty).filterMap json.fromStr = s.appended := by
  obtain ⟨ls, hls, htext, -⟩ := h.file
  obtain ⟨hlns, hevents⟩ := events_of_lines hjson hls
  have hlen : s.appended.length = ls.length := by simpa using congrArg length hls
  rw [htext, lines_ofLines hlns]
  exact ⟨hlen.symm, hevents⟩

include h in
theorem Written.latestSeq :
    (s.appended.getLast?.map TimelineEvent.seq).getD 0 = s.appended.length - 1 := by
  rw [← getLast?_map, h.seqs, getLast?_range]
  split <;> simp_all

include h hjson in
theorem read_spec (limit : Nat) (afterSeq : Option Nat) :
    readTimelineEvents json taskId afterSeq limit s.timeline =
      ⟨taskId, s.appended.length - 1,
        match afterSeq with
        | some n => firstEvents limit (s.appended.drop (n + 1))
        | none => lastEvents limit s.appended⟩ := by
  rcases htext : s.timeline with _ | text
  · obtain ⟨ls, hls, -, hnil⟩ := h.file
    rw [hnil htext] at hls
    obtain hnone : s.appended = [] := by simpa using hls
    cases afterSeq <;> simp [readTimelineEvents, hnone, firstEvents, lastEvents]
  · obtain ⟨-, hevents⟩ := h.lines hjson
    rw [htext, getD_some] at hevents
    have hfilter : ∀ n, (s.appended.filter fun e => e.seq > n) = s.appended.drop (n + 1) := by
      intro n
      exact filter_seq (k := 0) (by rw [h.seqs, range_eq_range']) n
    cases afterSeq with
    | none => simp only [readTimelineEvents, hevents, h.latestSeq, lastEvents]
    | some n => simp only [readTimelineEvents, hevents, h.latestSeq, hfilter, firstEvents]

/-! ## Steps -/

include h hjson in
theorem Written.append :
    Written json ((ActivityAction.append uuid kind now payload).perform json taskId s) := by
  obtain ⟨ls, hls, htext, -⟩ := h.file
  have hseq : (s.timeline.map fun text => (Text.lines text).length).getD 0 = s.appended.length := by
    rw [← (h.lines hjson).1]
    cases s.timeline <;> rfl
  simp only [ActivityAction.perform, appendTimelineEvent, hseq]
  generalize he : (⟨uuid, taskId, s.appended.length, kind, now, payload⟩ : TimelineEvent Payload) = e
  rcases hline : json.toString e with _ | line
  · exact h
  · have hnum : e.seq = s.appended.length := by rw [← he]
    have hseen := h.seen
    refine ⟨⟨ls ++ [line], ?_, ?_, fun hnone => nomatch hnone⟩, ?_, ?_, h.cursor, h.skipped, h.fresh⟩
    · simp [hls, hline]
    · simp [htext, Text.ofLines]
    · simp [h.seqs, hnum, List.range_succ]
    · exact hseen.trans (by simp)

include h hjson in
theorem Written.poll (limit : Nat) :
    Written json ((ActivityAction.poll limit).perform json taskId s) := by
  simp only [ActivityAction.perform, read_spec h hjson]
  refine ⟨h.file, h.seqs, Nat.le_refl _, fun n hn => (some.inj hn).symm, ?_, fun hn => nomatch hn⟩
  dsimp only
  have := h.seen
  have := h.skipped
  split <;> omega

include h hjson in
theorem Written.step (hstep : ActivityStep json taskId s a s') : Written json s' := by
  subst hstep
  cases a with
  | append uuid kind now payload => exact h.append hjson
  | poll limit => exact h.poll hjson limit

include h in
theorem Written.complete (hinOrder : s.polled = (s.appended.take s.seen).drop s.skipped) :
    Complete s := by
  refine ⟨hinOrder, ?_⟩
  rw [hinOrder]
  exact h.nodup.sublist ((drop_sublist _ _).trans (take_sublist _ _))

theorem drop_append_drop {n : Nat} (events : List (TimelineEvent Payload)) (hk : k ≤ n) (hn : n ≤ events.length) :
    (events.take n).drop k ++ events.drop n = events.drop k := by
  conv_rhs => rw [← take_append_drop n events]
  rw [drop_append_of_le_length]
  rw [length_take]
  omega

theorem Complete.append (h : Complete s) (hw : Written json s) :
    Complete ((ActivityAction.append uuid kind now payload).perform json taskId s) := by
  simp only [ActivityAction.perform]
  split
  · exact h
  · refine ⟨?_, h.once⟩
    rw [take_append_of_le_length hw.seen]
    exact h.inOrder

theorem Complete.poll (h : Complete s) (hw : Written json s) (hjson : json.Lawful) {limit : Nat}
    (hdrained : Drained s (.poll limit)) : Complete ((ActivityAction.poll limit).perform json taskId s) := by
  refine (hw.poll hjson limit).complete ?_
  simp only [ActivityAction.perform, read_spec hw hjson, take_length]
  have hseen := hw.seen
  rcases hc : s.cursor with _ | n
  · obtain ⟨-, hskipped, hpolled⟩ := hw.fresh hc
    rw [hpolled, nil_append, hskipped]
    simp only [lastEvents, isNone_none]
    by_cases hl : limit > 0
    · by_cases hcut : s.appended.length > limit
      · simp [hl, hcut]
      · simp [hl, hcut, Nat.sub_eq_zero_of_le (Nat.le_of_not_lt hcut)]
    · simp [hl]
  · obtain hnone | ⟨hlimit, hemp⟩ := hdrained
    · rw [hc] at hnone; cases hnone
    obtain rfl := hw.cursor n hc
    have hall : firstEvents limit (s.appended.drop (s.seen - 1 + 1)) = s.appended.drop s.seen := by
      by_cases hzero : s.seen = 0
      · simp [hemp hzero, firstEvents]
      · rw [show s.seen - 1 + 1 = s.seen by omega, firstEvents, if_neg]
        rw [length_drop]
        omega
    simp only [isNone_some, Bool.false_eq_true, false_and, if_false]
    rw [hall, h.inOrder, drop_append_drop _ hw.skipped hseen]

theorem Complete.drained (h : Complete s) (hw : Written json s) (hjson : json.Lawful)
    (hs' : Complete (a.perform json taskId s)) : Drained s a := by
  cases a with
  | append uuid kind now payload => trivial
  | poll limit =>
      rcases hc : s.cursor with _ | n
      · exact .inl hc
      have hseen := hw.seen
      have hskipped := hw.skipped
      obtain rfl := hw.cursor n hc
      -- The events of this poll are as many as were appended since the last one.
      have hlen : (firstEvents limit (s.appended.drop (s.seen - 1 + 1))).length = s.appended.length - s.seen := by
        have hpolled := congrArg length hs'.inOrder
        simp only [ActivityAction.perform, read_spec hw hjson, hc, take_length, h.inOrder, length_append,
          length_drop, length_take, isNone_some, Bool.false_eq_true, false_and, if_false] at hpolled
        omega
      rw [firstEvents] at hlen
      split at hlen
      · rename_i hcut
        rw [length_take, length_drop] at hlen
        rw [length_drop] at hcut
        refine .inr ⟨.inr (by omega), fun hzero => ?_⟩
        exact eq_nil_of_length_eq_zero (by omega)
      · rename_i hcut
        rw [length_drop] at hlen hcut
        refine .inr ⟨?_, fun hzero => eq_nil_of_length_eq_zero (by omega)⟩
        by_cases hl : limit = 0
        · exact .inl hl
        · right; omega

/-- Through a run of appends and polls the poller gets every event once and in order, but for those that its first poll
skipped, exactly when every later poll is drained. -/
theorem polls_complete_iff_drained (json : Json Payload) (hjson : json.Lawful) (taskId : String)
    (as : List (ActivityAction Payload)) :
    StatesMeet (ActivityStep json taskId) Complete .start as ↔ StepsMeet (ActivityStep json taskId) Drained .start as := by
  refine statesMeet_iff_stepsMeet (I := fun s => Written json s ∧ Complete s) (J := Written json) as
    ⟨written_start, rfl, nodup_nil⟩ ?_ (fun _ hs => hs.2) written_start (fun _ _ _ hs hstep => hs.step hjson hstep) ?_
  · rintro s a s' ⟨hw, hs⟩ hdrained hstep
    refine ⟨hw.step hjson hstep, ?_⟩
    subst hstep
    cases a with
    | append uuid kind now payload => exact hs.append hw
    | poll limit => exact hs.poll hw hjson hdrained
  · rintro s a s' hw hs rfl hs'
    exact hs.drained hw hjson hs'

/-! ## Two feeds of one event -/

def sampleEvent : TimelineEvent Unit := ⟨"e", "1", 0, .agentNote, 0, ()⟩

def sampleLine : Text :=
  "\x7b\"id\":\"e\",\"taskId\":\"1\",\"seq\":0,\"kind\":\"agentNote\"," ++
    "\"createdAt\":\"1970-01-01T00:00:00Z\",\"payload\":null\x7d"

def sampleJson : Json Unit where
  toString e := if e = sampleEvent then some sampleLine else none
  fromStr line := if line = sampleLine then some sampleEvent else none

theorem sampleJson_lawful : sampleJson.Lawful := by
  have hline : ∀ e line, sampleJson.toString e = some line → e = sampleEvent ∧ line = sampleLine := by
    intro e line h
    simp only [sampleJson, ite_none_right_eq_some, some.injEq] at h
    exact ⟨h.1, h.2.symm⟩
  refine ⟨fun e line h => ?_, fun e line h => ?_, fun e line h => ?_⟩
  · obtain ⟨rfl, rfl⟩ := hline e line h
    simp [sampleJson]
  · rw [(hline e line h).2]
    decide
  · rw [(hline e line h).2]
    decide

/-- A poll after the first event gets it, and a second poll gets no other. -/
theorem polls_of_sample_event :
    StatesMeet (ActivityStep sampleJson "1") Complete .start [.append "e" .agentNote 0 (), .poll 1, .poll 1] := by
  refine (polls_complete_iff_drained sampleJson sampleJson_lawful "1" _).mpr ?_
  refine stepsMeet_cons ?_
  rintro s₁ rfl
  refine ⟨trivial, stepsMeet_cons ?_⟩
  rintro s₂ rfl
  refine ⟨.inl rfl, stepsMeet_cons ?_⟩
  rintro s₃ rfl
  exact ⟨.inr ⟨.inr (by decide), fun h => absurd h (by decide)⟩, stepsMeet_nil⟩

/-- A poll of the empty feed moves the poller past the first event. -/
theorem poll_misses_first_event :
    ¬ StatesMeet (ActivityStep sampleJson "1") Complete .start [.poll 0, .append "e" .agentNote 0 (), .poll 0] := by
  intro h
  have hs := h _ _ prefix_rfl (.cons rfl (.cons rfl (.cons rfl (.nil _))))
  have hpolled := hs.inOrder
  revert hpolled
  decide

end CodexStudy.NewCore
