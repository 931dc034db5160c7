import CodexStudy.Lib.Lists
import CodexStudy.Tui.Streaming

/-!
# Streamed answers reach the scrollback

Every line of the rendered answer is emitted once and in order, if the lines in front of a table do not change any
more.
-/

namespace CodexStudy.Tui

open CodexStudy.Lib List Text StreamCore StreamRun TableHoldbackScanner Nat Option StreamController Renderer

/-! ## Lines with their ends -/

def LinesEnded (s : Text) : Prop := s = [] ∨ s.getLast? = some '\n'

def newlineTerminated (s : Text) : Text := if s = [] ∨ s.getLast? = some '\n' then s else s ++ ['\n']

theorem LinesEnded.append {s t : Text} (hs : LinesEnded s) (ht : LinesEnded t) : LinesEnded (s ++ t) := by
  rcases ht with rfl | ht
  · rw [append_nil]
    exact hs
  · exact .inr (by rw [getLast?_append, ht, some_or])

theorem LinesEnded.exists_ofLines {s : Text} (hs : LinesEnded s) : ∃ ls, s = ofLines ls ∧ ∀ l ∈ ls, '\n' ∉ l := by
  obtain ⟨ls, b, rfl, hls, hb⟩ := Text.exists_ofLines s
  have hnil : b = [] := by
    by_contra hne
    have hlast : b.getLast? = some '\n' := by
      rw [← getLast?_append_of_ne_nil _ hne]
      exact hs.resolve_left (by simp [hne])
    exact hb (mem_of_getLast? hlast)
  exact ⟨ls, by rw [hnil, append_nil], hls⟩

theorem splitInclusive_linesEnded_append {s : Text} (hs : LinesEnded s) (t : Text) :
    splitInclusive (s ++ t) = splitInclusive s ++ splitInclusive t := by
  obtain ⟨ls, rfl, hls⟩ := hs.exists_ofLines
  obtain ⟨ls', b, rfl, hls', hb⟩ := exists_ofLines t
  have hs := splitInclusive_ofLines_append hls (not_mem_nil (a := '\n'))
  rw [append_nil, lastLine, if_pos rfl, append_nil] at hs
  rw [hs, splitInclusive_ofLines_append hls' hb, ← append_assoc, ← append_assoc, ← ofLines_append, ← map_append]
  exact splitInclusive_ofLines_append (forall_mem_append.mpr ⟨hls, hls'⟩) hb

theorem flatten_splitInclusive (s : Text) : (splitInclusive s).flatten = s := by
  obtain ⟨ls, b, rfl, hls, hb⟩ := exists_ofLines s
  rw [splitInclusive_ofLines_append hls hb, flatten_append, lastLine, ofLines, flatMap]
  split
  · rename_i hnil
    rw [hnil]
    rfl
  · rw [flatten_singleton]

/-! ## Where a table starts -/

namespace TableHoldbackScanner

variable {scanner : TableHoldbackScanner} {source : Text}

structure HasRead (scanner : TableHoldbackScanner) (source : Text) : Prop where
  offset : scanner.sourceOffset = byteLen source
  previous : ∀ line ∈ scanner.previousLine, isCharBoundary source line.sourceStart = true
  pending : ∀ start ∈ scanner.pendingHeaderStart, isCharBoundary source start = true
  confirmed : ∀ start ∈ scanner.confirmedTableStart, isCharBoundary source start = true

theorem hasRead_new : HasRead new [] where
  offset := rfl
  previous _ h := (by cases h)
  pending _ h := (by cases h)
  confirmed _ h := (by cases h)

theorem mem_confirmsTable {fenceKind : FenceKind} {isDelimiter : Bool} {start : Nat}
    (h : start ∈ scanner.confirmsTable fenceKind isDelimiter) : ∃ line ∈ scanner.previousLine, line.sourceStart = start := by
  unfold confirmsTable at h
  split at h
  · obtain ⟨line, hline, hst⟩ := bind_eq_some_iff.mp h
    split at hst
    · exact ⟨line, hline, some.inj hst⟩
    · cases hst
  · cases h

theorem mem_pendingHeaderStart_pushLine {line : Text} {start : Nat} (h : start ∈ (scanner.pushLine line).pendingHeaderStart) :
    start = scanner.sourceOffset ∨ start ∈ scanner.pendingHeaderStart := by
  have hcases : ∀ {isLine isHeader confirms : Prop} [Decidable isLine] [Decidable isHeader] [Decidable confirms],
      start ∈ (if isLine then if isHeader then some scanner.sourceOffset else none
        else if confirms then none else scanner.pendingHeaderStart) →
      start = scanner.sourceOffset ∨ start ∈ scanner.pendingHeaderStart := by
    intro isLine isHeader confirms _ _ _ h
    split at h
    · split at h
      · exact .inl (some.inj h).symm
      · cases h
    · split at h
      · cases h
      · exact .inr h
  exact hcases h

theorem HasRead.pushLine (h : HasRead scanner source) (line : Text) : HasRead (scanner.pushLine line) (source ++ line) := by
  have hgrown : ∀ {start}, isCharBoundary source start = true → isCharBoundary (source ++ line) start = true :=
    fun hst => (isCharBoundary_left (le_of_isCharBoundary hst)).mpr hst
  have hhere : isCharBoundary (source ++ line) scanner.sourceOffset = true := by
    rw [h.offset]
    exact hgrown isCharBoundary_byteLen
  constructor
  · rw [byteLen_append, ← h.offset]
    rfl
  · intro previous hprevious
    obtain rfl := some.inj hprevious
    exact hhere
  · intro start hst
    rcases mem_pendingHeaderStart_pushLine hst with rfl | hst
    · exact hhere
    · exact hgrown (h.pending start hst)
  · intro start hst
    rcases or_eq_some_iff.mp hst with hst | ⟨-, hst⟩
    · exact hgrown (h.confirmed start hst)
    · obtain ⟨previous, hprevious, rfl⟩ := mem_confirmsTable hst
      exact hgrown (h.previous previous hprevious)

theorem HasRead.pushSourceChunk (h : HasRead scanner source) (chunk : Text) :
    HasRead (scanner.pushSourceChunk chunk) (source ++ chunk) := by
  have hlns : ∀ (lines : List Text) {scanner : TableHoldbackScanner} {source : Text}, HasRead scanner source →
      HasRead (lines.foldl TableHoldbackScanner.pushLine scanner) (source ++ lines.flatten) := by
    intro lines
    induction lines with
    | nil =>
        intro scanner source h
        rwa [flatten_nil, append_nil]
    | cons line lines ih =>
        intro scanner source h
        rw [foldl_cons, flatten_cons, ← append_assoc]
        exact ih (h.pushLine line)
  have hck := hlns (splitInclusive chunk) h
  rwa [flatten_splitInclusive] at hck

theorem pushSourceChunk_append (hsrc : LinesEnded source) (chunk : Text) :
    scanner.pushSourceChunk (source ++ chunk) = (scanner.pushSourceChunk source).pushSourceChunk chunk := by
  unfold pushSourceChunk
  rw [splitInclusive_linesEnded_append hsrc, foldl_append]

end TableHoldbackScanner

def holdbackStart (source : Text) : Nat :=
  match (new.pushSourceChunk source).state with
  | .confirmed start | .pendingHeader start => start
  | .none => byteLen source

theorem isCharBoundary_holdbackStart (source : Text) : isCharBoundary source (holdbackStart source) = true := by
  have h := hasRead_new.pushSourceChunk source
  rw [nil_append] at h
  unfold holdbackStart state
  cases hconfirmed : (new.pushSourceChunk source).confirmedTableStart with
  | some start => exact h.confirmed start hconfirmed
  | none =>
      cases hpend : (new.pushSourceChunk source).pendingHeaderStart with
      | some start => exact h.pending start hpend
      | none => exact isCharBoundary_byteLen

/-! ## What the collector commits -/

namespace MarkdownStreamCollector

structure Commits (collector : MarkdownStreamCollector) (committed rest : Text) : Prop where
  buffer : collector.buffer = committed ++ rest
  committedLen : collector.committedSourceLen = byteLen committed
  rest_line : '\n' ∉ rest
  ended : LinesEnded committed

variable {collector : MarkdownStreamCollector} {committed rest : Text}

variable (h : Commits collector committed rest)

include h in
theorem Commits.push {delta : Text} (hdel : '\n' ∉ delta) :
    Commits (collector.pushDelta delta) committed (rest ++ delta) where
  buffer := by rw [pushDelta, h.buffer, append_assoc]
  committedLen := h.committedLen
  rest_line := by simp [h.rest_line, hdel]
  ended := h.ended

theorem commitEnd?_of_last {before behind : Text} (h : '\n' ∉ behind) :
    commitEnd? (before ++ ['\n'] ++ behind) = some (byteLen (before ++ ['\n'])) := by
  have hdropped : ∀ c ∈ behind, decide (c ≠ '\n') = true := fun c hc => decide_eq_true fun heq => h (heq ▸ hc)
  rw [commitEnd?, if_pos (by simp), rdropWhile_append_of_forall hdropped, rdropWhile_concat_neg _ _ _ (by simp)]

include h in
theorem Commits.commit {delta : Text} (hdel : '\n' ∈ delta) :
    ∃ out rest' collector', (collector.pushDelta delta).commitCompleteSource = some (some out, collector') ∧
      rest ++ delta = out ++ rest' ∧ out.getLast? = some '\n' ∧ Commits collector' (committed ++ out) rest' := by
  obtain ⟨before, _, behind, hspl, rfl, hbeh⟩ :=
    exists_last (P := (· = '\n')) ⟨'\n', mem_append_right rest hdel, rfl⟩
  have hline : '\n' ∉ behind := fun hmem => hbeh '\n' hmem rfl
  rw [← singleton_append, ← append_assoc] at hspl
  have hbuffer : (collector.pushDelta delta).buffer = committed ++ (before ++ ['\n']) ++ behind := by
    simp only [pushDelta, h.buffer, append_assoc committed]
    rw [hspl]
  have hend : commitEnd? (collector.pushDelta delta).buffer = some (byteLen (committed ++ (before ++ ['\n']))) := by
    rw [hbuffer, ← append_assoc, commitEnd?_of_last hline]
  have hslice : slice (collector.pushDelta delta).buffer (collector.pushDelta delta).committedSourceLen
      (byteLen (committed ++ (before ++ ['\n']))) = some (before ++ ['\n']) :=
    slice_iff.mpr ⟨committed, behind, hbuffer, h.committedLen.symm, byteLen_append.symm⟩
  have hlonger : ¬ byteLen (committed ++ (before ++ ['\n'])) ≤ (collector.pushDelta delta).committedSourceLen := by
    have hpos := byteLen_pos (s := before ++ ['\n']) (by simp)
    rw [pushDelta, h.committedLen, byteLen_append]
    omega
  refine ⟨before ++ ['\n'], behind,
    { collector.pushDelta delta with committedSourceLen := byteLen (committed ++ (before ++ ['\n'])) }, ?_, hspl,
    getLast?_concat, hbuffer, rfl, hline, h.ended.append (.inr getLast?_concat)⟩
  rw [commitCompleteSource, hend]
  simp only [if_neg hlonger, hslice, map_some]

include h in
theorem Commits.finalize :
    collector.finalizeAndDrainSource = some (if rest = [] then [] else rest ++ ['\n'], {}) := by
  rw [finalizeAndDrainSource, h.buffer, h.committedLen, byteLen_append]
  by_cases hrest : rest = []
  · rw [if_pos hrest, hrest, byteLen_nil, add_zero, if_pos (le_refl _)]
  · have hpos := byteLen_pos hrest
    have hslice : slice (committed ++ rest) (byteLen committed) (byteLen committed + byteLen rest) =
        some rest := slice_iff.mpr ⟨committed, [], (append_nil _).symm, rfl, rfl⟩
    have hlast : rest.getLast? ≠ some '\n' := fun hlast => h.rest_line (mem_of_getLast? hlast)
    rw [if_neg (by omega), hslice, map_some, if_neg hlast, if_neg hrest]

end MarkdownStreamCollector

/-! ## Lines that do not change any more -/

section

variable {Line : Type}

/-- The lines in front of a table are those that the source has whatever is behind it. -/
def RendersStably (render : Text → List Line) : Prop :=
  ∀ source : Text, source.getLast? = some '\n' → ∀ front, slice source 0 (holdbackStart source) = some front →
    ∀ more, (render source).take (render front).length <+: render (source ++ more)

def Settled (render : Text → List Line) (source : Text) (n : Nat) : Prop :=
  n ≤ (render source).length ∧ ∀ more, (render source).take n <+: render (source ++ more)

variable {render : Text → List Line} {source : Text} {m n : Nat}

theorem Settled.take_eq (h : Settled render source n) (hle : m ≤ n) (more : Text) :
    (render (source ++ more)).take m = (render source).take m := by
  obtain ⟨rest, hrest⟩ := h.2 more
  have hlen : m ≤ ((render source).take n).length := by
    rw [length_take, min_eq_left h.1]
    exact hle
  rw [← hrest, take_append_of_le_length hlen, take_take, min_eq_left hle]

theorem Settled.append (h : Settled render source n) (more : Text) : Settled render (source ++ more) n := by
  constructor
  · have hlen := (h.2 more).length_le
    rwa [length_take, min_eq_left h.1] at hlen
  · intro rest
    rw [h.take_eq (le_refl n) more, append_assoc]
    exact h.2 (more ++ rest)

theorem Settled.mono (h : Settled render source n) (hle : m ≤ n) : Settled render source m :=
  ⟨hle.trans h.1, fun more => (take_prefix_take_left hle).trans (h.2 more)⟩

theorem settled_zero (render : Text → List Line) (source : Text) : Settled render source 0 :=
  ⟨zero_le _, fun _ => nil_prefix⟩

/-- Lines of plain text never change once they are complete. -/
theorem rawLinesFromSource_settled (renderer : Renderer Line) (hsrc : source.getLast? = some '\n') :
    Settled renderer.rawLinesFromSource source (renderer.rawLinesFromSource source).length := by
  refine ⟨le_refl _, fun more => ?_⟩
  obtain ⟨before, rfl⟩ := getLast?_eq_some_iff.mp hsrc
  have hlns : renderer.rawLinesFromSource (before ++ ['\n']) = (before.splitOn '\n').map renderer.plain := by
    rw [rawLinesFromSource, if_neg (by simp), splitOn_append_cons_self, splitOn_nil]
    dsimp only
    rw [if_pos hsrc, dropLast_concat]
  rw [take_length, hlns, rawLinesFromSource, if_neg (by simp), append_assoc, singleton_append,
    splitOn_append_cons_self]
  dsimp only
  split
  · rw [dropLast_append_of_ne_nil (splitOn_ne_nil _ _), map_append]
    exact prefix_append _ _
  · rw [map_append]
    exact prefix_append _ _

end

/-! ## The core -/

variable {Line : Type} {renderer : Renderer Line}

namespace StreamCore

/-- What holds of the core whatever the renderer does, when the answer has been pushed. -/
structure Sound (renderer : Renderer Line) (core : StreamCore Line) (answer : Text) : Prop where
  commits : ∃ rest, answer = core.rawSource ++ rest ∧ core.collector.Commits core.rawSource rest
  scanner : core.holdbackScanner = TableHoldbackScanner.new.pushSourceChunk core.rawSource
  queue : core.queuedLines.length + core.emittedStableLen ≤ core.enqueuedStableLen
  cache : ∀ cache ∈ core.stablePrefixLenCache, ∃ front back, core.rawSource = front ++ back ∧
    Text.byteLen front = cache.sourceStart ∧ cache.stablePrefixLen = (renderer.markdown cache.width front).length

variable {core : StreamCore Line} {answer : Text}

theorem sound_new (width : Option Nat) (renderMode : HistoryRenderMode) :
    (new width renderMode : StreamCore Line).Sound renderer [] where
  commits := ⟨[], rfl, rfl, rfl, not_mem_nil, .inl rfl⟩
  scanner := rfl
  queue := le_refl _
  cache _ h := (by cases h)

/-! ## How many lines are stable -/

def withCache (core : StreamCore Line) (cache : Option StablePrefixLenCache) : StreamCore Line :=
  { core with stablePrefixLenCache := cache }

variable (h : core.Sound renderer answer)

include h in
theorem stablePrefixLenForSourceStart_spec {front back : Text}
    (hfro : core.rawSource = front ++ back) : ∃ cache, core.stablePrefixLenForSourceStart renderer (byteLen front) =
        some ((renderer.markdown core.width front).length, core.withCache cache) ∧
      (core.withCache cache).Sound renderer answer := by
  unfold stablePrefixLenForSourceStart
  split
  next cache hhit =>
    obtain ⟨hcache, hmt⟩ := filter_eq_some_iff.mp hhit
    obtain ⟨hst, hwidth⟩ := of_decide_eq_true hmt
    obtain ⟨front', back', hfro', hlen, hcnt⟩ := h.cache cache hcache
    obtain ⟨rfl, -⟩ := split_unique (hfro.symm.trans hfro') (hst.symm.trans hlen.symm)
    refine ⟨core.stablePrefixLenCache, ?_, h⟩
    rw [hcnt, hwidth]
    rfl
  next hmiss =>
    have hmin : min (byteLen front) (byteLen core.rawSource) = byteLen front := by
      rw [hfro, byteLen_append]
      omega
    have hslice : slice core.rawSource 0 (byteLen front) = some front :=
      slice_iff.mpr ⟨[], back, hfro, rfl, by rw [byteLen_nil, zero_add]⟩
    rw [hmin, hslice, map_some]
    refine ⟨_, rfl, h.commits, h.scanner, h.queue, ?_⟩
    intro cache hcache
    obtain rfl := some.inj hcache
    exact ⟨front, back, hfro, rfl, rfl⟩

include h in
theorem tailBudgetFromSourceStart_spec {front back : Text}
    (hfro : core.rawSource = front ++ back) : ∃ budget cache, core.tailBudgetFromSourceStart renderer (byteLen front) =
        some (budget, core.withCache cache) ∧ (core.withCache cache).Sound renderer answer ∧
      core.renderedLines.length - budget ≤ (renderer.markdown core.width front).length := by
  unfold tailBudgetFromSourceStart
  split
  · exact ⟨core.renderedLines.length, core.stablePrefixLenCache, rfl, h, by omega⟩
  · have hmin : min (byteLen front) (byteLen core.rawSource) = byteLen front := by
      rw [hfro, byteLen_append]
      omega
    obtain ⟨cache, hlen, hsnd⟩ := stablePrefixLenForSourceStart_spec h hfro
    rw [hmin, hlen, map_some]
    exact ⟨_, cache, rfl, hsnd, by omega⟩

include h in
theorem activeTailBudgetLines_spec :
    ∃ budget cache, core.activeTailBudgetLines renderer = some (budget, core.withCache cache) ∧
      (core.withCache cache).Sound renderer answer ∧
      (core.renderedLines = core.renderSource renderer core.rawSource → core.rawSource.getLast? = some '\n' →
        RendersStably (core.renderSource renderer) →
          Settled (core.renderSource renderer) core.rawSource (core.renderedLines.length - budget)) := by
  obtain ⟨front, back, hfro, hst⟩ := Text.isCharBoundary_iff.mp (isCharBoundary_holdbackStart core.rawSource)
  have hslice : Text.slice core.rawSource 0 (holdbackStart core.rawSource) = some front :=
    Text.slice_iff.mpr ⟨[], back, hfro, rfl, by rw [Text.byteLen_nil, zero_add, hst]⟩
  have hset : ∀ n, n ≤ core.renderedLines.length → n ≤ (core.renderSource renderer front).length →
      core.renderedLines = core.renderSource renderer core.rawSource → core.rawSource.getLast? = some '\n' →
        RendersStably (core.renderSource renderer) → Settled (core.renderSource renderer) core.rawSource n := by
    intro n hn hfew hrendered hend hstable
    refine ⟨hrendered ▸ hn, fun more => ?_⟩
    exact (take_prefix_take_left hfew).trans (hstable core.rawSource hend front hslice more)
  unfold activeTailBudgetLines
  cases hmode : core.renderMode with
  | raw =>
      refine ⟨0, core.stablePrefixLenCache, rfl, h, fun hrendered hend _ => ?_⟩
      have hraw : core.renderSource renderer = renderer.rawLinesFromSource := by
        funext source
        rw [renderSource, hmode, Renderer.renderSource]
      rw [Nat.sub_zero, hrendered, hraw]
      exact rawLinesFromSource_settled renderer hend
  | rich =>
      have hrich : core.renderSource renderer = renderer.markdown core.width := by
        funext source
        rw [renderSource, hmode, Renderer.renderSource]
      have hfnd : ∀ start, holdbackStart core.rawSource = start → ∃ budget cache,
          core.tailBudgetFromSourceStart renderer start = some (budget, core.withCache cache) ∧
          (core.withCache cache).Sound renderer answer ∧
          (core.renderedLines = core.renderSource renderer core.rawSource → core.rawSource.getLast? = some '\n' →
            RendersStably (core.renderSource renderer) →
              Settled (core.renderSource renderer) core.rawSource (core.renderedLines.length - budget)) := by
        rintro start rfl
        obtain ⟨budget, cache, heq, hsnd, hfew⟩ := tailBudgetFromSourceStart_spec h hfro
        rw [hst] at heq
        exact ⟨budget, cache, heq, hsnd, hset _ (by omega) (hrich ▸ hfew)⟩
      have hscanner : core.holdbackScanner.state =
          (TableHoldbackScanner.new.pushSourceChunk core.rawSource).state := by rw [h.scanner]
      cases hstt : core.holdbackScanner.state with
      | confirmed start => exact hfnd start (by rw [holdbackStart, ← hscanner, hstt])
      | pendingHeader start => exact hfnd start (by rw [holdbackStart, ← hscanner, hstt])
      | none =>
          refine ⟨0, core.stablePrefixLenCache, rfl, h, fun hrendered hend hstable => ?_⟩
          have hall : holdbackStart core.rawSource = Text.byteLen core.rawSource := by
            rw [holdbackStart, ← hscanner, hstt]
          have hwhole : front = core.rawSource :=
            (Text.split_unique (hfro.symm.trans (append_nil _).symm) (hst.trans hall)).1
          exact hset _ (Nat.sub_le ..) (by rw [hwhole, ← hrendered, Nat.sub_zero]) hrendered hend hstable

include h in
theorem computeTargetStableLen_spec : ∃ n cache, core.computeTargetStableLen renderer =
        some (max n core.emittedStableLen, core.withCache cache) ∧
      (core.withCache cache).Sound renderer answer ∧ n ≤ core.renderedLines.length ∧
      (core.renderedLines = core.renderSource renderer core.rawSource → core.rawSource.getLast? = some '\n' →
        RendersStably (core.renderSource renderer) → Settled (core.renderSource renderer) core.rawSource n) := by
  obtain ⟨budget, cache, heq, hsnd, hset⟩ := activeTailBudgetLines_spec h
  refine ⟨core.renderedLines.length - budget, cache, ?_, hsnd, sub_le .., hset⟩
  rw [computeTargetStableLen, heq, map_some]

/-! ## The queue -/

theorem sliceLines_eq {lines : List Line} {start stop : Nat} (hle : start ≤ stop) (hstop : stop ≤ lines.length) :
    sliceLines lines start stop = some ((lines.take stop).drop start) := if_pos ⟨hle, hstop⟩

def requeued (core : StreamCore Line) (target : Nat) : StreamCore Line :=
  { core with
    queuedLines := (core.renderedLines.take target).drop core.emittedStableLen
    enqueuedStableLen := target }

theorem enqueueUnemitted_eq {target n : Nat} (hn : n ≤ core.renderedLines.length)
    (htgt : target = max n core.emittedStableLen) : core.enqueueUnemitted target = some (core.requeued target) := by
  unfold enqueueUnemitted
  split
  next hlt =>
    rw [sliceLines_eq hlt.le (by omega), map_some]
    rfl
  next hnot =>
    rw [requeued, drop_eq_nil_of_le (by rw [length_take]; omega)]
    rfl

include h in
theorem Sound.requeued {target : Nat} (htgt : core.emittedStableLen ≤ target) :
    (core.requeued target).Sound renderer answer := by
  refine ⟨h.commits, h.scanner, ?_, h.cache⟩
  change ((core.renderedLines.take target).drop core.emittedStableLen).length + core.emittedStableLen ≤ target
  rw [length_drop, length_take]
  omega

def queuedUpTo (core : StreamCore Line) (target : Nat) : StreamCore Line :=
  if target < core.enqueuedStableLen then core.requeued target
  else { core.enqueue ((core.renderedLines.take target).drop core.enqueuedStableLen) with enqueuedStableLen := target }

include h in
theorem Sound.queuedUpTo {target : Nat} (htgt : core.emittedStableLen ≤ target) :
    (core.queuedUpTo target).Sound renderer answer := by
  unfold StreamCore.queuedUpTo
  split
  · exact h.requeued htgt
  · refine ⟨h.commits, h.scanner, ?_, h.cache⟩
    have hq := h.queue
    change (core.queuedLines ++ (core.renderedLines.take target).drop core.enqueuedStableLen).length +
      core.emittedStableLen ≤ target
    rw [length_append, length_drop, length_take]
    omega

include h in
theorem syncStableQueue_spec : ∃ enqueued n cache, core.syncStableQueue renderer =
        some (enqueued, (core.withCache cache).queuedUpTo (max n core.emittedStableLen)) ∧
      ((core.withCache cache).queuedUpTo (max n core.emittedStableLen)).Sound renderer answer ∧
      n ≤ core.renderedLines.length ∧
      (core.renderedLines = core.renderSource renderer core.rawSource → core.rawSource.getLast? = some '\n' →
        RendersStably (core.renderSource renderer) → Settled (core.renderSource renderer) core.rawSource n) := by
  obtain ⟨n, cache, htgt, hsnd, hn, hset⟩ := computeTargetStableLen_spec h
  have hq : core.queuedLines.length + core.emittedStableLen ≤ (core.withCache cache).enqueuedStableLen := h.queue
  have hqueued : ((core.withCache cache).queuedUpTo (max n core.emittedStableLen)).Sound renderer answer :=
    hsnd.queuedUpTo (le_max_right ..)
  suffices heq : ∃ enqueued, core.syncStableQueue renderer =
      some (enqueued, (core.withCache cache).queuedUpTo (max n core.emittedStableLen)) by
    obtain ⟨enqueued, heq⟩ := heq
    exact ⟨enqueued, n, cache, heq, hqueued, hn, hset⟩
  unfold syncStableQueue queuedUpTo
  rw [htgt, bind_eq_bind, bind_some]
  dsimp only
  split
  next hlt =>
    have hunemitted : (core.withCache cache).enqueueUnemitted (max n core.emittedStableLen) =
        some ((core.withCache cache).requeued (max n core.emittedStableLen)) := enqueueUnemitted_eq (n := n) hn rfl
    rw [hunemitted]
    exact ⟨_, rfl⟩
  next hnot =>
    split
    next heq =>
      rw [heq, drop_eq_nil_of_le (by rw [length_take]; omega)]
      refine ⟨false, ?_⟩
      unfold enqueue
      rw [append_nil]
      rfl
    next hne =>
      have hlate : (core.withCache cache).enqueuedStableLen < max n core.emittedStableLen := by omega
      rw [sliceLines_eq hlate.le (by change _ ≤ core.renderedLines.length; omega)]
      exact ⟨true, rfl⟩

include h in
theorem rebuildStableQueueFromRender_spec :
    ∃ core', core.rebuildStableQueueFromRender renderer = some core' ∧ core'.Sound renderer answer := by
  obtain ⟨n, cache, htgt, hsnd, hn, -⟩ := computeTargetStableLen_spec h
  have hrequeued : ((core.withCache cache).requeued (max n core.emittedStableLen)).Sound renderer answer :=
    hsnd.requeued (le_max_right ..)
  refine ⟨_, ?_, hrequeued⟩
  rw [rebuildStableQueueFromRender, htgt, bind_eq_bind, bind_some]
  exact enqueueUnemitted_eq (n := n) hn rfl

/-! ## The operations -/

/-- The next complete lines of the answer: everything is rendered again, and what does not change any more is queued. -/
inductive Pushes (renderer : Renderer Line) (core : StreamCore Line) : StreamCore Line → Prop where
  | waits (collector : MarkdownStreamCollector) : Pushes renderer core { core with collector }
  | commits (collector : MarkdownStreamCollector) (out : Text) (n : Nat) (cache : Option StablePrefixLenCache)
      (scanner : TableHoldbackScanner) (hended : (core.rawSource ++ out).getLast? = some '\n')
      (hn : n ≤ (core.renderSource renderer (core.rawSource ++ out)).length)
      (hsettled : RendersStably (core.renderSource renderer) →
        Settled (core.renderSource renderer) (core.rawSource ++ out) n) :
      Pushes renderer core
        ({ core with
          collector
          rawSource := core.rawSource ++ out
          renderedLines := core.renderSource renderer (core.rawSource ++ out)
          stablePrefixLenCache := cache
          holdbackScanner := scanner }.queuedUpTo (max n core.emittedStableLen))

include h in
theorem pushDelta_spec (delta : Text) :
    ∃ enqueued core', core.pushDelta renderer delta = some (enqueued, core') ∧ core'.Sound renderer (answer ++ delta) ∧
      Pushes renderer core core' := by
  obtain ⟨rest, hans, hcommits⟩ := h.commits
  unfold pushDelta
  dsimp only
  split
  next hdel =>
    obtain ⟨out, rest', collector, hcommit, hspl, hlast, hcommits'⟩ := hcommits.commit hdel
    rw [hcommit, Option.bind_eq_bind, Option.bind_some]
    dsimp only
    have hgrown : Sound renderer (recomputeStreamingRender renderer
        { core with
          collector
          rawSource := core.rawSource ++ out
          holdbackScanner := core.holdbackScanner.pushSourceChunk out }) (answer ++ delta) := by
      refine ⟨⟨rest', ?_, hcommits'⟩, ?_, h.queue, ?_⟩
      · change answer ++ delta = core.rawSource ++ out ++ rest'
        rw [hans, append_assoc, hspl, append_assoc]
      · change core.holdbackScanner.pushSourceChunk out = TableHoldbackScanner.new.pushSourceChunk (core.rawSource ++ out)
        rw [h.scanner, TableHoldbackScanner.pushSourceChunk_append hcommits.ended]
      · intro cache hcache
        obtain ⟨front, back, hfro, hlen, hcnt⟩ := h.cache cache hcache
        refine ⟨front, back ++ out, ?_, hlen, hcnt⟩
        change core.rawSource ++ out = front ++ (back ++ out)
        rw [hfro, append_assoc]
    obtain ⟨enqueued, n, cache, hsync, hsnd, hn, hset⟩ := syncStableQueue_spec hgrown
    refine ⟨enqueued, _, hsync, hsnd, ?_⟩
    have hend : (core.rawSource ++ out).getLast? = some '\n' := by rw [getLast?_append, hlast, Option.some_or]
    exact .commits collector out n cache _ hend hn (hset rfl hend)
  next hdel =>
    refine ⟨false, _, rfl, ⟨⟨rest ++ delta, ?_, hcommits.push hdel⟩, h.scanner, h.queue, h.cache⟩, .waits _⟩
    rw [hans, append_assoc]

include h in
theorem Sound.tickBatch (maxLines : Nat) :
    (core.tickBatch maxLines).2.Sound renderer answer := by
  refine ⟨h.commits, h.scanner, ?_, h.cache⟩
  have hq := h.queue
  change (core.queuedLines.drop maxLines).length + (core.emittedStableLen + (core.queuedLines.take maxLines).length) ≤
    core.enqueuedStableLen
  rw [length_drop, length_take]
  omega

include h in
theorem layOutAgain_spec (hadPendingQueue hadLiveTail : Bool) :
    ∃ core', core.layOutAgain renderer hadPendingQueue hadLiveTail = some core' ∧ core'.Sound renderer answer := by
  have hord : core.emittedStableLen ≤ core.enqueuedStableLen := (le_add_left ..).trans h.queue
  have hlaidOut : ∀ emitted,
      emitted ≤ min core.emittedStableLen (core.recomputeStreamingRender renderer).renderedLines.length →
      ∃ core', (if 0 < emitted ∧ !hadPendingQueue ∧ !hadLiveTail then
          some { (core.recomputeStreamingRender renderer).clearQueue with
            emittedStableLen := emitted
            enqueuedStableLen := (core.recomputeStreamingRender renderer).renderedLines.length }
        else rebuildStableQueueFromRender renderer
          { (core.recomputeStreamingRender renderer).clearQueue with emittedStableLen := emitted }) = some core' ∧
        core'.Sound renderer answer := by
    intro emitted hfewer
    split
    · refine ⟨_, rfl, h.commits, h.scanner, ?_, h.cache⟩
      exact (zero_add _).trans_le (hfewer.trans (min_le_right ..))
    · refine rebuildStableQueueFromRender_spec ⟨h.commits, h.scanner, ?_, h.cache⟩
      exact (Nat.zero_add _).trans_le (hfewer.trans ((Nat.min_le_left ..).trans hord))
  unfold layOutAgain
  split
  · exact ⟨core, rfl, h⟩
  · refine hlaidOut _ ?_
    split
    · exact sub_le ..
    · exact le_refl _

include h in
theorem setWidth_spec (width : Option Nat) :
    ∃ core', core.setWidth renderer width = some core' ∧ core'.Sound renderer answer := by
  unfold setWidth
  split
  · exact ⟨core, rfl, h⟩
  · have hchd : ({ core with width } : StreamCore Line).Sound renderer answer :=
      ⟨h.commits, h.scanner, h.queue, h.cache⟩
    exact layOutAgain_spec hchd _ _

include h in
theorem setRenderMode_spec (renderMode : HistoryRenderMode) :
    ∃ core', core.setRenderMode renderer renderMode = some core' ∧ core'.Sound renderer answer := by
  unfold setRenderMode
  split
  · exact ⟨core, rfl, h⟩
  · have hchd : ({ core with renderMode } : StreamCore Line).Sound renderer answer :=
      ⟨h.commits, h.scanner, h.queue, h.cache⟩
    exact layOutAgain_spec hchd _ _

include h in
theorem finalizeRemaining_spec : ∃ core', core.finalizeRemaining renderer =
        some ((core.renderSource renderer (newlineTerminated answer)).drop core.emittedStableLen, core') ∧
      core'.rawSource = newlineTerminated answer ∧ core.rawSource <+: newlineTerminated answer := by
  obtain ⟨rest, rfl, hcommits⟩ := h.commits
  have hsrc : core.rawSource ++ (if rest = [] then [] else rest ++ ['\n']) =
      newlineTerminated (core.rawSource ++ rest) := by
    unfold newlineTerminated
    split
    next hrest =>
      have hend : core.rawSource = [] ∨ core.rawSource.getLast? = some '\n' := hcommits.ended
      rw [hrest, append_nil, if_pos hend]
    next hrest =>
      have hlast : ¬(core.rawSource ++ rest = [] ∨ (core.rawSource ++ rest).getLast? = some '\n') := by
        rintro (hnil | hlast)
        · exact hrest (append_eq_nil_iff.mp hnil).2
        · rw [getLast?_append_of_ne_nil _ hrest] at hlast
          exact hcommits.rest_line (mem_of_getLast? hlast)
      rw [if_neg hlast, append_assoc]
  unfold finalizeRemaining
  rw [hcommits.finalize, bind_eq_bind, bind_some]
  generalize (if rest = [] then ([] : Text) else rest ++ ['\n']) = remainder at hsrc
  dsimp only
  rw [hsrc]
  have hsts : core.rawSource <+: newlineTerminated (core.rawSource ++ rest) := hsrc ▸ prefix_append ..
  split
  next hfew =>
    have hnone : (core.renderSource renderer (newlineTerminated (core.rawSource ++ rest))).drop core.emittedStableLen = [] :=
      drop_eq_nil_of_le hfew
    rw [hnone]
    exact ⟨_, rfl, rfl, hsts⟩
  next hmany =>
    rw [sliceLines_eq (by omega) (le_refl _), take_length]
    exact ⟨_, rfl, rfl, hsts⟩

end StreamCore

/-! ## Runs -/

namespace StreamRun

variable {run : StreamRun Line} {answer : Text} {steps : List StreamStep}

theorem emit_core (controller : StreamController Line) (lines : List Line) :
    (controller.emit lines).2.core = controller.core := by
  unfold emit
  split <;> rfl

theorem cellLines_emit (controller : StreamController Line) (lines : List Line) :
    cellLines (controller.emit lines).1 = lines := by
  unfold emit
  split
  next hnil => exact hnil.symm
  next => rfl

theorem pushedText_cons (step : StreamStep) (steps : List StreamStep) :
    pushedText (step :: steps) = pushedText [step] ++ pushedText steps := by
  unfold pushedText
  rw [flatMap_cons, flatMap_singleton]

theorem step_spec (h : run.controller.core.Sound renderer answer) (step : StreamStep) :
    ∃ run', run.step renderer step = some run' ∧ run'.controller.core.Sound renderer (answer ++ pushedText [step]) := by
  have hbatch : ∀ maxLines, ∃ run', run.step renderer (.onCommitTickBatch maxLines) = some run' ∧
      run'.controller.core.Sound renderer (answer ++ []) := by
    intro maxLines
    rw [append_nil]
    refine ⟨_, rfl, ?_⟩
    unfold emits onCommitTickBatch
    dsimp only
    rw [emit_core]
    exact h.tickBatch maxLines
  cases step with
  | push delta =>
      obtain ⟨enqueued, core, hpush, hsnd, -⟩ := pushDelta_spec h delta
      rw [step, push, hpush]
      refine ⟨_, rfl, ?_⟩
      rwa [pushedText, flatMap_singleton]
  | onCommitTick => exact hbatch 1
  | onCommitTickBatch maxLines => exact hbatch maxLines
  | clearQueue =>
      refine ⟨_, rfl, ?_⟩
      rw [show pushedText [.clearQueue] = [] from rfl, append_nil]
      exact ⟨h.commits, h.scanner, (zero_add _).le, h.cache⟩
  | setWidth width =>
      obtain ⟨core, hset, hsnd⟩ := setWidth_spec h width
      rw [step, StreamController.setWidth, hset]
      refine ⟨_, rfl, ?_⟩
      rwa [show pushedText [.setWidth width] = [] from rfl, append_nil]
  | setRenderMode renderMode =>
      obtain ⟨core, hset, hsnd⟩ := setRenderMode_spec h renderMode
      rw [step, StreamController.setRenderMode, hset]
      refine ⟨_, rfl, ?_⟩
      rwa [show pushedText [.setRenderMode renderMode] = [] from rfl, append_nil]

theorem runFrom_cons (step : StreamStep) (steps : List StreamStep) :
    run.runFrom renderer (step :: steps) = (run.step renderer step).bind fun run => run.runFrom renderer steps := rfl

theorem runFrom_spec (h : run.controller.core.Sound renderer answer) (steps : List StreamStep) :
    ∃ run', run.runFrom renderer steps = some run' ∧ run'.controller.core.Sound renderer (answer ++ pushedText steps) := by
  induction steps generalizing run answer with
  | nil => exact ⟨run, rfl, by rwa [show pushedText [] = [] from rfl, append_nil]⟩
  | cons step steps ih =>
      obtain ⟨run', hstep, hsnd⟩ := step_spec h step
      obtain ⟨run'', hsts, hsnd'⟩ := ih hsnd
      refine ⟨run'', by rw [runFrom_cons, hstep, bind_some, hsts], ?_⟩
      rwa [pushedText_cons, ← append_assoc]

/-! ## What the scrollback has -/

/-- The queue and what has been emitted are a cut of the first lines, which do not change any more. -/
structure Flows (render : Text → List Line) (run : StreamRun Line) : Prop where
  settled : Settled render run.controller.core.rawSource run.controller.core.enqueuedStableLen
  bound : run.controller.core.enqueuedStableLen ≤ run.controller.core.renderedLines.length
  unrendered : run.controller.core.rawSource = [] → run.controller.core.renderedLines = []
  queue : run.controller.core.queuedLines =
    ((render run.controller.core.rawSource).take run.controller.core.enqueuedStableLen).drop
      run.controller.core.emittedStableLen
  emitted : run.emitted = (render run.controller.core.rawSource).take run.controller.core.emittedStableLen

variable {render : Text → List Line}

theorem take_drop_append {lines : List Line} {i j k : Nat} (hij : i ≤ j) (hjk : j ≤ k) :
    (lines.take j).drop i ++ (lines.take k).drop j = (lines.take k).drop i := by
  have hdrop : lines.drop j = (lines.drop i).drop (j - i) := by
    rw [drop_drop, Nat.add_sub_cancel' hij]
  rw [drop_take, drop_take, drop_take, hdrop, ← take_add]
  congr 1
  omega

theorem Flows.pushed {core core' : StreamCore Line} {emitted : List Line} {headerEmitted : Bool}
    (h : Flows (core.renderSource renderer) ⟨⟨core, headerEmitted⟩, emitted⟩)
    (hord : core.emittedStableLen ≤ core.enqueuedStableLen) (hstable : RendersStably (core.renderSource renderer))
    (hpush : StreamCore.Pushes renderer core core') :
    Flows (core.renderSource renderer) ⟨⟨core', headerEmitted⟩, emitted⟩ := by
  cases hpush with
  | waits collector => exact ⟨h.settled, h.bound, h.unrendered, h.queue, h.emitted⟩
  | commits collector out n cache scanner hend hn hset =>
      have hold : ∀ {m}, m ≤ core.enqueuedStableLen → (core.renderSource renderer (core.rawSource ++ out)).take m =
          (core.renderSource renderer core.rawSource).take m := fun hle => h.settled.take_eq hle out
      have htgt : Settled (core.renderSource renderer) (core.rawSource ++ out) (max n core.emittedStableLen) := by
        rcases le_total core.emittedStableLen n with hle | hle
        · rw [max_eq_left hle]
          exact hset hstable
        · rw [max_eq_right hle]
          exact (h.settled.append out).mono hord
      have hq := h.queue
      have hemitted := h.emitted
      have hrendered : core.rawSource ++ out = [] → core.renderSource renderer (core.rawSource ++ out) = [] := by
        intro hnil
        rw [hnil] at hend
        cases hend
      unfold queuedUpTo
      split
      next hback => exact ⟨htgt, htgt.1, hrendered, rfl, hemitted.trans (hold hord).symm⟩
      next hfro =>
        have htaken : core.enqueuedStableLen ≤ max n core.emittedStableLen := Nat.le_of_not_lt hfro
        have hjoin : core.queuedLines ++ ((core.renderSource renderer (core.rawSource ++ out)).take
            (max n core.emittedStableLen)).drop core.enqueuedStableLen =
            ((core.renderSource renderer (core.rawSource ++ out)).take (max n core.emittedStableLen)).drop
              core.emittedStableLen := by
          rw [← take_drop_append hord htaken, hold (le_refl _)]
          exact congrArg (· ++ _) hq
        exact ⟨htgt, htgt.1, hrendered, hjoin, hemitted.trans (hold hord).symm⟩

theorem Flows.ticked (h : Flows render run)
    (hord : run.controller.core.emittedStableLen ≤ run.controller.core.enqueuedStableLen) (maxLines : Nat) :
    Flows render (run.emits (run.controller.onCommitTickBatch maxLines)) := by
  obtain ⟨⟨core, headerEmitted⟩, emitted⟩ := run
  dsimp only at hord
  have hbound : core.enqueuedStableLen ≤ (render core.rawSource).length := h.settled.1
  have hq : core.queuedLines = ((render core.rawSource).take core.enqueuedStableLen).drop core.emittedStableLen :=
    h.queue
  have hemitted : emitted = (render core.rawSource).take core.emittedStableLen := h.emitted
  have hlen : (core.queuedLines.take maxLines).length = min maxLines core.queuedLines.length := length_take
  have hfits : core.emittedStableLen + (core.queuedLines.take maxLines).length ≤ core.enqueuedStableLen := by
    rw [hlen, hq, length_drop, length_take]
    omega
  have hqueued : core.queuedLines.drop maxLines = ((render core.rawSource).take core.enqueuedStableLen).drop
      (core.emittedStableLen + (core.queuedLines.take maxLines).length) := by
    rw [hlen, drop_eq_drop_min, ← drop_drop, ← hq]
  have hticked : emitted ++ core.queuedLines.take maxLines = (render core.rawSource).take
      (core.emittedStableLen + (core.queuedLines.take maxLines).length) := by
    have hcut : ((render core.rawSource).take core.enqueuedStableLen).take
        (core.emittedStableLen + (core.queuedLines.take maxLines).length) = (render core.rawSource).take
          (core.emittedStableLen + (core.queuedLines.take maxLines).length) := by
      rw [take_take, min_eq_left hfits]
    rw [← hcut, take_add, ← hq, take_take, min_eq_left hord, ← hemitted, hlen,
      ← take_eq_take_min]
  unfold emits onCommitTickBatch
  dsimp only
  rw [cellLines_emit]
  refine ⟨?_, ?_, ?_, ?_, ?_⟩ <;> rw [emit_core]
  · exact h.settled
  · exact h.bound
  · exact h.unrendered
  · exact hqueued
  · exact hticked

theorem Flows.cleared (h : Flows render run)
    (hord : run.controller.core.emittedStableLen ≤ run.controller.core.enqueuedStableLen) :
    Flows render { run with controller := run.controller.clearQueue } where
  settled := h.settled.mono hord
  bound := hord.trans h.bound
  unrendered := h.unrendered
  queue := (drop_eq_nil_of_le (length_take_le ..)).symm
  emitted := h.emitted

end StreamRun

theorem StreamCore.Pushes.renderSource_eq {core core' : StreamCore Line} (h : StreamCore.Pushes renderer core core') :
    core'.renderSource renderer = core.renderSource renderer := by
  cases h with
  | waits collector => rfl
  | commits collector out n cache scanner hend hn hset =>
      unfold queuedUpTo
      split <;> rfl

/-- The step leaves the width and the mode as they are. -/
def StreamStep.KeepsLayout : StreamStep → Prop
  | .setWidth _ | .setRenderMode _ => False
  | _ => True

namespace StreamRun

variable {run : StreamRun Line} {answer : Text} {render : Text → List Line}

theorem Flows.step (h : Flows render run) (hrender : run.controller.core.renderSource renderer = render)
    (hsnd : run.controller.core.Sound renderer answer) (hstable : RendersStably render) {step : StreamStep}
    (hkps : step.KeepsLayout) :
    ∃ run', run.step renderer step = some run' ∧ run'.controller.core.Sound renderer (answer ++ pushedText [step]) ∧
      Flows render run' ∧ run'.controller.core.renderSource renderer = render := by
  have hord : run.controller.core.emittedStableLen ≤ run.controller.core.enqueuedStableLen :=
    (le_add_left ..).trans hsnd.queue
  obtain ⟨run', hstep, hsnd'⟩ := step_spec hsnd step
  refine ⟨run', hstep, hsnd', ?_⟩
  have hticked : ∀ maxLines, Flows render (run.emits (run.controller.onCommitTickBatch maxLines)) ∧
      (run.emits (run.controller.onCommitTickBatch maxLines)).controller.core.renderSource renderer = render := by
    intro maxLines
    refine ⟨h.ticked hord maxLines, ?_⟩
    unfold emits onCommitTickBatch
    dsimp only
    rw [emit_core]
    exact hrender
  cases step with
  | push delta =>
      obtain ⟨enqueued, core, hpush, -, hpushes⟩ := StreamCore.pushDelta_spec hsnd delta
      rw [StreamRun.step, push, hpush] at hstep
      obtain rfl := some.inj hstep
      subst hrender
      exact ⟨h.pushed hord hstable hpushes, hpushes.renderSource_eq⟩
  | onCommitTick =>
      obtain rfl := some.inj hstep
      exact hticked 1
  | onCommitTickBatch maxLines =>
      obtain rfl := some.inj hstep
      exact hticked maxLines
  | clearQueue =>
      obtain rfl := some.inj hstep
      exact ⟨h.cleared hord, hrender⟩
  | setWidth width => exact hkps.elim
  | setRenderMode renderMode => exact hkps.elim

theorem Flows.runFrom (h : Flows render run) (hrender : run.controller.core.renderSource renderer = render)
    (hsnd : run.controller.core.Sound renderer answer) (hstable : RendersStably render) {steps : List StreamStep}
    (hkps : ∀ step ∈ steps, step.KeepsLayout) :
    ∃ run', run.runFrom renderer steps = some run' ∧ run'.controller.core.Sound renderer (answer ++ pushedText steps) ∧
      Flows render run' ∧ run'.controller.core.renderSource renderer = render := by
  induction steps generalizing run answer with
  | nil =>
      refine ⟨run, rfl, ?_, h, hrender⟩
      rwa [show pushedText [] = [] from rfl, append_nil]
  | cons step steps ih =>
      obtain ⟨run', hstep, hsnd', h', hrender'⟩ := h.step hrender hsnd hstable (hkps step mem_cons_self)
      obtain ⟨run'', hsts, hsnd'', h'', hrender''⟩ :=
        ih h' hrender' hsnd' fun step hmem => hkps step (mem_cons_of_mem _ hmem)
      refine ⟨run'', by rw [runFrom_cons, hstep, bind_some, hsts], ?_, h'', hrender''⟩
      rwa [pushedText_cons, ← append_assoc]

theorem flows_start (render : Text → List Line) (width : Option Nat) (renderMode : HistoryRenderMode) :
    Flows render (start width renderMode) where
  settled := settled_zero render []
  bound := le_refl _
  unrendered _ := rfl
  queue := (drop_eq_nil_of_le (length_take_le ..)).symm
  emitted := rfl

theorem finalize_spec (hsnd : run.controller.core.Sound renderer answer) :
    ∃ finalized, run.controller.finalize renderer = some finalized ∧ cellLines finalized.1.1 =
      if answer = [] then []
      else (run.controller.core.renderSource renderer (newlineTerminated answer)).drop
        run.controller.core.emittedStableLen := by
  obtain ⟨core, hremaining, hsrc, -⟩ := finalizeRemaining_spec hsnd
  have hnil : core.rawSource = [] ↔ answer = [] := by
    rw [hsrc, newlineTerminated]
    split
    · rfl
    next hnot => exact iff_of_false (by simp) fun heq => hnot (.inl heq)
  unfold finalize
  rw [hremaining, map_some]
  refine ⟨_, rfl, ?_⟩
  dsimp only
  by_cases hans : answer = []
  · rw [if_pos (hnil.mpr hans), if_pos hans]
    rfl
  · rw [if_neg (mt hnil.mp hans), if_neg hans]
    exact cellLines_emit _ _

end StreamRun

/-! ## The theorem -/

section

variable (renderer : Renderer Line) (width : Option Nat) (renderMode : HistoryRenderMode) (steps : List StreamStep)

/-- The steps can be taken and the stream finalized; the ticks and the end emit these lines. -/
def Emits (lines : List Line) : Prop :=
  ∃ run finalized, (start width renderMode).runFrom renderer steps = some run ∧
    run.controller.finalize renderer = some finalized ∧ run.emitted ++ cellLines finalized.1.1 = lines

/-- The counters are in order in every state. -/
def KeepsOrder : Prop :=
  ∀ before, before <+: steps → ∃ run, (start width renderMode).runFrom renderer before = some run ∧
    run.controller.core.emittedStableLen ≤ run.controller.core.enqueuedStableLen ∧
    run.controller.core.enqueuedStableLen ≤ run.controller.core.renderedLines.length

/-- Streamed answers reach the scrollback line by line, once each, where the layout is kept and the lines in front of a
table do not change. In any case no slice is out of range. -/
theorem streamed_answer_reaches_scrollback :
    ((∀ step ∈ steps, step.KeepsLayout) → RendersStably (renderer.renderSource renderMode width) →
      KeepsOrder renderer width renderMode steps ∧
        Emits renderer width renderMode steps
          (if pushedText steps = [] then []
          else renderer.renderSource renderMode width (newlineTerminated (pushedText steps)))) ∧
      ∃ lines, Emits renderer width renderMode steps lines := by
  have hst : (start width renderMode : StreamRun Line).controller.core.Sound renderer [] :=
    sound_new width renderMode
  constructor
  · intro hkps hstable
    have hruns : ∀ before, before <+: steps → ∃ run, (start width renderMode).runFrom renderer before = some run ∧
        run.controller.core.Sound renderer (pushedText before) ∧
        StreamRun.Flows (renderer.renderSource renderMode width) run ∧
        run.controller.core.renderSource renderer = renderer.renderSource renderMode width := fun before hbef =>
      (flows_start _ width renderMode).runFrom rfl hst hstable fun step hmem =>
        hkps step (hbef.subset hmem)
    constructor
    · intro before hbef
      obtain ⟨run, hrun, hsnd, hflows, -⟩ := hruns before hbef
      exact ⟨run, hrun, (le_add_left ..).trans hsnd.queue, hflows.bound⟩
    · obtain ⟨run, hrun, hsnd, hflows, hrender⟩ := hruns steps prefix_rfl
      obtain ⟨finalized, hfinalized, hlns⟩ := finalize_spec hsnd
      refine ⟨run, finalized, hrun, hfinalized, ?_⟩
      obtain ⟨-, -, -, more, hmore⟩ := finalizeRemaining_spec hsnd
      have hemitted : run.emitted = (renderer.renderSource renderMode width (newlineTerminated (pushedText steps))).take
          run.controller.core.emittedStableLen := by
        rw [hflows.emitted, ← hmore, hflows.settled.take_eq ((le_add_left ..).trans hsnd.queue)]
      rw [hlns, hrender]
      split
      next hnil =>
        -- nothing has been rendered, so nothing has been emitted
        rw [hnil] at hmore
        have hnone := hflows.unrendered (append_eq_nil_iff.mp hmore).1
        have hfew := (le_add_left ..).trans (hsnd.queue.trans hflows.bound)
        rw [hnone] at hfew
        rw [hflows.emitted, le_zero.mp hfew, take_zero, append_nil]
      next => rw [hemitted, take_append_drop]
  · obtain ⟨run, hrun, hsnd⟩ := runFrom_spec hst steps
    obtain ⟨finalized, hfinalized, -⟩ := finalize_spec hsnd
    exact ⟨_, run, finalized, hrun, hfinalized, rfl⟩

end

/-! ## A renderer of lines -/

def lineRenderer : Renderer Text where
  markdown _ source := (source.splitOn '\n').dropLast
  plain line := line

theorem lineRenderer_stable (width : Option Nat) : RendersStably (lineRenderer.renderSource .rich width) := by
  intro source hsrc front _ more
  obtain ⟨before, rfl⟩ := getLast?_eq_some_iff.mp hsrc
  refine ( take_prefix ..).trans ?_
  change ((before ++ ['\n']).splitOn '\n').dropLast <+: ((before ++ ['\n'] ++ more).splitOn '\n').dropLast
  rw [append_assoc, singleton_append, splitOn_append_cons_self, splitOn_append_cons_self,
    splitOn_nil, dropLast_concat, dropLast_append_of_ne_nil (splitOn_ne_nil _ _)]
  exact prefix_append ..

/-- A line and a table in two deltas, with a tick between them. -/
def sampleSteps : List StreamStep := [.push "a\n| x | y |\n| - | - |\n| 1 ", .onCommitTick, .push "| 2 |\nb"]

theorem sample_answer_reaches_scrollback :
    Emits lineRenderer none .rich sampleSteps ["a", "| x | y |", "| - | - |", "| 1 | 2 |", "b"] := by
  have hkps : ∀ step ∈ sampleSteps, step.KeepsLayout := by simp [sampleSteps, StreamStep.KeepsLayout]
  obtain ⟨-, hemits⟩ :=
    (streamed_answer_reaches_scrollback lineRenderer none .rich sampleSteps).1 hkps (lineRenderer_stable none)
  rw [if_neg (by decide)] at hemits
  exact hemits

def frameRenderer : Renderer Text where
  markdown _ _ := ["frame"]
  plain line := line

/-- Of an empty answer nothing is shown, whatever the renderer makes of it. -/
theorem empty_answer_is_not_shown : ¬ ∀ (renderer : Renderer Text) (width : Option Nat) (renderMode : HistoryRenderMode)
    (steps : List StreamStep), (∀ step ∈ steps, step.KeepsLayout) →
      RendersStably (renderer.renderSource renderMode width) →
        Emits renderer width renderMode steps
            (renderer.renderSource renderMode width (newlineTerminated (pushedText steps))) := by
  intro h
  have hstable : RendersStably (frameRenderer.renderSource .rich none) := fun _ _ _ _ _ => take_prefix ..
  obtain ⟨run, finalized, hrun, hfinalized, hlns⟩ := h frameRenderer none .rich [] (fun _ hmem => (by cases hmem)) hstable
  cases hrun
  cases hfinalized
  exact absurd hlns (by decide)

end CodexStudy.Tui
