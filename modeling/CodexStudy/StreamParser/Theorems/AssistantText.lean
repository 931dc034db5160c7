import CodexStudy.StreamParser.Theorems.HiddenTags

/-!
# Assistant text in chunks

What a chunk of assistant text says is heard character by character, and hearing two chunks is hearing the text they
make.
-/

namespace CodexStudy.StreamParser

open CodexStudy.Lib List TaggedLineSegment ProposedPlanParser InlineHiddenTagParser AssistantTextChunk
  AssistantTextStreamParser

/-! ## Citations in chunks -/

namespace CitationStreamParser

/-- A parser between two chunks: scanning what it keeps emits nothing. -/
structure Settled (parser : CitationStreamParser) : Prop where
  specs : parser.inner.specs = [citationSpec]
  silent : scan [citationSpec] parser.inner.pending parser.inner.active =
    ⟨.default, parser.inner.pending, parser.inner.active⟩

theorem settled_new : Settled .new where
  specs := rfl
  silent := by
    change scan [citationSpec] [] none = ⟨.default, [], none⟩
    exact scan_nil _

variable {parser : CitationStreamParser}

theorem pushStr_eq (h : parser.inner.specs = [citationSpec]) (chunk : Text) : parser.pushStr chunk =
      (contents (InlineHiddenTagParser.scan [citationSpec] (parser.inner.pending ++ chunk) parser.inner.active).out,
        ⟨⟨[citationSpec],
          (InlineHiddenTagParser.scan [citationSpec] (parser.inner.pending ++ chunk) parser.inner.active).pending,
          (InlineHiddenTagParser.scan [citationSpec] (parser.inner.pending ++ chunk) parser.inner.active).active⟩⟩) := by
  simp only [pushStr, InlineHiddenTagParser.pushStr, h]

theorem settled_pushStr (h : Settled parser) (chunk : Text) : Settled (parser.pushStr chunk).2 := by
  rw [pushStr_eq h.specs]
  exact ⟨rfl, scan_scanned (decisive_single _) _ _⟩

theorem pushStr_nil (h : Settled parser) : parser.pushStr [] = (.default, parser) := by
  obtain ⟨⟨specs, pending, active⟩⟩ := parser
  obtain ⟨rfl, hsil⟩ := h
  rw [pushStr_eq rfl, append_nil, hsil]
  rfl

theorem pushStr_append (h : Settled parser) (chunk more : Text) : parser.pushStr (chunk ++ more) =
      ((parser.pushStr chunk).1.append ((parser.pushStr chunk).2.pushStr more).1,
        ((parser.pushStr chunk).2.pushStr more).2) := by
  rw [pushStr_eq h.specs chunk, pushStr_eq h.specs (chunk ++ more), pushStr_eq rfl more, ← append_assoc,
    scan_append (decisive_single _)]
  simp [contents, StreamTextChunk.append, InlineHiddenTagParser.Scan.after]

end CitationStreamParser

/-! ## Lines in chunks -/

inductive Token (τ : Type) where
  | normal (c : Char)
  | tagStart (tag : τ)
  | tagDelta (tag : τ) (c : Char)
  | tagEnd (tag : τ)

def TaggedLineSegment.tokens {τ : Type} : TaggedLineSegment τ → List (Token τ)
  | .normal text => text.map .normal
  | .tagStart tag => [.tagStart tag]
  | .tagDelta tag text => text.map (.tagDelta tag)
  | .tagEnd tag => [.tagEnd tag]

def TaggedLineSegment.HasText {τ : Type} : TaggedLineSegment τ → Prop
  | .normal text => text ≠ []
  | .tagDelta _ text => text ≠ []
  | _ => True

namespace TaggedLineParser

section

variable {τ : Type} [DecidableEq τ]

theorem tokens_pushSegment (segments : List (TaggedLineSegment τ)) (segment : TaggedLineSegment τ) :
    (pushSegment segments segment).flatMap tokens = segments.flatMap tokens ++ segment.tokens := by
  have hlast : ∀ last, segments.getLast? = some last → segments = segments.dropLast ++ [last] := by
    intro last h
    rw [dropLast_append_getLast? last h]
  cases segment with
  | normal delta =>
      rw [pushSegment]
      split
      · rename_i hdel
        simp [hdel, tokens]
      · split
        · rename_i existing hexisting
          conv_rhs => rw [hlast _ hexisting]
          simp [tokens]
        · simp [tokens]
  | tagDelta tag delta =>
      rw [pushSegment]
      split
      · rename_i hdel
        simp [hdel, tokens]
      · split
        · rename_i existingTag existing hexisting
          split
          · rename_i htag
            subst htag
            conv_rhs => rw [hlast _ hexisting]
            simp [tokens]
          · simp [tokens]
        · simp [tokens]
  | tagStart tag => simp [pushSegment, tokens]
  | tagEnd tag => simp [pushSegment, tokens]

theorem hasText_pushSegment {segments : List (TaggedLineSegment τ)} (h : ∀ s ∈ segments, s.HasText)
    (segment : TaggedLineSegment τ) : ∀ s ∈ pushSegment segments segment, s.HasText := by
  have hconcat : ∀ (l : List (TaggedLineSegment τ)) (last : TaggedLineSegment τ), (∀ s ∈ l, s.HasText) → last.HasText →
      ∀ s ∈ l ++ [last], s.HasText := by
    intro l last hl hlast s hs
    rcases mem_append.mp hs with hs | hs
    · exact hl s hs
    · rw [mem_singleton.mp hs]
      exact hlast
  have hdropLast : ∀ s ∈ segments.dropLast, s.HasText := fun s hs => h s (dropLast_subset _ hs)
  cases segment with
  | normal delta =>
      rw [pushSegment]
      split
      · exact h
      · rename_i hdel
        split
        · exact hconcat _ _ hdropLast (append_ne_nil_of_right_ne_nil _ hdel)
        · exact hconcat _ _ h hdel
  | tagDelta tag delta =>
      rw [pushSegment]
      split
      · exact h
      · rename_i hdel
        split
        · split
          · exact hconcat _ _ hdropLast (append_ne_nil_of_right_ne_nil _ hdel)
          · exact hconcat _ _ h hdel
        · exact hconcat _ _ h hdel
  | tagStart tag => exact hconcat _ _ h trivial
  | tagEnd tag => exact hconcat _ _ h trivial

/-- What has been read so far, character by character. -/
def LineScan.tokens (st : LineScan τ) : List (Token τ) := st.pushRun.flatMap TaggedLineSegment.tokens

omit [DecidableEq τ] in
theorem textSegment_tokens_append (parser : TaggedLineParser τ) (text more : Text) :
    (parser.textSegment (text ++ more)).tokens = (parser.textSegment text).tokens ++ (parser.textSegment more).tokens := by
  unfold textSegment
  split
  · exact map_append
  · exact map_append

theorem LineScan.tokens_eq (st : LineScan τ) :
    st.tokens = st.segments.flatMap TaggedLineSegment.tokens ++ (st.parser.textSegment st.run).tokens := by
  unfold LineScan.tokens LineScan.pushRun
  split
  · rename_i hrun
    have hnone : (st.parser.textSegment []).tokens = [] := by
      unfold textSegment
      split
      · rfl
      · rfl
    rw [hrun, hnone, append_nil]
  · exact tokens_pushSegment _ _

variable (parser : TaggedLineParser τ) (delta : Text)

/-- The state of `parse` before the first character. -/
def LineScan.start : LineScan τ := ⟨parser, [], []⟩

theorem LineScan.tokens_pushed (segments : List (TaggedLineSegment τ)) :
    (LineScan.mk parser segments []).tokens = segments.flatMap TaggedLineSegment.tokens := by
  rw [LineScan.tokens, LineScan.pushRun, if_pos rfl]

section

variable {st : LineScan τ} {ch : Char}

def Undecided (parser : TaggedLineParser τ) (line : Text) : Prop :=
  line.trimStart = [] ∨ parser.isTagPrefix line.trimStart = true

theorem LineScan.char_lineEnd (h : st.parser.detectTag = true) : st.char '\n' =
    { parser :=
        { st.parser with
          activeTag := (st.parser.lineSegment (st.parser.lineBuffer ++ ['\n'])).2, detectTag := true, lineBuffer := [] }
      segments := pushSegment st.pushRun (st.parser.lineSegment (st.parser.lineBuffer ++ ['\n'])).1, run := [] } := by
  rw [LineScan.char, if_pos h]
  rfl

theorem LineScan.char_undecided (h : st.parser.detectTag = true) (hch : ch ≠ '\n')
    (hline : Undecided st.parser (st.parser.lineBuffer ++ [ch])) : st.char ch =
      { parser := { st.parser with lineBuffer := st.parser.lineBuffer ++ [ch] }, segments := st.pushRun, run := [] } := by
  rw [LineScan.char, if_pos h]
  dsimp only
  rw [if_neg hch]
  exact if_pos hline

theorem LineScan.char_decided (h : st.parser.detectTag = true) (hch : ch ≠ '\n')
    (hline : ¬ Undecided st.parser (st.parser.lineBuffer ++ [ch])) : st.char ch =
      { parser := { st.parser with detectTag := false, lineBuffer := [] }
        segments := st.parser.pushText (st.parser.lineBuffer ++ [ch]) st.pushRun, run := [] } := by
  rw [LineScan.char, if_pos h]
  dsimp only
  rw [if_neg hch]
  exact if_neg hline

theorem LineScan.char_runEnd (h : st.parser.detectTag = false) : st.char '\n' =
    { parser := { st.parser with detectTag := true }, segments := st.parser.pushText (st.run ++ ['\n']) st.segments
      run := [] } := by
  rw [LineScan.char, h]
  rfl

theorem LineScan.char_run (h : st.parser.detectTag = false) (hch : ch ≠ '\n') :
    st.char ch = { st with run := st.run ++ [ch] } := by
  rw [LineScan.char, h]
  exact if_neg hch

end

theorem LineScan.char_spec (st : LineScan τ) (ch : Char) :
    (st.char ch).parser = ((LineScan.start st.parser).char ch).parser ∧
      (st.char ch).tokens = st.tokens ++ ((LineScan.start st.parser).char ch).tokens := by
  have hst : (LineScan.start st.parser).pushRun = [] := rfl
  cases hdetect : st.parser.detectTag with
  | true =>
      -- The run is pushed, and what the character decides is pushed behind it.
      by_cases hch : ch = '\n'
      · rw [hch, LineScan.char_lineEnd hdetect, @LineScan.char_lineEnd _ _ (LineScan.start st.parser) hdetect,
          LineScan.tokens_pushed, LineScan.tokens_pushed, tokens_pushSegment, tokens_pushSegment, hst]
        exact ⟨rfl, rfl⟩
      · by_cases hline : Undecided st.parser (st.parser.lineBuffer ++ [ch])
        · rw [LineScan.char_undecided hdetect hch hline,
            @LineScan.char_undecided _ _ (LineScan.start st.parser) ch hdetect hch hline, LineScan.tokens_pushed,
            LineScan.tokens_pushed, hst]
          exact ⟨rfl, (append_nil _).symm⟩
        · rw [LineScan.char_decided hdetect hch hline,
            @LineScan.char_decided _ _ (LineScan.start st.parser) ch hdetect hch hline, LineScan.tokens_pushed,
            LineScan.tokens_pushed, pushText, pushText, tokens_pushSegment, tokens_pushSegment, hst]
          exact ⟨rfl, rfl⟩
  | false =>
      -- The character is behind those of the run, whether the run is pushed or goes on.
      rw [LineScan.tokens_eq st]
      by_cases hch : ch = '\n'
      · rw [hch, LineScan.char_runEnd hdetect, @LineScan.char_runEnd _ _ (LineScan.start st.parser) hdetect,
          LineScan.tokens_pushed, LineScan.tokens_pushed, pushText, pushText, tokens_pushSegment, tokens_pushSegment,
          textSegment_tokens_append, append_assoc]
        exact ⟨rfl, rfl⟩
      · rw [LineScan.char_run hdetect hch, @LineScan.char_run _ _ (LineScan.start st.parser) ch hdetect hch,
          LineScan.tokens_eq, LineScan.tokens_eq, textSegment_tokens_append, append_assoc]
        exact ⟨rfl, rfl⟩

theorem LineScan.foldl_char (st : LineScan τ) :
    (delta.foldl LineScan.char st).parser = (delta.foldl LineScan.char (.start st.parser)).parser ∧
      (delta.foldl LineScan.char st).tokens = st.tokens ++ (delta.foldl LineScan.char (.start st.parser)).tokens := by
  induction delta generalizing st with
  | nil => exact ⟨rfl, (append_nil _).symm⟩
  | cons ch delta ih =>
      obtain ⟨hpar, htks⟩ := st.char_spec ch
      obtain ⟨hpar₁, htks₁⟩ := ih (st.char ch)
      obtain ⟨hpar₂, htks₂⟩ := ih ((LineScan.start st.parser).char ch)
      rw [foldl_cons, foldl_cons, hpar₁, hpar₂, htks₁, htks₂, hpar, htks, append_assoc]
      exact ⟨rfl, rfl⟩

/-- What `parse` says, character by character. -/
def said : List (Token τ) :=
  (parser.parse delta).1.flatMap tokens

theorem parse_append (delta more : Text) :
    (parser.parse (delta ++ more)).2 = ((parser.parse delta).2.parse more).2 ∧
      parser.said (delta ++ more) = parser.said delta ++ (parser.parse delta).2.said more := by
  have hsaid : ∀ (p : TaggedLineParser τ) (text : Text), p.said text = (text.foldl LineScan.char (.start p)).tokens :=
    fun p text => rfl
  obtain ⟨hpar, htks⟩ := LineScan.foldl_char more (delta.foldl LineScan.char (.start parser))
  refine ⟨?_, ?_⟩
  · change ((delta ++ more).foldl LineScan.char (.start parser)).parser = _
    rw [foldl_append, hpar]
    rfl
  · rw [hsaid, hsaid, hsaid, foldl_append, htks]
    rfl

theorem hasText_char {st : LineScan τ} (h : ∀ s ∈ st.segments, s.HasText) (ch : Char) :
    ∀ s ∈ (st.char ch).segments, s.HasText := by
  have hrun : ∀ s ∈ st.pushRun, s.HasText := by
    unfold LineScan.pushRun
    split
    · exact h
    · exact hasText_pushSegment h _
  unfold LineScan.char
  split
  · split
    · exact hasText_pushSegment hrun _
    · dsimp only
      split
      · exact hrun
      · exact hasText_pushSegment hrun _
  · split
    · exact hasText_pushSegment h _
    · exact h

theorem hasText_parse : ∀ s ∈ (parser.parse delta).1, s.HasText := by
  have hall : ∀ (text : Text) (st : LineScan τ), (∀ s ∈ st.segments, s.HasText) →
      ∀ s ∈ (text.foldl LineScan.char st).segments, s.HasText := by
    intro text
    induction text with
    | nil => exact fun st h => h
    | cons ch text ih => exact fun st h => ih (st.char ch) (hasText_char h ch)
  have hsegments := hall delta (.start parser) fun s hs => absurd hs not_mem_nil
  change ∀ s ∈ (delta.foldl LineScan.char (.start parser)).pushRun, s.HasText
  unfold LineScan.pushRun
  split
  · exact hsegments
  · exact hasText_pushSegment hsegments _

theorem hasText_finish : ∀ s ∈ parser.finish.1, s.HasText := by
  have hnil : ∀ s ∈ ([] : List (TaggedLineSegment τ)), s.HasText := fun s hs => absurd hs not_mem_nil
  unfold finish
  dsimp only
  split
  · split
    · exact hasText_pushSegment hnil _
    · exact hasText_pushSegment (hasText_pushSegment hnil _) _
  · split
    · exact hnil
    · exact hasText_pushSegment hnil _

end

end TaggedLineParser

/-! ## Coalescing -/

def joinSegment : ProposedPlanSegment → List ProposedPlanSegment → List ProposedPlanSegment
  | .normal text, .normal next :: rest => .normal (text ++ next) :: rest
  | .proposedPlanDelta text, .proposedPlanDelta next :: rest => .proposedPlanDelta (text ++ next) :: rest
  | segment, rest => segment :: rest

def coalesce (segments : List ProposedPlanSegment) : List ProposedPlanSegment := segments.foldr joinSegment []

/-- What a segment says, character by character. -/
def ProposedPlanSegment.tokens : ProposedPlanSegment → List (Token PlanTag)
  | .normal text => text.map .normal
  | .proposedPlanStart => [.tagStart .proposedPlan]
  | .proposedPlanDelta text => text.map (.tagDelta .proposedPlan)
  | .proposedPlanEnd => [.tagEnd .proposedPlan]

def ProposedPlanSegment.HasText : ProposedPlanSegment → Prop
  | .normal text => text ≠ []
  | .proposedPlanDelta text => text ≠ []
  | _ => True

def Token.segment : Token PlanTag → ProposedPlanSegment
  | .normal c => .normal [c]
  | .tagStart _ => .proposedPlanStart
  | .tagDelta _ c => .proposedPlanDelta [c]
  | .tagEnd _ => .proposedPlanEnd

def joinToken (token : Token PlanTag) (segments : List ProposedPlanSegment) : List ProposedPlanSegment :=
  joinSegment token.segment segments

theorem joinSegment_normal (text more : Text) (rest : List ProposedPlanSegment) :
    joinSegment (.normal text) (joinSegment (.normal more) rest) = joinSegment (.normal (text ++ more)) rest := by
  cases rest with
  | nil => rfl
  | cons segment rest =>
      cases segment with
      | normal next =>
          simp only [joinSegment, append_assoc]
      | proposedPlanStart => rfl
      | proposedPlanDelta next => rfl
      | proposedPlanEnd => rfl

theorem joinSegment_delta (text more : Text) (rest : List ProposedPlanSegment) :
    joinSegment (.proposedPlanDelta text) (joinSegment (.proposedPlanDelta more) rest) =
      joinSegment (.proposedPlanDelta (text ++ more)) rest := by
  cases rest with
  | nil => rfl
  | cons segment rest =>
      cases segment with
      | normal next => rfl
      | proposedPlanStart => rfl
      | proposedPlanDelta next =>
          simp only [joinSegment, append_assoc]
      | proposedPlanEnd => rfl

theorem foldr_joinToken {segment : ProposedPlanSegment} (h : segment.HasText) (rest : List ProposedPlanSegment) :
    segment.tokens.foldr joinToken rest = joinSegment segment rest := by
  cases segment with
  | normal text =>
      induction text with
      | nil => exact absurd rfl h
      | cons c text ih =>
          cases text with
          | nil => rfl
          | cons next text =>
              have hrest := ih (cons_ne_nil next text)
              change joinSegment (.normal [c]) ((ProposedPlanSegment.normal (next :: text)).tokens.foldr joinToken rest) = _
              rw [hrest, joinSegment_normal]
              rfl
  | proposedPlanStart => rfl
  | proposedPlanDelta text =>
      induction text with
      | nil => exact absurd rfl h
      | cons c text ih =>
          cases text with
          | nil => rfl
          | cons next text =>
              have hrest := ih (cons_ne_nil next text)
              change joinSegment (.proposedPlanDelta [c])
                ((ProposedPlanSegment.proposedPlanDelta (next :: text)).tokens.foldr joinToken rest) = _
              rw [hrest, joinSegment_delta]
              rfl
  | proposedPlanEnd => rfl

theorem coalesce_eq {segments : List ProposedPlanSegment} (h : ∀ s ∈ segments, s.HasText) :
    coalesce segments = (segments.flatMap ProposedPlanSegment.tokens).foldr joinToken [] := by
  induction segments with
  | nil => rfl
  | cons segment segments ih =>
      rw [forall_mem_cons] at h
      rw [flatMap_cons, foldr_append, ← ih h.2, foldr_joinToken h.1]
      rfl

/-! ## Plans in chunks -/

namespace ProposedPlanParser

theorem tokens_mapSegment (segment : TaggedLineSegment PlanTag) : (mapSegment segment).tokens = segment.tokens := by
  cases segment with
  | normal text => rfl
  | tagStart tag => cases tag; rfl
  | tagDelta tag text => cases tag; rfl
  | tagEnd tag => cases tag; rfl

theorem hasText_mapSegment {segment : TaggedLineSegment PlanTag} (h : segment.HasText) : (mapSegment segment).HasText := by
  cases segment with
  | normal text => exact h
  | tagStart tag => trivial
  | tagDelta tag text => exact h
  | tagEnd tag => trivial

theorem tokens_mapSegments (segments : List (TaggedLineSegment PlanTag)) :
    (mapSegments segments).extracted.flatMap ProposedPlanSegment.tokens = segments.flatMap tokens := by
  rw [mapSegments, flatMap_map]
  exact congrArg (flatMap · segments) (funext tokens_mapSegment)

theorem hasText_mapSegments {segments : List (TaggedLineSegment PlanTag)} (h : ∀ s ∈ segments, s.HasText) :
    ∀ s ∈ (mapSegments segments).extracted, s.HasText := by
  intro s hs
  obtain ⟨segment, hsegment, rfl⟩ := mem_map.mp hs
  exact hasText_mapSegment (h segment hsegment)

def normalChar : Token PlanTag → Option Char
  | .normal c => some c
  | _ => none

theorem filterMap_normalChar (segment : ProposedPlanSegment) : segment.tokens.filterMap normalChar = normalText segment := by
  cases segment with
  | normal text =>
      rw [ProposedPlanSegment.tokens, filterMap_map]
      exact filterMap_some
  | proposedPlanStart => rfl
  | proposedPlanDelta text =>
      rw [ProposedPlanSegment.tokens, filterMap_map]
      exact filterMap_eq_nil_iff.mpr fun c _ => rfl
  | proposedPlanEnd => rfl

theorem visibleText_mapSegments (segments : List (TaggedLineSegment PlanTag)) :
    (mapSegments segments).visibleText = (segments.flatMap tokens).filterMap normalChar := by
  rw [← tokens_mapSegments, filterMap_flatMap]
  exact congrArg (flatMap · _) (funext fun segment => (filterMap_normalChar segment).symm)

def said (plan : ProposedPlanParser) (text : Text) : List (Token PlanTag) := plan.parser.said text

/-- What it says at the end. -/
def saidLast (plan : ProposedPlanParser) : List (Token PlanTag) := plan.parser.finish.1.flatMap tokens

theorem pushStr_append (plan : ProposedPlanParser) (text more : Text) :
    (plan.pushStr (text ++ more)).2 = ((plan.pushStr text).2.pushStr more).2 ∧
      plan.said (text ++ more) = plan.said text ++ (plan.pushStr text).2.said more := by
  obtain ⟨hpar, hsaid⟩ := plan.parser.parse_append text more
  exact ⟨congrArg mk hpar, hsaid⟩

end ProposedPlanParser

/-! ## What is heard -/

/-- What a chunk of assistant text says, however its segments are cut. -/
structure Heard where
  visibleText : Text
  citations : List Text
  plan : List (Token PlanTag)

namespace Heard

def silence : Heard := ⟨[], [], []⟩

def append (first second : Heard) : Heard :=
  ⟨first.visibleText ++ second.visibleText, first.citations ++ second.citations, first.plan ++ second.plan⟩

def ofText (planMode : Bool) (text : Text) (citations : List Text) (said : List (Token PlanTag)) : Heard :=
  if planMode then ⟨said.filterMap normalChar, citations, said⟩ else ⟨text, citations, []⟩

theorem ofText_append (planMode : Bool) (text more : Text) (citations citations' : List Text)
    (said said' : List (Token PlanTag)) : ofText planMode (text ++ more) (citations ++ citations') (said ++ said') =
      (ofText planMode text citations said).append (ofText planMode more citations' said') := by
  cases planMode with
  | true => simp [ofText, append]
  | false => simp [ofText, append]

def chunk (heard : Heard) : AssistantTextChunk := ⟨heard.visibleText, heard.citations, heard.plan.foldr joinToken []⟩

end Heard

namespace AssistantTextChunk

def default : AssistantTextChunk := ⟨[], [], []⟩

def append (first second : AssistantTextChunk) : AssistantTextChunk :=
  ⟨first.visibleText ++ second.visibleText, first.citations ++ second.citations, first.planSegments ++ second.planSegments⟩

def coalesced (chunk : AssistantTextChunk) : AssistantTextChunk :=
  { chunk with planSegments := coalesce chunk.planSegments }

def heard (chunk : AssistantTextChunk) : Heard :=
  ⟨chunk.visibleText, chunk.citations, chunk.planSegments.flatMap ProposedPlanSegment.tokens⟩

def HasText (chunk : AssistantTextChunk) : Prop := ∀ s ∈ chunk.planSegments, s.HasText

theorem heard_append (first second : AssistantTextChunk) : (first.append second).heard = first.heard.append second.heard := by
  simp [append, heard, Heard.append]

theorem HasText.append {first second : AssistantTextChunk} (h : first.HasText) (h' : second.HasText) :
    (first.append second).HasText := by
  intro s hs
  rcases mem_append.mp hs with hs | hs
  · exact h s hs
  · exact h' s hs

theorem HasText.coalesced_eq {chunk : AssistantTextChunk} (h : chunk.HasText) : chunk.coalesced = chunk.heard.chunk := by
  rw [coalesced, coalesce_eq h]
  rfl

end AssistantTextChunk

namespace AssistantTextStreamParser

variable (parser : AssistantTextStreamParser)

variable (planMode : Bool) (text : Text)

def planAfter : ProposedPlanParser := if parser.planMode then (parser.plan.pushStr text).2 else parser.plan

theorem parseVisibleText_spec :
    (parser.parseVisibleText text).2 = { parser with plan := parser.planAfter text } ∧
      (∀ citations, ({ (parser.parseVisibleText text).1 with citations } : AssistantTextChunk).heard =
        .ofText parser.planMode text citations (parser.plan.said text)) ∧ (parser.parseVisibleText text).1.HasText := by
  obtain ⟨planMode, citations, plan⟩ := parser
  cases planMode with
  | true =>
      refine ⟨rfl, fun citations => ?_, ProposedPlanParser.hasText_mapSegments (plan.parser.hasText_parse text)⟩
      simp only [parseVisibleText, if_true, heard, Heard.ofText, ProposedPlanParser.pushStr,
        ProposedPlanParser.visibleText_mapSegments, ProposedPlanParser.tokens_mapSegments, ProposedPlanParser.said,
        TaggedLineParser.said]
  | false =>
      refine ⟨rfl, fun citations => rfl, ?_⟩
      intro s hs
      cases hs

theorem pushStr_spec (chunk : Text) : (parser.pushStr chunk).2 = { parser with
          citations := (parser.citations.pushStr chunk).2
          plan := parser.planAfter (parser.citations.pushStr chunk).1.visibleText } ∧ (parser.pushStr chunk).1.heard =
        .ofText parser.planMode (parser.citations.pushStr chunk).1.visibleText
          (parser.citations.pushStr chunk).1.extracted
          (parser.plan.said (parser.citations.pushStr chunk).1.visibleText) ∧ (parser.pushStr chunk).1.HasText := by
  obtain ⟨hpar, hheard, htext⟩ :=
    ({ parser with citations := (parser.citations.pushStr chunk).2 } : AssistantTextStreamParser).parseVisibleText_spec
      (parser.citations.pushStr chunk).1.visibleText
  exact ⟨hpar, hheard _, htext⟩

def planned (plan : ProposedPlanParser) (text : Text) (citations : List Text) : AssistantTextChunk :=
  ⟨(plan.pushStr text).1.visibleText ++ (plan.pushStr text).2.finish.1.visibleText, citations,
    (plan.pushStr text).1.extracted ++ (plan.pushStr text).2.finish.1.extracted⟩

theorem planned_spec (plan : ProposedPlanParser) (text : Text) (citations : List Text) :
    (planned plan text citations).heard =
        .ofText true text citations (plan.said text ++ (plan.pushStr text).2.saidLast) ∧
      (planned plan text citations).HasText := by
  refine ⟨?_, fun s hs => ?_⟩
  · simp only [planned, heard, Heard.ofText, if_true, ProposedPlanParser.pushStr,
      ProposedPlanParser.finish, ProposedPlanParser.visibleText_mapSegments, ProposedPlanParser.tokens_mapSegments,
      flatMap_append, filterMap_append, ProposedPlanParser.said, ProposedPlanParser.saidLast,
      TaggedLineParser.said]
  · rcases mem_append.mp hs with hs | hs
    · exact ProposedPlanParser.hasText_mapSegments (plan.parser.hasText_parse _) s hs
    · exact ProposedPlanParser.hasText_mapSegments (TaggedLineParser.hasText_finish _) s hs

theorem finish_planMode (citations : CitationStreamParser) (plan : ProposedPlanParser) :
    (mk true citations plan).finish.1 = planned plan citations.finish.1.visibleText citations.finish.1.extracted := by
  simp only [finish, parseVisibleText, if_true, planned]
  split
  · rename_i hemp
    obtain ⟨hvis, hextracted⟩ := (Bool.and_eq_true _ _).mp hemp
    rw [isEmpty_iff.mp hvis, isEmpty_iff.mp hextracted, append_nil, append_nil]
  · rfl

theorem finish_spec : parser.finish.1.heard =
        .ofText parser.planMode parser.citations.finish.1.visibleText parser.citations.finish.1.extracted
          (parser.plan.said parser.citations.finish.1.visibleText ++
            (parser.plan.pushStr parser.citations.finish.1.visibleText).2.saidLast) ∧ parser.finish.1.HasText := by
  obtain ⟨planMode, citations, plan⟩ := parser
  cases planMode with
  | true =>
      rw [finish_planMode]
      exact planned_spec plan _ _
  | false =>
      refine ⟨rfl, ?_⟩
      intro s hs
      cases hs

/-! ## The whole text -/

def Settled : Prop := parser.citations.Settled

def feed (parser : AssistantTextStreamParser) : List Text → AssistantTextChunk × AssistantTextStreamParser
  | [] => (.default, parser)
  | chunk :: chunks =>
      let (out, parser) := parser.pushStr chunk
      let (rest, parser) := feed parser chunks
      (out.append rest, parser)

def collect (chunks : List Text) : AssistantTextChunk :=
  let (fed, parser) := (new planMode).feed chunks
  (fed.append parser.finish.1).coalesced

def stripThenParse : AssistantTextChunk :=
  let (visibleText, citations) := stripCitations text
  if planMode then
    let (out, plan) := ProposedPlanParser.new.pushStr visibleText
    let (tail, _) := plan.finish
    coalesced ⟨out.visibleText ++ tail.visibleText, citations, out.extracted ++ tail.extracted⟩
  else ⟨visibleText, citations, []⟩

variable {parser}

theorem settled_pushStr (h : parser.Settled) (chunk : Text) : (parser.pushStr chunk).2.Settled := by
  rw [(parser.pushStr_spec chunk).1]
  exact CitationStreamParser.settled_pushStr h chunk

theorem pushStr_nil (h : parser.Settled) : (parser.pushStr []).2 = parser ∧ (parser.pushStr []).1.heard = .silence := by
  obtain ⟨hpar, hheard, -⟩ := parser.pushStr_spec []
  rw [CitationStreamParser.pushStr_nil h] at hpar hheard
  obtain ⟨planMode, citations, plan⟩ := parser
  cases planMode with
  | true => exact ⟨hpar, hheard⟩
  | false => exact ⟨hpar, hheard⟩

theorem pushStr_append (h : parser.Settled) (chunk more : Text) :
    (parser.pushStr (chunk ++ more)).2 = ((parser.pushStr chunk).2.pushStr more).2 ∧
      (parser.pushStr (chunk ++ more)).1.heard =
        (parser.pushStr chunk).1.heard.append ((parser.pushStr chunk).2.pushStr more).1.heard := by
  obtain ⟨hpar, hheard, -⟩ := parser.pushStr_spec (chunk ++ more)
  obtain ⟨hpar₁, hheard₁, -⟩ := parser.pushStr_spec chunk
  obtain ⟨hpar₂, hheard₂, -⟩ := (parser.pushStr chunk).2.pushStr_spec more
  obtain ⟨hplan, hsaid⟩ := parser.plan.pushStr_append (parser.citations.pushStr chunk).1.visibleText
    ((parser.citations.pushStr chunk).2.pushStr more).1.visibleText
  rw [hpar₁] at hpar₂ hheard₂
  rw [CitationStreamParser.pushStr_append h] at hpar hheard
  rw [hpar₁, hpar, hpar₂, hheard, hheard₁, hheard₂]
  obtain ⟨planMode, citations, plan⟩ := parser
  cases planMode with
  | true =>
      refine ⟨congrArg (mk true _) hplan, ?_⟩
      rw [← Heard.ofText_append]
      exact congrArg (Heard.ofText true _ _) hsaid
  | false => exact ⟨rfl, rfl⟩

theorem feed_spec (h : parser.Settled) (chunks : List Text) :
    (parser.feed chunks).2 = (parser.pushStr chunks.flatten).2 ∧
      (parser.feed chunks).1.heard = (parser.pushStr chunks.flatten).1.heard ∧ (parser.feed chunks).1.HasText := by
  induction chunks generalizing parser with
  | nil =>
      obtain ⟨hpar, hheard⟩ := pushStr_nil h
      refine ⟨hpar.symm, hheard.symm, ?_⟩
      intro s hs
      cases hs
  | cons chunk chunks ih =>
      obtain ⟨hrest, hheard, htext⟩ := ih (settled_pushStr h chunk)
      obtain ⟨hpar', hheard'⟩ := pushStr_append h chunk chunks.flatten
      have hfeed : parser.feed (chunk :: chunks) =
          ((parser.pushStr chunk).1.append ((parser.pushStr chunk).2.feed chunks).1,
            ((parser.pushStr chunk).2.feed chunks).2) := rfl
      rw [flatten_cons, hfeed, hpar', hheard', heard_append, hrest, hheard]
      exact ⟨rfl, rfl, (parser.pushStr_spec chunk).2.2.append htext⟩

theorem settled_new : (new planMode).Settled := CitationStreamParser.settled_new

theorem collect_heard (chunks : List Text) : collect planMode chunks =
      (((new planMode).pushStr chunks.flatten).1.heard.append
        ((new planMode).pushStr chunks.flatten).2.finish.1.heard).chunk := by
  obtain ⟨hpar, hheard, htext⟩ := feed_spec (settled_new planMode) chunks
  have hend := ((new planMode).feed chunks).2.finish_spec.2
  change (((new planMode).feed chunks).1.append ((new planMode).feed chunks).2.finish.1).coalesced = _
  rw [(htext.append hend).coalesced_eq, heard_append, hheard, hpar]

theorem stripThenParse_heard : stripThenParse planMode text =
      (((new planMode).pushStr text).1.heard.append ((new planMode).pushStr text).2.finish.1.heard).chunk := by
  obtain ⟨hpar, hheard, -⟩ := (new planMode).pushStr_spec text
  obtain ⟨hend, -⟩ := ((new planMode).pushStr text).2.finish_spec
  rw [hpar] at hend
  rw [hpar, hheard, hend]
  cases planMode with
  | true =>
      -- The plan parser goes on with the text that the citations keep to the end.
      have hstripped : stripCitations text =
          ((CitationStreamParser.new.pushStr text).1.visibleText ++
              (CitationStreamParser.new.pushStr text).2.finish.1.visibleText,
            (CitationStreamParser.new.pushStr text).1.extracted ++
              (CitationStreamParser.new.pushStr text).2.finish.1.extracted) := rfl
      obtain ⟨hheard, htext⟩ := planned_spec .new (stripCitations text).1 (stripCitations text).2
      obtain ⟨hplan, hsaid⟩ := ProposedPlanParser.new.pushStr_append (CitationStreamParser.new.pushStr text).1.visibleText
        (CitationStreamParser.new.pushStr text).2.finish.1.visibleText
      change (planned .new (stripCitations text).1 (stripCitations text).2).coalesced = _
      rw [htext.coalesced_eq, hheard, hstripped]
      dsimp only
      rw [hplan, hsaid, append_assoc, Heard.ofText_append]
      rfl
  | false => rfl

/-- For every text, every way to cut it into chunks and both modes, what is emitted is what is emitted for the text in
one go, and what the plan parser makes of the text without its citations. -/
theorem collect_eq_stripThenParse (planMode : Bool) (chunks : List Text) :
    collect planMode chunks = collect planMode [chunks.flatten] ∧
      collect planMode chunks = stripThenParse planMode chunks.flatten := by
  have hflat : [chunks.flatten].flatten = chunks.flatten := append_nil _
  rw [stripThenParse_heard, collect_heard planMode [chunks.flatten], hflat]
  exact ⟨collect_heard planMode chunks, collect_heard planMode chunks⟩

end AssistantTextStreamParser

end CodexStudy.StreamParser
