import CodexStudy.StreamParser.Theorems.AssistantText

/-!
# Tag lines (`tagged_line_parser.rs`)

The parser holds a line back while it can still become a tag.
-/

namespace CodexStudy.StreamParser.TaggedLineParser

open CodexStudy.Lib Text List LineScan TaggedLineSegment

/-! ## The walk over the lines -/

variable {τ : Type} [DecidableEq τ] {parser : TaggedLineParser τ} {specs : List (TagSpec τ)} {active : Option τ}
  {body q : Text} {c : Char}

/-- What the lines are when a tag is active or not: a line opens a tag, closes the active one, or is text. -/
def reference (specs : List (TagSpec τ)) : Option τ → List Text → List (TaggedLineSegment τ)
  | none, [] => []
  | some tag, [] => [.tagEnd tag]
  | none, line :: rest =>
      match (specs.find? fun spec => spec.opener = lineSlug line).map TagSpec.tag with
      | some tag => .tagStart tag :: reference specs (some tag) rest
      | none => .normal line :: reference specs none rest
  | some tag, line :: rest =>
      if ∃ spec ∈ specs, spec.tag = tag ∧ spec.closer = lineSlug line then .tagEnd tag :: reference specs none rest
      else .tagDelta tag line :: reference specs (some tag) rest

def OwnClosers (specs : List (TagSpec τ)) : Prop := ∀ a ∈ specs, ∀ b ∈ specs, a.closer = b.closer → a.tag = b.tag

def ofToken : Token τ → TaggedLineSegment τ
  | .normal c => .normal [c]
  | .tagStart tag => .tagStart tag
  | .tagDelta tag c => .tagDelta tag [c]
  | .tagEnd tag => .tagEnd tag

/-- Neighbouring texts of one kind are joined, wherever they are cut. -/
def coalesce (segments : List (TaggedLineSegment τ)) : List (TaggedLineSegment τ) :=
  ((segments.flatMap tokens).map ofToken).foldl pushSegment []

/-- The segments of all chunks and of the end. -/
def collect (parser : TaggedLineParser τ) : List Text → List (TaggedLineSegment τ)
  | [] => parser.finish.1
  | chunk :: chunks => (parser.parse chunk).1 ++ collect (parser.parse chunk).2 chunks

/-! ## One line -/

theorem said_eq (parser : TaggedLineParser τ) (c : Char) :
    parser.said [c] = ((start parser).char c).tokens := rfl

theorem parse_eq (parser : TaggedLineParser τ) (c : Char) :
    (parser.parse [c]).2 = ((start parser).char c).parser := rfl

/-- Between two lines. -/
def atLine (specs : List (TagSpec τ)) (active : Option τ) : TaggedLineParser τ := ⟨specs, active, true, []⟩

/-- A begun line is held back as long as it can become a tag, and is said as text from then on. -/
theorem parse_body (hbody : '\n' ∉ body) :
    ((atLine specs active).parse body).2 = { atLine specs active with lineBuffer := body } ∧
        (atLine specs active).said body = [] ∨ (∃ q, q <+: body ∧ ¬Undecided (atLine specs active) q) ∧
        ((atLine specs active).parse body).2 = { atLine specs active with detectTag := false } ∧
        (atLine specs active).said body = ((atLine specs active).textSegment body).tokens := by
  induction body using reverseRecOn with
  | nil => exact .inl ⟨rfl, rfl⟩
  | append_singleton body c ih =>
      simp at hbody
      have hc : c ≠ '\n' := fun h => hbody.2 h.symm
      obtain ⟨hprs, hsaid⟩ := (atLine specs active).parse_append body [c]
      rcases ih hbody.1 with ⟨hheld, hnone⟩ | ⟨⟨q, hq, hdecided⟩, hrun, htext⟩
      · rw [hprs, hsaid, hheld, hnone, parse_eq, said_eq]
        by_cases hline : Undecided (atLine specs active) (body ++ [c])
        · left
          rw [char_undecided rfl hc hline]
          exact ⟨rfl, rfl⟩
        · right
          rw [char_decided rfl hc hline, tokens_pushed, pushText, tokens_pushSegment]
          exact ⟨⟨body ++ [c], prefix_rfl, hline⟩, rfl, rfl⟩
      · right
        rw [hprs, hsaid, hrun, htext, parse_eq, said_eq, char_run rfl hc, textSegment_tokens_append]
        exact ⟨⟨q, hq.trans (prefix_append ..), hdecided⟩, rfl, by rw [tokens_eq]; rfl⟩

theorem trimEnd_prefix (h : q <+: body) : trimStart q = [] ∨ trimEnd (trimStart q) <+: trim body := by
  obtain ⟨rest, rfl⟩ := h
  by_cases hq : trimStart q = []
  · exact .inl hq
  · right
    rw [trim, trimStart_append rest hq]
    by_cases hrest : trimEnd rest = []
    · rw [trimEnd_append_blank _ hrest]
    · rw [trimEnd_append _ hrest]
      exact (trimEnd_isPrefix _).trans (prefix_append ..)

omit [DecidableEq τ] in
theorem lineSegment_text (hdecided : ∃ q, q <+: body ∧ ¬Undecided parser q) {line : Text}
    (hline : lineSlug line = trim body) [DecidableEq τ] :
    parser.lineSegment line = (parser.textSegment line, parser.activeTag) := by
  obtain ⟨q, hq, hdecided⟩ := hdecided
  obtain ⟨hblank, htag⟩ := not_or.mp hdecided
  have hslug := ( trimEnd_prefix hq).resolve_left hblank
  have hopen : parser.matchOpen (lineSlug line) = none := by
    simp [matchOpen]
    intro spec hspec heq
    simp [isTagPrefix] at htag
    rw [hline] at heq
    exact (htag spec hspec).1 (heq ▸ hslug)
  have hclose : parser.matchClose (lineSlug line) = none := by
    simp [matchClose]
    intro spec hspec heq
    simp [isTagPrefix] at htag
    rw [hline] at heq
    exact (htag spec hspec).2 (heq ▸ hslug)
  unfold lineSegment
  rw [hopen, hclose]
  cases parser.activeTag <;> rfl

theorem lineSlug_body (hbody : '\n' ∉ body) : lineSlug body = trim body := by
  have hlast : body.getLast? ≠ some '\n' := fun h => hbody (mem_of_getLast? h)
  simp [lineSlug, hlast, trim]

theorem lineSlug_line : lineSlug (body ++ ['\n']) = trim body := by simp [lineSlug, trim]

/-- After a line break the line is a tag or text, however it was held back. -/
theorem parse_line (hbody : '\n' ∉ body) : ((atLine specs active).parse (body ++ ['\n'])).2 =
        atLine specs ((atLine specs active).lineSegment (body ++ ['\n'])).2 ∧
      (atLine specs active).said (body ++ ['\n']) = ((atLine specs active).lineSegment (body ++ ['\n'])).1.tokens := by
  obtain ⟨hprs, hsaid⟩ := (atLine specs active).parse_append body ['\n']
  rw [hprs, hsaid, parse_eq, said_eq]
  rcases @parse_body _ _ specs active _ hbody with ⟨hheld, hnone⟩ | ⟨hdecided, hrun, htext⟩
  · rw [hheld, hnone, char_lineEnd rfl, tokens_pushed, tokens_pushSegment]
    exact ⟨rfl, rfl⟩
  · rw [hrun, htext, char_runEnd rfl, tokens_pushed, pushText, tokens_pushSegment,
      lineSegment_text hdecided lineSlug_line]
    exact ⟨rfl, (textSegment_tokens_append (atLine specs active) body ['\n']).symm⟩

/-! ## The whole text -/

omit [DecidableEq τ] in
theorem closes_iff (hclosers : OwnClosers specs) {tag : τ} {slug : Text} :
    (∃ spec ∈ specs, spec.tag = tag ∧ spec.closer = slug) ↔ (atLine specs active).matchClose slug = some tag := by
  rw [matchClose, Option.map_eq_some_iff]
  constructor
  · rintro ⟨spec, hspec, rfl, rfl⟩
    cases hfind : specs.find? fun other => other.closer = spec.closer with
    | none => simpa using find?_eq_none.mp hfind spec hspec
    | some first =>
        exact ⟨first, hfind, hclosers first (mem_of_find?_eq_some hfind) spec hspec (by simpa using find?_some hfind)⟩
  · rintro ⟨spec, hfind, rfl⟩
    exact ⟨spec, mem_of_find?_eq_some hfind, rfl, by simpa using find?_some hfind⟩

theorem reference_cons (hclosers : OwnClosers specs) (line : Text) (rest : List Text) :
    reference specs active (line :: rest) =
      ((atLine specs active).lineSegment line).1 :: reference specs ((atLine specs active).lineSegment line).2 rest := by
  cases active with
  | none =>
      cases hopen : specs.find? fun spec => spec.opener = lineSlug line with
      | none => simp [reference, lineSegment, matchOpen, atLine, textSegment, hopen]
      | some spec => simp [reference, lineSegment, matchOpen, atLine, hopen]
  | some tag =>
      rw [reference, if_congr (@closes_iff _ _ (some tag) hclosers _ _) rfl rfl, lineSegment]
      cases hclose : (atLine specs (some tag)).matchClose (lineSlug line) with
      | none => simp [atLine, textSegment]
      | some other =>
          by_cases htag : tag = other
          · simp [atLine, htag]
          · simp [atLine, textSegment, htag, Ne.symm htag]

theorem parse_finish (hclosers : OwnClosers specs) (hbody : '\n' ∉ body) : (atLine specs active).said body ++
        ((atLine specs active).parse body).2.finish.1.flatMap tokens =
      (reference specs active (Text.lastLine body)).flatMap tokens := by
  have hend : ∀ active : Option τ, (reference specs active []).flatMap tokens =
      match active with
      | some tag => [.tagEnd tag]
      | none => [] := by
    intro active
    cases active <;> simp [reference, TaggedLineSegment.tokens]
  rcases @parse_body _ _ specs active _ hbody with ⟨hheld, hnone⟩ | ⟨hdecided, hrun, htext⟩
  · rw [hheld, hnone]
    by_cases hnil : body = []
    · cases active <;> simp [hnil, finish, atLine, Text.lastLine, reference, pushSegment]
    · simp only [Text.lastLine, if_neg hnil, finish, reference_cons hclosers, List.flatMap_cons, hend, List.nil_append]
      change List.flatMap _ (match ((atLine specs active).lineSegment body).2 with | some tag => _ | none => _) = _
      split <;> simp [tokens_pushSegment] <;> rfl
  · have hne : body ≠ [] := by
      obtain ⟨q, hq, hund⟩ := hdecided
      rintro rfl
      rw [List.prefix_nil] at hq
      exact hund (.inl (by rw [hq]; rfl))
    rw [hrun, htext]
    simp only [Text.lastLine, if_neg hne, reference_cons hclosers, lineSegment_text hdecided (lineSlug_body hbody),
      List.flatMap_cons, hend]
    cases active <;> simp [finish, atLine, pushSegment, TaggedLineSegment.tokens]

theorem said_lines (hclosers : OwnClosers specs) (active : Option τ) (text : Text) :
    (atLine specs active).said text ++ ((atLine specs active).parse text).2.finish.1.flatMap tokens =
      (reference specs active (splitInclusive text)).flatMap tokens := by
  obtain ⟨ls, body, rfl, hls, hbody⟩ := exists_ofLines text
  rw [splitInclusive_ofLines_append hls hbody]
  induction ls generalizing active with
  | nil => exact parse_finish hclosers hbody
  | cons l ls ih =>
      obtain ⟨hprs, hsaid⟩ := (atLine specs active).parse_append (l ++ ['\n']) (ofLines ls ++ body)
      obtain ⟨hline, htks⟩ := @parse_line _ _ specs active _ (hls l mem_cons_self)
      have ih := ih ((atLine specs active).lineSegment (l ++ ['\n'])).2 fun l' hl' => hls l' (mem_cons_of_mem _ hl')
      have hspl : ofLines (l :: ls) ++ body = (l ++ ['\n']) ++ (ofLines ls ++ body) := by simp [ofLines]
      rw [hspl, hprs, hsaid, hline, htks, map_cons, cons_append, reference_cons hclosers, append_assoc, ih,
        flatMap_cons]

theorem collect_tokens (parser : TaggedLineParser τ) (chunks : List Text) : (parser.collect chunks).flatMap tokens =
      parser.said chunks.flatten ++ (parser.parse chunks.flatten).2.finish.1.flatMap tokens := by
  induction chunks generalizing parser with
  | nil => rfl
  | cons chunk chunks ih =>
      obtain ⟨hprs, hsaid⟩ := parser.parse_append chunk chunks.flatten
      rw [flatten_cons, hprs, hsaid, append_assoc, ← ih]
      simp [collect, said]

/-- Where no two tags share a closer, the coalesced segments are those of the walk over the lines. -/
theorem collect_eq_reference (specs : List (TagSpec τ)) (hclosers : OwnClosers specs) (chunks : List Text) :
    coalesce ((new specs).collect chunks) = coalesce (reference specs none (splitInclusive chunks.flatten)) := by
  rw [coalesce, coalesce, collect_tokens]
  exact congrArg (fun tokens => (tokens.map ofToken).foldl pushSegment []) (said_lines hclosers none chunks.flatten)

theorem collect_eq_reference_plan :
    coalesce ((new [⟨"<a>", "</a>", 0⟩, ⟨"<b>", "</b>", 1⟩]).collect ["<b", ">\nx\n </a>\n", "</b>\ny"]) =
      coalesce (reference [⟨"<a>", "</a>", 0⟩, ⟨"<b>", "</b>", 1⟩] none
        (splitInclusive (["<b", ">\nx\n </a>\n", "</b>\ny"] : List Text).flatten)) :=
  collect_eq_reference _ (by simp [OwnClosers]) _

/-- The closer of the second tag is looked up as that of the first one. -/
theorem shared_closer_closes_the_first : ¬ ∀ chunks : List Text,
    coalesce ((new [⟨"<a>", "</x>", 0⟩, ⟨"<b>", "</x>", 1⟩]).collect chunks) =
      coalesce (reference [⟨"<a>", "</x>", 0⟩, ⟨"<b>", "</x>", 1⟩] none (splitInclusive chunks.flatten)) := by
  intro h
  have h := h ["<b>\n</x>\n"]
  revert h
  decide

end CodexStudy.StreamParser.TaggedLineParser
