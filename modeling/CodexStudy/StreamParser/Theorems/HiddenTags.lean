import CodexStudy.StreamParser.Parsers
import Mathlib.Data.List.Find

/-!
# Hidden tags in chunks (`inline_hidden_tag.rs`)

The parser looks for the next opener in what it has, and what comes later may make another opener win.
-/

namespace CodexStudy.StreamParser

open CodexStudy.Lib List

/-- What two chunks emit, one behind the other. -/
def StreamTextChunk.append {ε : Type} (first second : StreamTextChunk ε) : StreamTextChunk ε :=
  ⟨first.visibleText ++ second.visibleText, first.extracted ++ second.extracted⟩

variable {marker rest closer : Text} {pos : Nat}

namespace InlineHiddenTagParser

variable {τ : Type}

/-- What two scans emit, one behind the other. -/
def Scan.after (first second : Scan τ) : Scan τ :=
  { out := ⟨first.out.visibleText ++ second.out.visibleText, first.out.extracted ++ second.out.extracted⟩
    pending := second.pending, active := second.active }

theorem Scan.after_assoc (first second third : Scan τ) :
    (first.after second).after third = first.after (second.after third) := by
  simp [Scan.after, append_assoc]

section

variable {specs : List (InlineTagSpec τ)} {spec : InlineTagSpec τ} {pending : Text}

theorem scan_some (specs : List (InlineTagSpec τ)) (pending : Text) (active : ActiveTag τ) :
    scan specs pending (some active) =
      if active.closer <+: (splitMarker active.closer pending).2 then
        Scan.after
          ⟨⟨[], [⟨active.tag, active.content ++ (splitMarker active.closer pending).1⟩]⟩, [], none⟩
          (scan specs ((splitMarker active.closer pending).2.drop active.closer.length) none)
      else
        ⟨.default, (splitMarker active.closer pending).2,
          some { active with content := active.content ++ (splitMarker active.closer pending).1 }⟩ := by
  conv_lhs => rw [scan]
  dsimp only
  split
  · rename_i closeIdx hfnd
    rw [splitMarker_of_found active.closer_ne hfnd, if_pos (findMarker_eq_some hfnd).1, drop_drop]
    rfl
  · rename_i hnone
    rw [splitMarker_of_none hnone, if_neg (findMarker_eq_none hnone _)]

theorem length_drop_split_lt (hmk : marker ≠ []) (h : marker <+: (splitMarker marker pending).2) :
    ((splitMarker marker pending).2.drop marker.length).length < pending.length := by
  have hpos := length_pos_iff.mpr hmk
  have hle := h.length_le
  have hspl := congrArg length (splitMarker_fst_append_snd marker pending)
  rw [length_append] at hspl
  rw [length_drop]
  omega

theorem splitMarker_append_of_found (more : Text) (h : marker <+: (splitMarker marker pending).2) :
    splitMarker marker (pending ++ more) = ((splitMarker marker pending).1, (splitMarker marker pending).2 ++ more) := by
  have hst : MayStart marker ((splitMarker marker pending).2 ++ more) := .inr (h.trans (prefix_append _ _))
  rw [splitMarker_append, splitMarker_of_mayStart (.inr hst), append_nil]

/-! ## Where the next tag opens -/

/-- No opener stands inside another one in front of its end. -/
def Decisive (specs : List (InlineTagSpec τ)) : Prop := ∀ s ∈ specs, ∀ t ∈ specs, ¬s.opener <:+: t.opener.dropLast

theorem decisive_single (spec : InlineTagSpec τ) : Decisive [spec] := by
  intro s hs t ht hins
  rw [mem_singleton.mp hs, mem_singleton.mp ht] at hins
  have hlen := hins.length_le
  have hpos := length_pos_iff.mpr spec.opener_ne
  simp at hlen
  omega

def AnyMayStart (specs : List (InlineTagSpec τ)) (rest : Text) : Prop := ∃ spec ∈ specs, MayStart spec.opener rest

instance (specs : List (InlineTagSpec τ)) : DecidablePred (AnyMayStart specs) :=
  fun rest => inferInstanceAs (Decidable (∃ spec ∈ specs, MayStart spec.opener rest))

def splitOpen (specs : List (InlineTagSpec τ)) (pending : Text) : Text × Text := splitWhere (AnyMayStart specs) pending

def opensAt (specs : List (InlineTagSpec τ)) (rest : Text) : Option (InlineTagSpec τ) :=
  specs.find? fun spec => spec.opener <+: rest

theorem opensAt_eq_some (h : opensAt specs pending = some spec) : spec ∈ specs ∧ spec.opener <+: pending :=
  ⟨mem_of_find?_eq_some h, by simpa using find?_some h⟩

theorem opensAt_eq_none (h : opensAt specs pending = none) : ∀ spec ∈ specs, ¬spec.opener <+: pending := by
  simpa [opensAt] using h

theorem splitOpen_append (pending more : Text) : splitOpen specs (pending ++ more) =
    ((splitOpen specs pending).1 ++ (splitOpen specs ((splitOpen specs pending).2 ++ more)).1,
      (splitOpen specs ((splitOpen specs pending).2 ++ more)).2) :=
  splitWhere_append (fun _ _ ⟨spec, hspec, h⟩ => ⟨spec, hspec, h.of_append⟩) pending more

/-- An opener in front of the end of another one that has begun would stand inside it. -/
theorem Decisive.not_inside (h : Decisive specs) {s t : InlineTagSpec τ} (hs : s ∈ specs) (ht : t ∈ specs)
    (hrest : rest <+: t.opener) (hne : rest ≠ t.opener) : ¬s.opener <:+: rest := by
  intro hins
  refine h s hs t ht (hins.trans (IsPrefix.isInfix ?_))
  have hlen := hrest.length_le
  have hlt : rest.length ≠ t.opener.length := fun heq => hne (hrest.eq_of_length heq)
  exact prefix_of_prefix_length_le hrest ( dropLast_prefix _) (by simp; omega)

theorem Decisive.opener_eq (h : Decisive specs) {s t : InlineTagSpec τ} (hs : s ∈ specs) (ht : t ∈ specs)
    (hs' : s.opener <+: rest) (ht' : t.opener <+: rest) : s.opener = t.opener := by
  rcases prefix_or_prefix_of_prefix hs' ht' with hpre | hpre
  · by_contra hne
    exact h.not_inside hs ht hpre hne infix_rfl
  · by_contra hne
    exact h.not_inside ht hs hpre (Ne.symm hne) infix_rfl

theorem opensAt_append (h : Decisive specs) (hops : opensAt specs pending = some spec) (more : Text) :
    opensAt specs (pending ++ more) = some spec := by
  obtain ⟨hspec, hpre⟩ := opensAt_eq_some hops
  rw [← hops]
  refine find?_congr fun s hs => ?_
  have hiff : s.opener <+: pending ++ more ↔ s.opener <+: pending := by
    constructor
    · intro hlong
      rw [h.opener_eq hs hspec hlong (hpre.trans (prefix_append ..))]
      exact hpre
    · exact fun hshort => hshort.trans (prefix_append ..)
  simp [hiff]

/-- The least place is picked, and the first tag at it if all openers there are of one length. -/
theorem foldl_betterOpen {place : InlineTagSpec τ → Option Nat} {l : List (InlineTagSpec τ)}
    (hpl : ∀ s ∈ l, ∀ p, place s = some p → pos ≤ p)
    (hlen : ∀ s ∈ l, place s = some pos → s.opener.length = spec.opener.length) {best : Option (Nat × InlineTagSpec τ)}
    (hbest : best = some (pos, spec) ∨ (∀ x ∈ best, pos < x.1) ∧ l.find? (fun s => place s = some pos) = some spec) :
    (l.filterMap fun s => (place s).map fun p => (p, s)).foldl betterOpen best = some (pos, spec) := by
  induction l generalizing best with
  | nil => simpa using hbest
  | cons s l ih =>
      rw [forall_mem_cons] at hpl hlen
      cases hs : place s with
      | none =>
          simp only [filterMap_cons, hs, Option.map_none]
          exact ih hpl.2 hlen.2 (by simpa [hs] using hbest)
      | some p =>
          simp only [filterMap_cons, hs, Option.map_some, foldl_cons]
          refine ih hpl.2 hlen.2 ?_
          have hp := hpl.1 p hs
          rcases hbest with rfl | ⟨hworse, hfind⟩
          · left
            have hsame := hlen.1
            simp only [betterOpen]
            rw [if_neg]
            rintro (hlt | ⟨rfl, hlt⟩)
            · omega
            · have := hsame hs
              omega
          · by_cases hpos : p = pos
            · left
              subst hpos
              simp [hs] at hfind
              subst hfind
              cases best with
              | none => rfl
              | some x => simp [betterOpen, hworse x rfl]
            · right
              have hlt : pos < p := by omega
              refine ⟨?_, by simpa [hs, hpos] using hfind⟩
              cases best with
              | none => simp [betterOpen, hlt]
              | some x =>
                  have := hworse x rfl
                  simp only [betterOpen]
                  split <;> simp [*]

/-- The text in front of the first place at which some opener may start, and the rest. -/
theorem splitOpen_spec (specs : List (InlineTagSpec τ)) (pending : Text) : ∃ front rest,
    splitOpen specs pending = (front, rest) ∧ pending = front ++ rest ∧ (rest = [] ∨ AnyMayStart specs rest) ∧
      ∀ j < front.length, ¬AnyMayStart specs (pending.drop j) :=
  ⟨_, _, rfl, (splitWhere_fst_append_snd pending).symm, splitWhere_snd pending, fun _ => not_of_lt_splitWhere⟩

theorem findNextOpen_eq (h : Decisive specs) (pending : Text) : findNextOpen specs pending =
      (opensAt specs (splitOpen specs pending).2).map fun spec => ((splitOpen specs pending).1.length, spec) := by
  obtain ⟨front, rest, hpts, rfl, hst, hearlier⟩ := splitOpen_spec specs pending
  rw [hpts]
  have hpl : ∀ s ∈ specs, ∀ p, findMarker s.opener (front ++ rest) = some p → front.length ≤ p := by
    intro s hs p hp
    by_contra hlt
    exact hearlier p (by omega) ⟨s, hs, .inr (findMarker_eq_some hp).1⟩
  have hops : ∀ s ∈ specs, findMarker s.opener (front ++ rest) = some front.length ↔ s.opener <+: rest := by
    intro s hs
    constructor
    · intro hfnd
      simpa using (findMarker_eq_some hfnd).1
    · intro hpre
      cases hfnd : findMarker s.opener (front ++ rest) with
      | none => exact absurd (by simpa using hpre) (findMarker_eq_none hfnd front.length)
      | some p =>
          have hle := hpl s hs p hfnd
          rcases Nat.lt_or_ge front.length p with hlt | hge
          · exact absurd (by simpa using hpre) ((findMarker_eq_some hfnd).2 front.length hlt)
          · rw [Nat.le_antisymm hge hle]
  cases hfind : opensAt specs rest with
  | some spec =>
      obtain ⟨hspec, hpre⟩ := opensAt_eq_some hfind
      refine foldl_betterOpen hpl ?_ (.inr ⟨by simp, ?_⟩)
      · intro s hs hfnd
        rw [h.opener_eq hs hspec ((hops s hs).mp hfnd) hpre]
      · rw [← hfind]
        exact find?_congr fun s hs => by simp [hops s hs]
  | none =>
      have hnone : ∀ s ∈ specs, findMarker s.opener (front ++ rest) = none := by
        intro s hs
        cases hfnd : findMarker s.opener (front ++ rest) with
        | none => rfl
        | some p =>
            have hle := hpl s hs p hfnd
            have hpre := (findMarker_eq_some hfnd).1
            rw [drop_append, drop_eq_nil_of_le hle, nil_append] at hpre
            have hins : s.opener <:+: rest := hpre.isInfix.trans (drop_suffix ..).isInfix
            rcases hst with rfl | ⟨t, ht, hst | hst⟩
            · exact absurd (by simpa using hins) s.opener_ne
            · -- the opener would stand inside the one that has begun
              refine absurd hins (h.not_inside hs ht hst ?_)
              rintro rfl
              exact opensAt_eq_none hfind t ht prefix_rfl
            · exact absurd hst (opensAt_eq_none hfind t ht)
      have hemp : specs.filterMap (fun spec => (findMarker spec.opener (front ++ rest)).map fun pos => (pos, spec)) = [] := by
        simpa [filterMap_eq_nil_iff] using hnone
      simp [findNextOpen, hemp]

theorem foldl_max_eq {f : InlineTagSpec τ → Nat} {n : Nat} (hle : ∀ s ∈ specs, f s ≤ n)
    (hmem : n = 0 ∨ ∃ s ∈ specs, f s = n) : (specs.map f).foldl max 0 = n := by
  have hgr : ∀ (l : List Nat) b, b ≤ l.foldl max b ∧ ∀ x ∈ l, x ≤ l.foldl max b := by
    intro l
    induction l with
    | nil => simp
    | cons x l ih =>
        intro b
        obtain ⟨hb, hl⟩ := ih (max b x)
        simp only [foldl_cons, forall_mem_cons]
        exact ⟨by omega, by omega, hl⟩
  have hbound : ∀ (l : List Nat) b, b ≤ n → (∀ x ∈ l, x ≤ n) → l.foldl max b ≤ n := by
    intro l
    induction l with
    | nil => exact fun b hb _ => hb
    | cons x l ih =>
        intro b hb hl
        rw [forall_mem_cons] at hl
        exact ih _ (by omega) hl.2
  refine Nat.le_antisymm (hbound _ 0 (Nat.zero_le n) (by simpa using hle)) ?_
  rcases hmem with rfl | ⟨s, hs, rfl⟩
  · exact Nat.zero_le _
  · exact (hgr _ 0).2 _ (mem_map_of_mem hs)

theorem maxOpenPrefixSuffixLen_eq (hnone : opensAt specs (splitOpen specs pending).2 = none) :
    maxOpenPrefixSuffixLen specs pending = (splitOpen specs pending).2.length := by
  obtain ⟨front, rest, hpts, hpend, hst, hearlier⟩ := splitOpen_spec specs pending
  rw [hpts] at hnone ⊢
  have hlen := congrArg length hpend
  rw [length_append] at hlen
  dsimp only at hnone ⊢
  have hmost : ∀ s ∈ specs, longestSuffixPrefix pending s.opener ≤ rest.length := by
    intro s hs
    obtain ⟨hle, hends, -⟩ := suffixPrefixUpTo_spec pending s.opener (min pending.length (s.opener.length - 1))
    change longestSuffixPrefix pending s.opener ≤ _ at hle
    change s.opener.take (longestSuffixPrefix pending s.opener) <:+ pending at hends
    by_contra hlong
    refine hearlier (pending.length - longestSuffixPrefix pending s.opener) (by omega) ⟨s, hs, .inl ?_⟩
    have hdrop := suffix_iff_eq_drop.mp hends
    rw [length_take, min_eq_left (by omega)] at hdrop
    rw [← hdrop]
    exact take_prefix ..
  apply foldl_max_eq hmost
  rcases hst with hnil | ⟨t, ht, hbegun | hwhole⟩
  · exact .inl (by simp [hnil])
  · right
    obtain ⟨hle, hends, hgreatest⟩ := suffixPrefixUpTo_spec pending t.opener (min pending.length (t.opener.length - 1))
    change longestSuffixPrefix pending t.opener ≤ _ at hle
    change t.opener.take (longestSuffixPrefix pending t.opener) <:+ pending at hends
    have hne : rest.length ≠ t.opener.length := fun heq =>
      opensAt_eq_none hnone t ht (by rw [hbegun.eq_of_length heq])
    have hrest := hbegun.length_le
    have := hgreatest rest.length (by omega) (by rw [← prefix_iff_eq_take.mp hbegun, hpend]; exact suffix_append ..)
    change rest.length ≤ longestSuffixPrefix pending t.opener at this
    refine ⟨t, ht, Nat.le_antisymm ?_ this⟩
    exact hmost t ht
  · exact absurd hwhole (opensAt_eq_none hnone t ht)

theorem scan_none (h : Decisive specs) (pending : Text) :
    scan specs pending none =
      match opensAt specs (splitOpen specs pending).2 with
      | some spec =>
          Scan.after ⟨⟨(splitOpen specs pending).1, []⟩, [], none⟩
            (scan specs ((splitOpen specs pending).2.drop spec.opener.length)
              (some ⟨spec.tag, spec.closer, [], spec.closer_ne⟩))
      | none => ⟨⟨(splitOpen specs pending).1, []⟩, (splitOpen specs pending).2, none⟩ := by
  have hnext := findNextOpen_eq h pending
  have hkeep := @maxOpenPrefixSuffixLen_eq _ specs pending
  obtain ⟨front, rest, hpts, rfl, -, -⟩ := splitOpen_spec specs pending
  rw [hpts] at hnext hkeep ⊢
  dsimp only at hnext hkeep ⊢
  conv_lhs => rw [scan]
  dsimp only
  split
  · rename_i openIdx found hfnd
    rw [hfnd, eq_comm, Option.map_eq_some_iff] at hnext
    obtain ⟨spec, hspec, heq⟩ := hnext
    cases heq
    have hdrop : (front ++ rest).drop (front.length + found.opener.length) = rest.drop found.opener.length := by
      rw [← drop_drop, drop_left]
    simp [hspec, Scan.after, hdrop]
  · rename_i hnone
    rw [hnone, eq_comm, Option.map_eq_none_iff] at hnext
    simp [hnext, hkeep hnext]

/-- A text scanned in two parts emits the same as the whole, from every state, by induction on the length of the first.
-/
theorem scan_append (h : Decisive specs) (pending more : Text) (active : Option (ActiveTag τ)) :
    scan specs (pending ++ more) active = (scan specs pending active).after
        (scan specs ((scan specs pending active).pending ++ more) (scan specs pending active).active) := by
  induction hn : pending.length using Nat.strong_induction_on generalizing pending active with
  | _ n ih =>
      subst hn
      cases active with
      | some active =>
          rw [scan_some _ pending, scan_some _ (pending ++ more)]
          by_cases hfnd : active.closer <+: (splitMarker active.closer pending).2
          · -- The tag is closed in the first part, and the rest of it is shorter.
            have hshorter : ((splitMarker active.closer pending).2.drop active.closer.length).length < pending.length :=
              length_drop_split_lt active.closer_ne hfnd
            have hdrop : ((splitMarker active.closer pending).2 ++ more).drop active.closer.length =
                (splitMarker active.closer pending).2.drop active.closer.length ++ more :=
              drop_append_of_le_length hfnd.length_le
            rw [splitMarker_append_of_found more hfnd, if_pos hfnd, if_pos (hfnd.trans (prefix_append _ _)), hdrop,
              ih _ hshorter _ none rfl, Scan.after_assoc]
            rfl
          · rw [if_neg hfnd, splitMarker_append]
            dsimp only
            rw [scan_some _ ((splitMarker active.closer pending).2 ++ more)]
            dsimp only
            rw [append_assoc]
            split
            · simp [Scan.after, StreamTextChunk.default]
            · simp [Scan.after, StreamTextChunk.default]
      | none =>
          rw [scan_none h pending, scan_none h (pending ++ more), splitOpen_append]
          obtain ⟨front, rest, hpts, hpend, -, -⟩ := splitOpen_spec specs pending
          rw [hpts]
          dsimp only
          cases hops : opensAt specs rest with
          | some spec =>
              obtain ⟨hspec, hpre⟩ := opensAt_eq_some hops
              have hst : splitOpen specs (rest ++ more) = ([], rest ++ more) :=
                splitWhere_of_pos (.inr ⟨spec, hspec, .inr (hpre.trans (prefix_append ..))⟩)
              have hshorter : (rest.drop spec.opener.length).length < pending.length := by
                have hpos := length_pos_iff.mpr spec.opener_ne
                have hle := hpre.length_le
                simp [hpend]
                omega
              simp only [hst, opensAt_append h hops]
              rw [drop_append_of_le_length hpre.length_le, append_nil, ih _ hshorter _ (some _) rfl, Scan.after_assoc]
              rfl
          | none =>
              dsimp only
              rw [scan_none h (rest ++ more)]
              split
              · simp [Scan.after]
              · simp [Scan.after]

theorem scan_scanned (h : Decisive specs) (pending : Text) (active : Option (ActiveTag τ)) :
    scan specs (scan specs pending active).pending (scan specs pending active).active =
      ⟨.default, (scan specs pending active).pending, (scan specs pending active).active⟩ := by
  have happ := scan_append h pending [] active
  rw [append_nil, append_nil] at happ
  generalize scan specs pending active = first at happ ⊢
  generalize scan specs first.pending first.active = second at happ ⊢
  obtain ⟨⟨visible, extracted⟩, pending', active'⟩ := first
  obtain ⟨⟨visible', extracted'⟩, pending'', active''⟩ := second
  simp only [Scan.after, Scan.mk.injEq, StreamTextChunk.mk.injEq, self_eq_append_right] at happ
  obtain ⟨⟨rfl, rfl⟩, rfl, rfl⟩ := happ
  rfl

theorem scan_nil (specs : List (InlineTagSpec τ)) : scan specs [] none = ⟨.default, [], none⟩ := by
  have hnone : findNextOpen specs [] = none := by
    have hemp : specs.filterMap (fun spec => (findMarker spec.opener []).map fun pos => (pos, spec)) = [] := by
      simp [findMarker, InlineTagSpec.opener_ne]
    simp [findNextOpen, hemp]
  rw [scan]
  dsimp only
  split
  next hsome => simp [hnone] at hsome
  next => simp [StreamTextChunk.default]

end

/-! ## All chunks -/

section

variable {specs : List (InlineTagSpec τ)} {spec : InlineTagSpec τ} {pending : Text}

def new (specs : List (InlineTagSpec τ)) : InlineHiddenTagParser τ := ⟨specs, [], none⟩

/-- What is emitted for the chunks and at the end. -/
def collect (parser : InlineHiddenTagParser τ) : List Text → StreamTextChunk (ExtractedInlineTag τ)
  | [] => parser.finish.1
  | chunk :: chunks => (parser.pushStr chunk).1.append (collect (parser.pushStr chunk).2 chunks)

def Scan.ended (scanned : Scan τ) : StreamTextChunk (ExtractedInlineTag τ) :=
  scanned.out.append (finish ⟨[], scanned.pending, scanned.active⟩).1

theorem Scan.ended_after (first second : Scan τ) : (first.after second).ended = first.out.append second.ended := by
  simp [Scan.ended, Scan.after, StreamTextChunk.append]

theorem finish_eq (pending : Text) (active : Option (ActiveTag τ)) :
    (finish ⟨specs, pending, active⟩).1 = (finish ⟨[], pending, active⟩).1 := by cases active <;> rfl

theorem collect_eq_ended (h : Decisive specs) (chunks : List Text) {active : Option (ActiveTag τ)}
    (hsil : scan specs pending active = ⟨.default, pending, active⟩) :
    collect ⟨specs, pending, active⟩ chunks = (scan specs (pending ++ chunks.flatten) active).ended := by
  induction chunks generalizing pending active with
  | nil => simp [collect, hsil, Scan.ended, StreamTextChunk.append, StreamTextChunk.default, finish_eq]
  | cons chunk chunks ih =>
      rw [flatten_cons, ← append_assoc, scan_append h, Scan.ended_after, ← ih (scan_scanned h _ _)]
      rfl

/-! ## The earliest opener, and the longest there -/

theorem foldl_betterOpen_best (found : List (Nat × InlineTagSpec τ)) :
    (found.foldl betterOpen none = none → found = []) ∧ ∀ best, found.foldl betterOpen none = some best →
      ∀ x ∈ found, best.1 ≤ x.1 ∧ (x.1 = best.1 → x.2.opener.length ≤ best.2.opener.length) := by
  induction found using List.reverseRecOn with
  | nil => simp
  | append_singleton found y ih =>
      rw [foldl_append, foldl_cons, foldl_nil]
      cases hbest : found.foldl betterOpen none with
      | none => simp [ih.1 hbest, betterOpen]
      | some best =>
          have ih := ih.2 best hbest
          simp only [betterOpen]
          split
          · refine ⟨by simp, fun best' hbest' x hx => ?_⟩
            cases hbest'
            rcases mem_append.mp hx with hx | hx
            · have := ih x hx
              omega
            · rw [mem_singleton.mp hx]
              omega
          · refine ⟨by simp, fun best' hbest' x hx => ?_⟩
            cases hbest'
            rcases mem_append.mp hx with hx | hx
            · exact ih x hx
            · rw [mem_singleton.mp hx]
              dsimp only
              omega

theorem findNextOpen_best {s : InlineTagSpec τ} (hs : s ∈ specs) {p : Nat} (hp : findMarker s.opener pending = some p) :
    ∃ pos spec, findNextOpen specs pending = some (pos, spec) ∧ pos ≤ p ∧
      (p = pos → s.opener.length ≤ spec.opener.length) := by
  obtain ⟨hnone, hsome⟩ := foldl_betterOpen_best
    (specs.filterMap fun spec => (findMarker spec.opener pending).map fun pos => (pos, spec))
  have hmem : (p, s) ∈ specs.filterMap fun spec => (findMarker spec.opener pending).map fun pos => (pos, spec) :=
    mem_filterMap.mpr ⟨s, hs, by simp [hp]⟩
  cases hfind : findNextOpen specs pending with
  | none => simp [hnone hfind] at hmem
  | some best => exact ⟨best.1, best.2, rfl, hsome best hfind _ hmem⟩

/-! ## An opener inside another one -/

/-- The text in front of the closer, or all of it. -/
def firstPart (closer text : Text) : Text :=
  if closer <+: (splitMarker closer text).2 then (splitMarker closer text).1 else text

theorem scan_opened (h : findNextOpen specs pending = some (pos, spec)) :
    scan specs pending none = Scan.after ⟨⟨pending.take pos, []⟩, [], none⟩
      (scan specs (pending.drop (pos + spec.opener.length)) (some ⟨spec.tag, spec.closer, [], spec.closer_ne⟩)) := by
  conv_lhs => rw [scan]
  dsimp only
  split
  next pos' spec' hfnd =>
    rw [h] at hfnd
    cases hfnd
    simp [Scan.after]
  next hnone => simp [h] at hnone

theorem extracted_active (active : ActiveTag τ) (text more : Text) : ∃ rest, ((scan specs text (some active)).out.append
      (scan specs ((scan specs text (some active)).pending ++ more) (scan specs text (some active)).active).ended).extracted =
        ⟨active.tag, active.content ++ firstPart active.closer (text ++ more)⟩ :: rest := by
  rw [scan_some specs text active]
  by_cases hfnd : active.closer <+: (splitMarker active.closer text).2
  · rw [if_pos hfnd, firstPart, splitMarker_append_of_found more hfnd, if_pos (hfnd.trans (prefix_append ..))]
    exact ⟨_, rfl⟩
  · rw [if_neg hfnd, firstPart, splitMarker_append]
    dsimp only
    rw [scan_some]
    dsimp only
    split
    · exact ⟨_, by simp [Scan.ended, Scan.after, StreamTextChunk.append, StreamTextChunk.default]; rfl⟩
    · refine ⟨[], ?_⟩
      simp [Scan.ended, StreamTextChunk.append, StreamTextChunk.default, finish]
      rw [splitMarker_fst_append_snd, ← append_assoc, splitMarker_fst_append_snd]

/-- The first tag that two chunks extract, if the first one has an opener. -/
theorem extracted_opened (h : findNextOpen specs pending = some (pos, spec)) (more : Text) : ∃ rest,
    (collect (new specs) [pending, more]).extracted =
      ⟨spec.tag, firstPart spec.closer (pending.drop (pos + spec.opener.length) ++ more)⟩ :: rest := by
  obtain ⟨rest, hrest⟩ := @extracted_active _ specs ⟨spec.tag, spec.closer, [], spec.closer_ne⟩
    (pending.drop (pos + spec.opener.length)) more
  refine ⟨rest, ?_⟩
  rw [nil_append] at hrest
  rw [← hrest]
  simp only [collect, new, pushStr, nil_append, scan_opened h, Scan.after, Scan.ended, StreamTextChunk.append, finish_eq,
    append_assoc]

theorem firstPart_nil (closer : Text) : firstPart closer [] = [] := by simp [firstPart, splitMarker_of_mayStart]

theorem firstPart_append {text : Text} (h : firstPart closer text = []) (hne : text ≠ []) (more : Text) :
    firstPart closer (text ++ more) = [] := by
  have hspl := splitMarker_fst_append_snd closer text
  unfold firstPart at h
  split at h
  next hfnd =>
    rw [h, nil_append] at hspl
    rw [hspl] at hfnd
    have hst := hfnd.trans (prefix_append text more)
    rw [firstPart, splitMarker_of_mayStart (.inr (.inr hst)), if_pos hst]
  next => exact absurd h hne

theorem firstPart_singleton (hcloser : closer ≠ []) {c : Char} (hne : closer ≠ [c]) :
    firstPart closer [c] = [c] := by
  have hspl := splitMarker_fst_append_snd closer [c]
  unfold firstPart
  rw [if_neg]
  intro hfnd
  have hins : closer <:+: [c] := hfnd.isInfix.trans ⟨_, [], by simpa using hspl⟩
  have hlen := hins.length_le
  have hpos := length_pos_iff.mpr hcloser
  exact hne (hins.eq_of_length (by simp at hlen ⊢; omega))

theorem decisive_of_collect (h : ∀ chunks, collect (new specs) chunks = collect (new specs) [chunks.flatten]) :
    Decisive specs := by
  intro s hs t ht ⟨front, back, hins⟩
  have hlast := dropLast_append_getLast t.opener_ne
  generalize t.opener.getLast t.opener_ne = last at hlast
  -- after `front ++ s.opener` a tag opens that the whole opener of `t` would not open
  obtain ⟨p, hp⟩ : ∃ p, findMarker s.opener (front ++ s.opener) = some p := by
    cases hfind : findMarker s.opener (front ++ s.opener) with
    | none => exact absurd (by simp) (findMarker_eq_none hfind front.length)
    | some p => exact ⟨p, rfl⟩
  obtain ⟨pos, opened, hopened, -⟩ := findNextOpen_best hs hp
  have hwhole : findMarker t.opener t.opener = some 0 := by
    cases hopener : t.opener with
    | nil => exact absurd hopener t.opener_ne
    | cons c rest => simp [findMarker]
  obtain ⟨at₀, whole, hfind, hle, hlong⟩ := findNextOpen_best ht hwhole
  obtain rfl : at₀ = 0 := by omega
  have hrest : t.opener.drop (0 + whole.opener.length) = [] := by
    have := hlong rfl
    simp
    omega
  obtain ⟨c, hc⟩ : ∃ c, whole.closer ≠ [c] := by
    by_cases ha : whole.closer = ['a']
    · exact ⟨'b', by simp [ha]⟩
    · exact ⟨'a', ha⟩
  have hcont : ∀ more, firstPart opened.closer
      ((front ++ s.opener).drop (pos + opened.opener.length) ++ (back ++ [last] ++ more)) =
        firstPart whole.closer more := by
    intro more
    obtain ⟨rest₁, hcut⟩ := extracted_opened hopened (back ++ [last] ++ more)
    obtain ⟨rest₂, huncut⟩ := extracted_opened hfind more
    rw [h] at hcut huncut
    have hopener : t.opener = front ++ s.opener ++ back ++ [last] := by rw [hins, hlast]
    have hflatten : [front ++ s.opener, back ++ [last] ++ more].flatten = [t.opener, more].flatten := by simp [hopener]
    rw [hflatten, huncut, hrest] at hcut
    simp only [cons.injEq, ExtractedInlineTag.mk.injEq] at hcut
    exact hcut.1.2.symm
  have hemp := hcont []
  rw [firstPart_nil, append_nil] at hemp
  have hone := hcont [c]
  rw [firstPart_singleton whole.closer_ne hc, ← append_assoc, firstPart_append hemp (by simp)] at hone
  cases hone

/-- What is emitted is independent of the chunks exactly if no opener stands inside another one in front of its end. The
earliest opener wins, and the longest of those that start there. -/
theorem collect_eq_iff (specs : List (InlineTagSpec τ)) :
    ((∀ chunks, collect (new specs) chunks = collect (new specs) [chunks.flatten]) ↔ Decisive specs) ∧
      ∀ (text : Text) (s : InlineTagSpec τ) (p : Nat), s ∈ specs → findMarker s.opener text = some p →
        ∃ pos spec, findNextOpen specs text = some (pos, spec) ∧ pos ≤ p ∧
          (p = pos → s.opener.length ≤ spec.opener.length) := by
  refine ⟨⟨decisive_of_collect, fun h chunks => ?_⟩, fun text s p hs hp => findNextOpen_best hs hp⟩
  have hflat : [chunks.flatten].flatten = chunks.flatten := append_nil _
  rw [new, collect_eq_ended h chunks (scan_nil specs), collect_eq_ended h _ (scan_nil specs), hflat]

/-- Two openers of which one begins with the other. -/
def sampleSpecs : List (InlineTagSpec Bool) :=
  [⟨false, "<a", "x", by decide, by decide⟩, ⟨true, "<ab", "x", by decide, by decide⟩]

theorem openers_depend_on_chunks : collect (new sampleSpecs) ["<a", "b"] ≠ collect (new sampleSpecs) ["<ab"] := by
  intro h
  have htags := congrArg (fun out => out.extracted.map ExtractedInlineTag.tag) h
  revert htags
  decide +kernel

end

end InlineHiddenTagParser

end CodexStudy.StreamParser
