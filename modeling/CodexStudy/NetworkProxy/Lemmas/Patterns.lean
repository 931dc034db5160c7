import CodexStudy.NetworkProxy.State
import CodexStudy.Lib.Lists

/-!
# The two readings of a pattern
-/

namespace CodexStudy.NetworkProxy

open CodexStudy.Lib List Text DomainPattern Or Wild
open CodexStudy.Lib.Text (trim toAsciiLowercase splitOnce? trimEndMatches)

variable {acc acc' : List Text × GlobSet} {candidates managed : List Text} {entry : Text}

section

/-! ## What a set of globs matches -/

section

variable {builder : GlobBuilder} {patterns : List Text} {pattern host : Text} {set : GlobSet}
  {globalWildcard : GlobalWildcard}

/-- One of the globs that the reading of a pattern expands to matches the host. -/
def DomainPattern.Reaches (builder : GlobBuilder) (reading : DomainPattern) (host : Text) : Prop :=
  ∃ candidate ∈ reading.globs, ∃ glob, builder candidate = some glob ∧ glob host = true

/-- The reading that the globs of a pattern are made from. -/
def enforced (pattern : Text) : DomainPattern := parse (normalizePattern pattern)

/-- The pattern matches the host. -/
def PatternMatches (builder : GlobBuilder) (pattern host : Text) : Prop := (enforced pattern).Reaches builder host

structure Compiled (builder : GlobBuilder) (acc : List Text × GlobSet) (candidates : List Text) : Prop where
  seen : ∀ candidate, candidate ∈ acc.1 ↔ candidate ∈ candidates
  isMatch : ∀ host, acc.2.isMatch host = true ↔
    ∃ candidate ∈ candidates, ∃ glob, builder candidate = some glob ∧ glob host = true

theorem Compiled.addCandidate {candidate : Text}
    (h : Compiled builder acc candidates) (hadd : addCandidate builder acc candidate = .ok acc') :
    Compiled builder acc' (candidates ++ [candidate]) := by
  unfold NetworkProxy.addCandidate at hadd
  split at hadd
  · rename_i hseen
    cases hadd
    have hmem : ∀ c, c ∈ candidates ++ [candidate] ↔ c ∈ candidates := by
      intro c
      rw [mem_append, mem_singleton]
      exact ⟨fun hc => hc.elim id fun heq => heq ▸ (h.seen candidate).mp hseen, inl⟩
    exact ⟨fun c => (h.seen c).trans (hmem c).symm, fun host => by simp only [h.isMatch host, hmem]⟩
  · split at hadd
    · rename_i glob hglob
      cases hadd
      refine ⟨fun c => ?_, fun host => ?_⟩
      · rw [mem_cons, h.seen c, mem_append, mem_singleton, or_comm]
      · have hhead := h.isMatch host
        unfold GlobSet.isMatch at hhead ⊢
        rw [any_append, Bool.or_eq_true, hhead]
        simp only [mem_append, mem_singleton, or_and_right, exists_or, exists_eq_left, hglob]
        simp
    · cases hadd

theorem Compiled.addPattern
    (h : Compiled builder acc candidates) (hadd : addPattern builder globalWildcard acc pattern = .ok acc') :
    Compiled builder acc' (candidates ++ (enforced pattern).globs) := by
  unfold NetworkProxy.addPattern at hadd
  split at hadd
  · cases hadd
  · exact foldlM_invariant (I := Compiled builder) (fun _ _ _ _ h hadd => h.addCandidate hadd) h hadd

theorem compileGlobset_isMatch (h : compileGlobsetWithPolicy builder patterns globalWildcard = .ok set) :
    set.isMatch host = true ↔ ∃ pattern ∈ patterns, PatternMatches builder pattern host := by
  unfold compileGlobsetWithPolicy at h
  cases hfold : patterns.foldlM (addPattern builder globalWildcard) ([], []) with
  | error e =>
      rw [hfold] at h
      cases h
  | ok acc =>
      rw [hfold] at h
      cases h
      have hst : Compiled builder ([], []) (([] : List Text).flatMap fun pattern => (enforced pattern).globs) :=
        ⟨fun c => Iff.rfl, fun host => by simp [GlobSet.isMatch]⟩
      have hcom := foldlM_invariant
        (I := fun acc done => Compiled builder acc (done.flatMap fun pattern => (enforced pattern).globs))
        (fun acc done pattern acc' h hadd => by
          rw [flatMap_append, flatMap_singleton]
          exact h.addPattern hadd)
        hst hfold
      rw [hcom.isMatch host]
      simp only [nil_append, mem_flatMap, PatternMatches, DomainPattern.Reaches]
      constructor
      · rintro ⟨candidate, ⟨pattern, hpat, hcand⟩, hglob⟩
        exact ⟨pattern, hpat, candidate, hcand, hglob⟩
      · rintro ⟨pattern, hpat, candidate, hcand, hglob⟩
        exact ⟨candidate, ⟨pattern, hpat, hcand⟩, hglob⟩

/-! ## Upper and lower case -/

theorem splitWildcardPrefix_toAsciiLowercase (pattern : Text) : splitWildcardPrefix (toAsciiLowercase pattern) =
    ((splitWildcardPrefix pattern).1, toAsciiLowercase (splitWildcardPrefix pattern).2) := by
  unfold splitWildcardPrefix
  rw [stripPrefix?_toAsciiLowercase (by decide), stripPrefix?_toAsciiLowercase (by decide)]
  cases stripPrefix? "**." pattern with
  | some domain => rfl
  | none => cases stripPrefix? "*." pattern <;> rfl

theorem normalizeDns_toAsciiLowercase (host : Text) :
    normalizeDnsHostOrIpLiteral (toAsciiLowercase host) = normalizeDnsHostOrIpLiteral host := by
  unfold normalizeDnsHostOrIpLiteral
  rw [toAsciiLowercase_toAsciiLowercase]

theorem toLower_bne {d : Char} (hd : d.toNat < 65 ∨ 90 < d.toNat ∧ d.toNat < 97 ∨ 122 < d.toNat) (c : Char) :
    (c.toLower != d) = (c != d) := by
  rw [Bool.eq_iff_iff, bne_iff_ne, bne_iff_ne, ne_eq, ne_eq, toLower_eq_iff hd]

theorem normalizeHost_toAsciiLowercase (host : Text) : normalizeHost (toAsciiLowercase host) = normalizeHost host := by
  unfold normalizeHost
  rw [trim_toAsciiLowercase]
  generalize trim host = host
  have hhead : (toAsciiLowercase host).head? = some '[' ↔ host.head? = some '[' := by
    cases host with
    | nil => rfl
    | cons c host =>
        rw [toAsciiLowercase_cons, head?_cons, head?_cons, Option.some.injEq, Option.some.injEq]
        exact toLower_eq_iff (by decide)
  have hmem : ']' ∈ toAsciiLowercase host ↔ ']' ∈ host := mem_toAsciiLowercase (by decide)
  have hcnt : (toAsciiLowercase host).count ':' = host.count ':' := by
    unfold toAsciiLowercase
    rw [count, countP_map]
    refine countP_congr fun c _ => ?_
    rw [Function.comp_apply, beq_iff_eq, beq_iff_eq]
    exact toLower_eq_iff (by decide)
  have htail : (toAsciiLowercase host).tail = toAsciiLowercase host.tail := map_tail.symm
  dsimp only
  rw [htail, takeWhile_toAsciiLowercase (toLower_bne (by decide)),
    takeWhile_toAsciiLowercase (toLower_bne (by decide)), normalizeDns_toAsciiLowercase,
    normalizeDns_toAsciiLowercase, normalizeDns_toAsciiLowercase]
  simp only [hhead, hmem, hcnt]

theorem normalizePattern_toAsciiLowercase (pattern : Text) :
    normalizePattern (toAsciiLowercase pattern) = normalizePattern pattern := by
  unfold normalizePattern
  rw [trim_toAsciiLowercase]
  generalize trim pattern = pattern
  have hstar : toAsciiLowercase pattern = ['*'] ↔ pattern = ['*'] := by
    cases pattern with
    | nil => simp
    | cons c pattern => simp [toLower_eq_iff (show '*'.toNat < 65 ∨ _ by decide)]
  dsimp only
  simp only [hstar, splitWildcardPrefix_toAsciiLowercase, normalizeHost_toAsciiLowercase]

theorem patternMatches_congr {other : Text} (h : toAsciiLowercase pattern = toAsciiLowercase other) :
    PatternMatches builder pattern host ↔ PatternMatches builder other host := by
  have : normalizePattern pattern = normalizePattern other := by
    rw [← normalizePattern_toAsciiLowercase pattern, h, normalizePattern_toAsciiLowercase]
  rw [PatternMatches, enforced, this]
  rfl

end

/-! ## Plain globs -/

/-- The characters that a glob consists of, without classes, alternatives, escapes and separators. -/
def PlainGlob (glob : Text) : Prop := ∀ c ∈ glob, c.toNat < 128 ∧ c ∉ "[]\x7b\x7d\\/".toList

def wildcardOf (c : Char) : Wild Char := if c = '?' then .one else if c = '*' then .many else .lit c

def wildcards (glob : Text) : List (Wild Char) := (toAsciiLowercase glob).map wildcardOf

/-- In a plain glob `?` stands for any character, `*` for any characters, and any other character for itself. -/
def BuildsWildcards (builder : GlobBuilder) : Prop :=
  ∀ glob, PlainGlob glob → builder glob = some fun host => Wild.matches (wildcards glob) (toAsciiLowercase host)

theorem wildcards_append (glob glob' : Text) : wildcards (glob ++ glob') = wildcards glob ++ wildcards glob' := by
  simp [wildcards]

theorem wildcards_dot_cons (glob : Text) : wildcards ('.' :: glob) = .lit '.' :: wildcards glob := rfl

variable {domain host before child parent : Text}

theorem matches_subdomains : Wild.matches (wildcards ("?*." ++ domain)) host = true ↔
      ∃ label rest, host = label ++ '.' :: rest ∧ label ≠ [] ∧ Wild.matches (wildcards domain) rest = true := by
  have hspl : wildcards ("?*." ++ domain) = [one, many] ++ (lit '.' :: wildcards domain) := rfl
  rw [hspl, matches_append]
  constructor
  · rintro ⟨label, t, rfl, hlabel, ht⟩
    obtain ⟨rest, rfl, hrest⟩ := matches_lit.mp ht
    exact ⟨label, rest, rfl, matches_one_many.mp hlabel, hrest⟩
  · rintro ⟨label, rest, rfl, hlabel, hrest⟩
    exact ⟨label, _, rfl, matches_one_many.mpr hlabel, matches_lit.mpr ⟨rest, rfl, hrest⟩⟩

theorem matches_below : Wild.matches (wildcards (before ++ '.' :: domain)) host = true ↔
      ∃ label rest, host = label ++ '.' :: rest ∧ Wild.matches (wildcards before) label = true ∧
        Wild.matches (wildcards domain) rest = true := by
  rw [wildcards_append, wildcards_dot_cons, matches_append]
  constructor
  · rintro ⟨label, t, rfl, hlabel, ht⟩
    obtain ⟨rest, rfl, hrest⟩ := matches_lit.mp ht
    exact ⟨label, rest, rfl, hlabel, hrest⟩
  · rintro ⟨label, rest, rfl, hlabel, hrest⟩
    exact ⟨label, _, rfl, hlabel, matches_lit.mpr ⟨rest, rfl, hrest⟩⟩

theorem subdomains_of_below (h : Wild.matches (wildcards ("?*." ++ (before ++ '.' :: domain))) host = true) :
    Wild.matches (wildcards ("?*." ++ domain)) host = true := by
  obtain ⟨label, rest, rfl, hlabel, hrest⟩ := matches_subdomains.mp h
  obtain ⟨label', rest', rfl, _, hrest'⟩ := matches_below.mp hrest
  exact matches_subdomains.mpr ⟨label ++ '.' :: label', rest', by simp, by simp [hlabel], hrest'⟩

theorem subdomains_of_exact {c : Char} (hc : c ∈ before) (hstar : c ≠ '*')
    (h : Wild.matches (wildcards (before ++ '.' :: domain)) host = true) :
    Wild.matches (wildcards ("?*." ++ domain)) host = true := by
  obtain ⟨label, rest, rfl, hlabel, hrest⟩ := matches_below.mp h
  have hmem : wildcardOf c.toLower ∈ wildcards before :=
    mem_map_of_mem (mem_map_of_mem hc)
  have hmany : wildcardOf c.toLower ≠ .many := by
    have hne : c.toLower ≠ '*' := fun heq => hstar ((toLower_eq_iff (by decide)).mp heq)
    unfold wildcardOf
    split
    · simp
    · simp
  exact matches_subdomains.mpr ⟨label, rest, rfl, ne_nil_of_matches hlabel hmem hmany, hrest⟩

/-! ## The parts of a pattern -/

def patternPrefix (pattern : Text) : WildcardPrefix := (splitWildcardPrefix (trim pattern)).1

def patternDomain (pattern : Text) : Text := trimEndMatches '.' (trim (splitWildcardPrefix (trim pattern)).2)

/-- A character of a plain domain: no white space, colon, percent sign, bracket or other syntax of globs. -/
def isDomainChar (c : Char) : Bool :=
  c.toNat < 128 && !Text.isWhitespace c && !("[]\x7b\x7d\\/:%".toList.contains c)

/-- An optional wildcard prefix with a plain domain, which is a valid host unless it has wildcards of its own; the first
label of a domain without the prefix `*.` is not only stars. -/
structure ReadAlike (urlHost : Text → Option Text) (pattern : Text) : Prop where
  nonempty : patternDomain pattern ≠ []
  plain : ∀ c ∈ patternDomain pattern, isDomainChar c = true
  valid : '*' ∈ patternDomain pattern ∨ '?' ∈ patternDomain pattern ∨ (urlHost (patternDomain pattern)).isSome
  label : patternPrefix pattern ≠ .subdomains → ∃ c ∈ (patternDomain pattern).takeWhile (· != '.'), c ≠ '*'

section

variable {c : Char} {s : Text}

theorem not_mem_of_isDomainChar (h : ∀ c ∈ s, isDomainChar c = true) (hc : isDomainChar c = false) : c ∉ s :=
  fun hmem => by simp [h c hmem] at hc

theorem mem_trimEndMatches (h : c ∈ s) : c ∈ trimEndMatches '.' s ∨ c = '.' := by
  rw [← rdropWhile_append_rtakeWhile (p := (· == '.')) (l := s), mem_append] at h
  exact h.imp id fun h => by simpa using mem_rtakeWhile_imp h

theorem isWhitespace_of_isDomainChar (h : isDomainChar c = true) : isWhitespace c = false := by
  simp only [isDomainChar, Bool.and_eq_true, Bool.not_eq_true'] at h
  exact h.1.2

theorem plainGlob_of_isDomainChar (h : ∀ c ∈ s, isDomainChar c = true) : PlainGlob s := by
  intro c hc
  have := h c hc
  simp only [isDomainChar, Bool.and_eq_true, decide_eq_true_eq, Bool.not_eq_true', contains_eq_mem,
    decide_eq_false_iff_not] at this
  refine ⟨this.1.1, fun hmem => this.2 ?_⟩
  exact mem_append_left ":%" hmem

end

/-! ## Reading a plain domain -/

variable {urlHost : Text → Option Text} {pattern : Text}

theorem normalizeHost_of_plain (h : ∀ c ∈ trimEndMatches '.' (trim host), isDomainChar c = true) :
    normalizeHost host = toAsciiLowercase (trimEndMatches '.' (trim host)) := by
  have hmem : ∀ c, isDomainChar c = false → c ≠ '.' → c ∉ trim host := by
    intro c hc hdot hin
    exact (mem_trimEndMatches hin).elim (not_mem_of_isDomainChar h hc) hdot
  have hbracket : ¬ ((trim host).head? = some '[' ∧ ']' ∈ trim host) :=
    fun hb => hmem ']' (by decide) (by decide) hb.2
  have hcolon : (trim host).count ':' ≠ 1 := by
    rw [count_eq_zero_of_not_mem (hmem ':' (by decide) (by decide))]
    decide
  have hpercent : '%' ∉ toAsciiLowercase (trimEndMatches '.' (trim host)) := by
    rw [mem_toAsciiLowercase (by decide)]
    exact not_mem_of_isDomainChar h (by decide)
  unfold normalizeHost
  rw [if_neg hbracket, if_neg hcolon, normalizeDnsHostOrIpLiteral,
    trimEndMatches_toAsciiLowercase (by decide)]
  unfold normalizeIpLiteral scopedIpLiteral
  split
  · rfl
  · have hscope : splitOnce? "%25" (toAsciiLowercase (trimEndMatches '.' (trim host))) = none :=
      splitOnce?_eq_none hpercent "25"
    rw [hscope, splitOnce?_eq_none hpercent []]
    rfl

theorem splitWildcardPrefix_eq_none {s : Text} (h : (splitWildcardPrefix s).1 = .none) :
    ¬ "**." <+: s ∧ ¬ "*." <+: s ∧ (splitWildcardPrefix s).2 = s := by
  unfold splitWildcardPrefix at h ⊢
  cases h1 : stripPrefix? "**." s with
  | some domain =>
      rw [h1] at h
      cases h
  | none =>
      cases h2 : stripPrefix? "*." s with
      | some domain =>
          rw [h1, h2] at h
          cases h
      | none => exact ⟨stripPrefix?_eq_none.mp h1, stripPrefix?_eq_none.mp h2, rfl⟩

theorem splitWildcardPrefix_of_not {s : Text} (h1 : ¬ "**." <+: s) (h2 : ¬ "*." <+: s) :
    splitWildcardPrefix s = (.none, s) := by
  unfold splitWildcardPrefix
  rw [stripPrefix?_eq_none.mpr h1, stripPrefix?_eq_none.mpr h2]

theorem splitWildcardPrefix_text (wildcard : WildcardPrefix) (hne : wildcard ≠ .none) (domain : Text) :
    splitWildcardPrefix (wildcard.text ++ domain) = (wildcard, domain) := by
  unfold splitWildcardPrefix
  cases wildcard with
  | none => exact absurd rfl hne
  | subdomains =>
      have h : stripPrefix? "**." ("*." ++ domain) = none := by
        rw [stripPrefix?_eq_none]
        simp
      rw [WildcardPrefix.text, h, stripPrefix?_append]
  | apexAndSubdomains => rw [WildcardPrefix.text, stripPrefix?_append]

namespace ReadAlike

variable (h : ReadAlike urlHost pattern)
include h

theorem plain_lowercase : ∀ c ∈ toAsciiLowercase (patternDomain pattern), isWhitespace c = false := by
  intro c hc
  obtain ⟨d, hd, rfl⟩ := mem_map.mp hc
  rw [isWhitespace_toLower]
  exact isWhitespace_of_isDomainChar (h.plain d hd)

theorem normalizePattern_eq : normalizePattern pattern =
    (patternPrefix pattern).text ++ toAsciiLowercase (patternDomain pattern) := by
  have hstar : trim pattern ≠ ['*'] := by
    intro hstar
    have hspl : splitWildcardPrefix ['*'] = (.none, ['*']) := by decide
    have hwildcard : patternPrefix pattern = .none := by rw [patternPrefix, hstar, hspl]
    have hdomain : patternDomain pattern = ['*'] := by
      rw [patternDomain, hstar, hspl]
      decide
    obtain ⟨c, hc, hne⟩ := h.label (by rw [hwildcard]; simp)
    rw [hdomain] at hc
    have hall : ∀ c ∈ ['*'].takeWhile (· != '.'), c = '*' := by decide
    exact hne (hall c hc)
  unfold normalizePattern
  rw [if_neg hstar, normalizeHost_of_plain h.plain]
  rfl

theorem enforced_eq : enforced pattern =
    (patternPrefix pattern).pattern (toAsciiLowercase (patternDomain pattern)) := by
  have hne : toAsciiLowercase (patternDomain pattern) ≠ [] := by
    rw [ne_eq, toAsciiLowercase_eq_nil]
    exact h.nonempty
  have htextBlank : ∀ c ∈ (patternPrefix pattern).text, isWhitespace c = false := by
    cases patternPrefix pattern <;> decide
  have htrim : trim ((patternPrefix pattern).text ++ toAsciiLowercase (patternDomain pattern)) =
      (patternPrefix pattern).text ++ toAsciiLowercase (patternDomain pattern) := by
    refine trim_eq_self fun c hc => ?_
    rcases mem_append.mp hc with hc | hc
    · exact htextBlank c hc
    · exact h.plain_lowercase c hc
  have htrimDomain := trim_eq_self h.plain_lowercase
  rw [enforced, h.normalizePattern_eq, parse]
  rw [htrim, if_neg (by simp [hne])]
  cases hwild : patternPrefix pattern with
  | none =>
      -- The domain is what the trimmed pattern starts with, so it has no wildcard prefix either.
      obtain ⟨h1, h2, heq⟩ := splitWildcardPrefix_eq_none hwild
      have hdomain : patternDomain pattern <+: trim pattern := by
        rw [patternDomain, heq, trim_trim]
        exact rdropWhile_prefix _ _
      have hno : ∀ p : Text, (∀ c ∈ p, c.toNat < 65 ∨ 90 < c.toNat ∧ c.toNat < 97 ∨ 122 < c.toNat) →
          ¬ p <+: trim pattern → ¬ p <+: toAsciiLowercase (patternDomain pattern) := by
        intro p hp hnot hpre
        rw [← stripPrefix?_eq_none, stripPrefix?_eq_none] at hnot
        have hnone := stripPrefix?_toAsciiLowercase hp (patternDomain pattern)
        rw [stripPrefix?_eq_none.mpr fun hpd => hnot (hpd.trans hdomain), Option.map_none] at hnone
        exact stripPrefix?_eq_none.mp hnone hpre
      rw [WildcardPrefix.text, nil_append,
        splitWildcardPrefix_of_not (hno _ (by decide) h1) (hno _ (by decide) h2)]
      rfl
  | subdomains =>
      rw [splitWildcardPrefix_text _ (by simp)]
      simp only [parseDomain, htrimDomain, if_neg hne]
  | apexAndSubdomains =>
      rw [splitWildcardPrefix_text _ (by simp)]
      simp only [parseDomain, htrimDomain, if_neg hne]

theorem parseForConstraints_eq (hurl : ∀ host, urlHost host = none ∨ urlHost host = some (toAsciiLowercase host)) :
    ∃ domain, parseForConstraints urlHost pattern = (patternPrefix pattern).pattern domain ∧
      normalizeDomain domain = toAsciiLowercase (patternDomain pattern) := by
  have htrim : trim pattern ≠ [] := by
    intro hnil
    apply h.nonempty
    rw [patternDomain, hnil]
    decide
  have hbrackets : stripBrackets (patternDomain pattern) = patternDomain pattern := by
    rw [stripBrackets, if_neg]
    rintro ⟨hhead, _⟩
    exact not_mem_of_isDomainChar h.plain (c := '[') (by decide) (mem_of_mem_head? hhead)
  have hpercent : '%' ∉ patternDomain pattern := not_mem_of_isDomainChar h.plain (by decide)
  have hdots : trimEndMatches '.' (patternDomain pattern) = patternDomain pattern :=
    rdropWhile_idempotent _ _
  refine ⟨parseDomainForConstraints urlHost (splitWildcardPrefix (trim pattern)).2, ?_, ?_⟩
  · rw [parseForConstraints]
    rw [if_neg htrim]
    rfl
  · unfold parseDomainForConstraints
    change normalizeDomain (if patternDomain pattern = [] then [] else
      if '*' ∈ stripBrackets (patternDomain pattern) ∨ '?' ∈ stripBrackets (patternDomain pattern) ∨
        '%' ∈ stripBrackets (patternDomain pattern) then patternDomain pattern
      else (urlHost (stripBrackets (patternDomain pattern))).getD []) = _
    rw [if_neg h.nonempty, hbrackets]
    split
    · rw [normalizeDomain, hdots]
    · rename_i hpl
      have hsome : urlHost (patternDomain pattern) = some (toAsciiLowercase (patternDomain pattern)) := by
        rcases hurl (patternDomain pattern) with hnone | hsome
        · rcases h.valid with hstar | hone | hvalid
          · exact absurd (inl hstar) hpl
          · exact absurd (inr (inl hone)) hpl
          · rw [hnone] at hvalid
            cases hvalid
        · exact hsome
      rw [hsome, Option.getD_some, normalizeDomain, trimEndMatches_toAsciiLowercase (by decide), hdots,
        toAsciiLowercase_toAsciiLowercase]

theorem label_lowercase (hwildcard : patternPrefix pattern ≠ .subdomains) :
    ∃ c ∈ (toAsciiLowercase (patternDomain pattern)).takeWhile (· != '.'), c ≠ '*' := by
  obtain ⟨c, hc, hstar⟩ := h.label hwildcard
  refine ⟨c.toLower, ?_, fun heq => hstar ((toLower_eq_iff (by decide)).mp heq)⟩
  rw [takeWhile_toAsciiLowercase (toLower_bne (by decide))]
  exact mem_map_of_mem hc

theorem plainGlob : PlainGlob (toAsciiLowercase (patternDomain pattern)) := by
  intro c hc
  obtain ⟨d, hd, rfl⟩ := mem_map.mp hc
  obtain ⟨hascii, hsyntax⟩ := plainGlob_of_isDomainChar h.plain d hd
  rcases toLower_cases d with heq | ⟨_, _, hlow, hhigh⟩
  · rw [heq]
    exact ⟨hascii, hsyntax⟩
  · refine ⟨by omega, fun hmem => ?_⟩
    have hrange : ∀ c ∈ "[]\x7b\x7d\\/".toList, c.toNat < 97 ∨ 122 < c.toNat := by decide
    have := hrange _ hmem
    omega

end ReadAlike

/-! ## What is allowed is matched -/

theorem reaches_apexAndSubdomains {builder : GlobBuilder} : (apexAndSubdomains domain).Reaches builder host ↔
      (exact domain).Reaches builder host ∨ (subdomainsOnly domain).Reaches builder host := by
  simp only [DomainPattern.Reaches, globs, mem_cons, not_mem_nil, or_false, or_and_right,
    exists_or, exists_eq_left]

section Reaches

variable {builder : GlobBuilder} (hbuilder : BuildsWildcards builder) {domain host : Text}
include hbuilder

theorem plain_glob_iff {glob : Text} (hpl : PlainGlob glob) : (∃ f, builder glob = some f ∧ f host = true) ↔
      Wild.matches (wildcards glob) (toAsciiLowercase host) = true := by
  rw [hbuilder glob hpl]
  simp

theorem reaches_exact (hpl : PlainGlob domain) : (exact domain).Reaches builder host ↔
    Wild.matches (wildcards domain) (toAsciiLowercase host) = true := by
  simp only [DomainPattern.Reaches, globs, mem_singleton, exists_eq_left]
  exact plain_glob_iff hbuilder hpl

theorem reaches_subdomainsOnly (hpl : PlainGlob domain) : (subdomainsOnly domain).Reaches builder host ↔
    Wild.matches (wildcards ("?*.".toList ++ domain)) (toAsciiLowercase host) = true := by
  have hpl' : PlainGlob ("?*.".toList ++ domain) := by
    intro c hc
    rcases mem_append.mp hc with hc | hc
    · have hall : ∀ c ∈ "?*.".toList, c.toNat < 128 ∧ c ∉ "[]\x7b\x7d\\/".toList := by decide
      exact hall c hc
    · exact hpl c hc
  simp only [DomainPattern.Reaches, globs, mem_singleton, exists_eq_left]
  exact plain_glob_iff hbuilder hpl'

end Reaches

theorem mem_of_mem_firstLabel {c : Char} (h : c ∈ (before ++ '.' :: domain).takeWhile (· != '.')) : c ∈ before := by
  induction before with
  | nil => simp at h
  | cons d before ih =>
      rw [cons_append, takeWhile_cons] at h
      split at h
      · rcases mem_cons.mp h with rfl | h
        · exact mem_cons_self
        · exact mem_cons_of_mem _ (ih h)
      · cases h

theorem isSubdomainOrEqual_iff : isSubdomainOrEqual child parent = true ↔
    normalizeDomain child = normalizeDomain parent ∨
      ∃ before, normalizeDomain child = before ++ '.' :: normalizeDomain parent := by
  rw [isSubdomainOrEqual, Bool.or_eq_true, beq_iff_eq, isSuffixOf_iff_suffix]
  exact or_congr_right ⟨fun ⟨t, ht⟩ => ⟨t, ht.symm⟩, fun ⟨t, ht⟩ => ⟨t, ht.symm⟩⟩

theorem exists_of_isStrictSubdomain (h : isStrictSubdomain child parent = true) :
    ∃ before, normalizeDomain child = before ++ '.' :: normalizeDomain parent := by
  rw [isStrictSubdomain, Bool.and_eq_true, isSuffixOf_iff_suffix] at h
  obtain ⟨t, ht⟩ := h.2
  exact ⟨t, ht.symm⟩

theorem domains_of_allows {outer inner : WildcardPrefix}
    (h : (outer.pattern parent).allows (inner.pattern child) = true) :
    (normalizeDomain child = normalizeDomain parent ∧ (inner = outer ∨ outer = .apexAndSubdomains)) ∨
      (outer ≠ .none ∧ ∃ before, normalizeDomain child = before ++ '.' :: normalizeDomain parent) := by
  cases outer with
  | none =>
      cases inner with
      | none => exact inl ⟨beq_iff_eq.mp h, inl rfl⟩
      | subdomains => cases h
      | apexAndSubdomains => cases h
  | subdomains =>
      have hwild : WildcardPrefix.subdomains ≠ .none := by decide
      cases inner with
      | none => exact inr ⟨hwild, exists_of_isStrictSubdomain h⟩
      | subdomains =>
          rcases isSubdomainOrEqual_iff.mp h with heq | hbel
          · exact inl ⟨heq, inl rfl⟩
          · exact inr ⟨hwild, hbel⟩
      | apexAndSubdomains => exact inr ⟨hwild, exists_of_isStrictSubdomain h⟩
  | apexAndSubdomains =>
      have hor : isSubdomainOrEqual child parent = true := by cases inner <;> exact h
      rcases isSubdomainOrEqual_iff.mp hor with heq | hbel
      · exact inl ⟨heq, inr rfl⟩
      · exact inr ⟨by decide, hbel⟩

section

variable {builder : GlobBuilder} {wildcard : WildcardPrefix} {before parent child domain host : Text}

theorem reaches_of_subdomainsOnly (hwildcard : wildcard ≠ .none) (h : (subdomainsOnly domain).Reaches builder host) :
    (wildcard.pattern domain).Reaches builder host := by
  cases wildcard with
  | none => exact absurd rfl hwildcard
  | subdomains => exact h
  | apexAndSubdomains => exact reaches_apexAndSubdomains.mpr (inr h)

theorem apexAndSubdomains_reaches (h : (wildcard.pattern domain).Reaches builder host) :
    (apexAndSubdomains domain).Reaches builder host := by
  cases wildcard with
  | none => exact reaches_apexAndSubdomains.mpr (inl h)
  | subdomains => exact reaches_apexAndSubdomains.mpr (inr h)
  | apexAndSubdomains => exact h

theorem reaches_below (hbuilder : BuildsWildcards builder) (hplainParent : PlainGlob parent)
    (hplainChild : PlainGlob child) (hbef : child = before ++ '.' :: parent)
    (hlabel : wildcard ≠ .subdomains → ∃ c ∈ child.takeWhile (· != '.'), c ≠ '*')
    (h : (wildcard.pattern child).Reaches builder host) : (subdomainsOnly parent).Reaches builder host := by
  have hsub : (subdomainsOnly child).Reaches builder host →
      (subdomainsOnly parent).Reaches builder host := by
    intro hreach
    rw [reaches_subdomainsOnly hbuilder hplainParent]
    rw [reaches_subdomainsOnly hbuilder hplainChild, hbef] at hreach
    exact subdomains_of_below hreach
  have hex : wildcard ≠ .subdomains → (exact child).Reaches builder host →
      (subdomainsOnly parent).Reaches builder host := by
    intro hwildcard hreach
    obtain ⟨c, hc, hstar⟩ := hlabel hwildcard
    rw [reaches_subdomainsOnly hbuilder hplainParent]
    rw [reaches_exact hbuilder hplainChild, hbef] at hreach
    rw [hbef] at hc
    exact subdomains_of_exact (mem_of_mem_firstLabel hc) hstar hreach
  cases wildcard with
  | none => exact hex (by decide) h
  | subdomains => exact hsub h
  | apexAndSubdomains =>
      rcases reaches_apexAndSubdomains.mp h with h | h
      · exact hex (by decide) h
      · exact hsub h

end

theorem patternMatches_of_allows {builder : GlobBuilder} (hbuilder : BuildsWildcards builder)
    (hurl : ∀ host, urlHost host = none ∨ urlHost host = some (toAsciiLowercase host)) {managed : Text}
    (hm : ReadAlike urlHost managed) (he : ReadAlike urlHost entry)
    (hallows : (parseForConstraints urlHost managed).allows (parseForConstraints urlHost entry) = true)
    (h : PatternMatches builder entry host) : PatternMatches builder managed host := by
  obtain ⟨parent, hparent, hparentDomain⟩ := hm.parseForConstraints_eq hurl
  obtain ⟨child, hch, hchildDomain⟩ := he.parseForConstraints_eq hurl
  rw [hparent, hch] at hallows
  unfold PatternMatches at h ⊢
  rw [he.enforced_eq, ← hchildDomain] at h
  rw [hm.enforced_eq, ← hparentDomain]
  rcases domains_of_allows hallows with ⟨heq, hwild | hwild⟩ | ⟨hwild, before, hbef⟩
  · rw [← heq, ← hwild]
    exact h
  · rw [← heq, hwild]
    exact apexAndSubdomains_reaches h
  · have hplainParent := hm.plainGlob
    have hplainChild := he.plainGlob
    have hlabel := he.label_lowercase
    rw [← hparentDomain] at hplainParent
    rw [← hchildDomain] at hplainChild hlabel
    exact reaches_of_subdomainsOnly hwild (reaches_below hbuilder hplainParent hplainChild hbef hlabel h)

end

/-! ## What validation and building say -/

section

variable {urlHost : Text → Option Text} {config : NetworkProxyConfig} {constraints : NetworkProxyConstraints}

theorem except_seq_eq_ok {ε α : Type} {x : Except ε Unit} {f : Unit → Except ε α} {b : α} :
    (x >>= f) = .ok b ↔ x = .ok () ∧ f () = .ok b := by
  rw [except_bind_eq_ok]
  exact ⟨fun ⟨(), h⟩ => h, fun h => ⟨(), h⟩⟩

structure ValidApartFromMode (urlHost : Text → Option Text) (config : NetworkProxyConfig)
    (constraints : NetworkProxyConstraints) : Prop where
  denied : validateNonGlobalWildcardDomainPatterns "network.denied_domains" (config.network.deniedDomains.getD []) = .ok ()
  enabled : validateFlag "network.enabled" config.network.enabled (constraints.enabled.getD true) = .ok ()
  upstream : validateFlag "network.allow_upstream_proxy" config.network.allowUpstreamProxy
    (constraints.allowUpstreamProxy.getD true) = .ok ()
  nonLoopback : validateFlag "network.dangerously_allow_non_loopback_proxy"
    config.network.dangerouslyAllowNonLoopbackProxy
    (constraints.dangerouslyAllowNonLoopbackProxy.getD true) = .ok ()
  allSockets : validateFlag "network.dangerously_allow_all_unix_sockets" config.network.dangerouslyAllowAllUnixSockets
    (constraints.dangerouslyAllowAllUnixSockets.getD constraints.allowUnixSockets.isNone) = .ok ()
  localBinding : validateFlag "network.allow_local_binding" config.network.allowLocalBinding
    (constraints.allowLocalBinding.getD true) = .ok ()
  allowedDomains : validateAllowedDomains urlHost config constraints = .ok ()
  deniedDomains : validateDeniedDomains config constraints = .ok ()
  sockets : validateUnixSockets config constraints = .ok ()

theorem validate_eq_ok : validatePolicyAgainstConstraints urlHost config constraints = .ok () ↔
    validateMode config.network.mode constraints.mode = .ok () ∧ ValidApartFromMode urlHost config constraints := by
  unfold validatePolicyAgainstConstraints
  simp only [except_seq_eq_ok]
  constructor
  · rintro ⟨h1, h2, h3, h4, h5, h6, h7, h8, h9, h10⟩
    exact ⟨h3, h1, h2, h4, h5, h6, h7, h8, h9, h10⟩
  · rintro ⟨h3, h1, h2, h4, h5, h6, h7, h8, h9, h10⟩
    exact ⟨h1, h2, h3, h4, h5, h6, h7, h8, h9, h10⟩

theorem exists_managed_allows
    (h : validateAllowedDomains urlHost config constraints = .ok ()) (hmanaged : constraints.allowedDomains = some managed)
    (hexpansion : constraints.allowlistExpansionEnabled = none) (hent : entry ∈ config.network.allowedDomains.getD []) :
    ∃ pattern ∈ managed, (parseForConstraints urlHost pattern).allows (parseForConstraints urlHost entry) = true := by
  unfold validateAllowedDomains at h
  simp only [hmanaged, hexpansion, except_seq_eq_ok] at h
  obtain ⟨_, h⟩ := h
  split at h
  · rename_i hnil
    by_contra hno
    push Not at hno
    have hmem : entry ∈ notAllowed urlHost managed (config.network.allowedDomains.getD []) := by
      refine mem_filter.mpr ⟨hent, ?_⟩
      rw [Bool.not_eq_true', any_eq_false]
      exact hno
    rw [hnil] at hmem
    cases hmem
  · cases h

theorem exists_denied_entry {pattern : Text}
    (h : validateDeniedDomains config constraints = .ok ()) (hmanaged : constraints.deniedDomains = some managed)
    (hpat : pattern ∈ managed) :
    ∃ entry ∈ config.network.deniedDomains.getD [], toAsciiLowercase entry = toAsciiLowercase pattern := by
  have hmem : toAsciiLowercase pattern ∈ lowercased managed := mem_map_of_mem hpat
  suffices toAsciiLowercase pattern ∈ lowercased (config.network.deniedDomains.getD []) from mem_map.mp this
  unfold validateDeniedDomains at h
  simp only [hmanaged, except_seq_eq_ok] at h
  obtain ⟨_, h⟩ := h
  have hmissing : ∀ {e : NetworkProxyConstraintError},
      (if missingDenied config managed = [] then Except.ok () else .error e) = .ok () →
        toAsciiLowercase pattern ∈ lowercased (config.network.deniedDomains.getD []) := by
    intro e h
    split at h
    · rename_i hnil
      by_contra hno
      have : toAsciiLowercase pattern ∈ missingDenied config managed := by
        refine mem_filter.mpr ⟨mem_eraseDups.mpr hmem, ?_⟩
        simpa using hno
      rw [hnil] at this
      cases this
    · cases h
  split at h
  · split at h
    · rename_i hsame
      simp only [sameEntries, Bool.and_eq_true, all_eq_true, contains_iff_mem] at hsame
      exact hsame.2 _ hmem
    · cases h
  · exact hmissing h
  · exact hmissing h

/-! ## Built states -/

theorem mapError_eq_ok {ε ε' α : Type} {f : ε → ε'} {x : Except ε α} {a : α} : x.mapError f = .ok a ↔ x = .ok a := by
  cases x <;> simp [Except.mapError]

structure CompiledFromConfig (tools : ProxyTools) (state : ConfigState) : Prop where
  denySet : compileDenylistGlobset tools.globBuilder (state.config.network.deniedDomains.getD []) = .ok state.denySet
  allowSet : compileAllowlistGlobset tools.globBuilder (state.config.network.allowedDomains.getD []) = .ok state.allowSet

theorem buildConfigState_eq_ok {tools : ProxyTools} {state : ConfigState}
    (h : buildConfigState tools config constraints = .ok state) :
    state.config = config ∧ state.constraints = constraints ∧ CompiledFromConfig tools state ∧
      state.blocked = [] ∧ state.blockedTotal = 0 := by
  unfold buildConfigState at h
  obtain ⟨_, h⟩ := except_seq_eq_ok.mp h
  obtain ⟨_, h⟩ := except_seq_eq_ok.mp h
  obtain ⟨denySet, hdeny, h⟩ := except_bind_eq_ok.mp h
  obtain ⟨allowSet, hallow, h⟩ := except_bind_eq_ok.mp h
  obtain ⟨mitm, _, h⟩ := except_bind_eq_ok.mp h
  cases h
  exact ⟨rfl, rfl, ⟨mapError_eq_ok.mp hdeny, mapError_eq_ok.mp hallow⟩, rfl, rfl⟩

end

end CodexStudy.NetworkProxy
