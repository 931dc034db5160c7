import CodexStudy.NetworkProxy.Lemmas.Patterns

/-!
# Managed allowlists

An allowed entry is accepted if a managed pattern allows it by the reading that patterns are compared by.
-/

namespace CodexStudy.NetworkProxy

open CodexStudy.Lib
open CodexStudy.Lib.Text (toAsciiLowercase)

/-- The managed pattern allows the entry as validation compares them. -/
def Allows (urlHost : Text → Option Text) (managed entry : Text) : Prop :=
  (DomainPattern.parseForConstraints urlHost managed).allows (DomainPattern.parseForConstraints urlHost entry) = true

/-- The two patterns are normalised to the same pattern, or each of them is read alike in both ways. -/
def Alike (urlHost : Text → Option Text) (managed entry : Text) : Prop :=
  normalizePattern managed = normalizePattern entry ∨ ReadAlike urlHost managed ∧ ReadAlike urlHost entry

/-- The entry is accepted, but only through patterns that are not read alike with it. -/
structure Misread (urlHost : Text → Option Text) (managed : List Text) (entry : Text) : Prop where
  accepted : ∃ pattern ∈ managed, Allows urlHost pattern entry
  notAlike : ∀ pattern ∈ managed, Allows urlHost pattern entry → ¬ Alike urlHost pattern entry

theorem patternMatches_of_alike {builder : GlobBuilder} (hbuilder : BuildsWildcards builder)
    {urlHost : Text → Option Text} (hurl : ∀ host, urlHost host = none ∨ urlHost host = some (toAsciiLowercase host))
    {managed entry host : Text} (halike : Alike urlHost managed entry) (hallows : Allows urlHost managed entry)
    (h : PatternMatches builder entry host) : PatternMatches builder managed host := by
  rcases halike with heq | ⟨hm, he⟩
  · rw [PatternMatches, enforced, heq]
    exact h
  · exact patternMatches_of_allows hbuilder hurl hm he hallows h

instance (glob : Text) : Decidable (PlainGlob glob) := inferInstanceAs (Decidable (∀ c ∈ glob, _))

/-- The globs without classes, alternatives and escapes. -/
def plainGlobBuilder : GlobBuilder := fun glob =>
  if PlainGlob glob then some fun host => Wild.matches (wildcards glob) (toAsciiLowercase host) else none

theorem buildsWildcards_plainGlobBuilder : BuildsWildcards plainGlobBuilder := fun _ hpl => if_pos hpl

/-- Names of letters, digits, hyphens and dots. -/
def asciiUrlHost (host : Text) : Option Text :=
  if host ≠ [] ∧ host.all fun c => c.isAlphanum || c == '-' || c == '.' then some (toAsciiLowercase host) else none

theorem asciiUrlHost_cases (host : Text) :
    asciiUrlHost host = none ∨ asciiUrlHost host = some (toAsciiLowercase host) := by
  unfold asciiUrlHost
  split
  · exact Or.inr rfl
  · exact Or.inl rfl

def allowing (pattern : String) : NetworkProxyConfig :=
  { network := { domains := some ⟨[⟨pattern.toList, .allow⟩]⟩ } }

def exampleManaged : NetworkProxyConstraints := { allowedDomains := some ["**.example.com"] }

theorem exists_of_isOk {ε α : Type} {x : Except ε α} (h : x.isOk = true) : ∃ a, x = .ok a := by
  cases x with
  | error e => cases h
  | ok a => exact ⟨a, rfl⟩

end CodexStudy.NetworkProxy
