import CodexStudy.Lib.Ascii
import CodexStudy.Lib.Wildcard

/-!
# Hosts and domain patterns

A host is normalised before it is looked up, and a pattern before it is compiled to globs.
-/

namespace CodexStudy.NetworkProxy

open CodexStudy.Lib
open CodexStudy.Lib.Text (trim toAsciiLowercase splitOnce? trimEndMatches)

/-! ## Addresses -/

inductive IpAddr where
  | v4 (bits : BitVec 32)
  | v6 (bits : BitVec 128)
  deriving DecidableEq

/-! ## Reading -/

def digitValue (radix : Nat) (c : Char) : Option Nat :=
  let value :=
    if '0' ≤ c ∧ c ≤ '9' then some (c.toNat - 48)
    else if 'a' ≤ c ∧ c ≤ 'f' then some (c.toNat - 87)
    else if 'A' ≤ c ∧ c ≤ 'F' then some (c.toNat - 55)
    else none
  value.filter (· < radix)

def readNumber (radix maxDigits bound : Nat) (allowZeroPrefix : Bool) (s : Text) : Option (Nat × Text) :=
  let digits := s.takeWhile fun c => (digitValue radix c).isSome
  let value := digits.foldl (fun n c => radix * n + (digitValue radix c).getD 0) 0
  if digits = [] ∨ maxDigits < digits.length ∨ bound ≤ value then none
  else if !allowZeroPrefix && digits.head? == some '0' && 1 < digits.length then none
  else some (value, s.drop digits.length)

def readSeparator {α : Type} (separator : Char) (index : Nat) (inner : Text → Option (α × Text)) (s : Text) :
    Option (α × Text) :=
  if index = 0 then inner s
  else
    match s with
    | c :: rest => if c = separator then inner rest else none
    | [] => none

def readOctets : Nat → Nat → Text → Option (List Nat × Text)
  | 0, _, s => some ([], s)
  | n + 1, index, s =>
      match readSeparator '.' index (readNumber 10 3 256 false) s with
      | none => none
      | some (octet, rest) => (readOctets n (index + 1) rest).map fun (octets, rest) => (octet :: octets, rest)

def readIpv4Addr (s : Text) : Option (List Nat × Text) := readOctets 4 0 s

/-- The two segments that the four octets of an address make up. -/
def segmentsOfOctets : List Nat → List Nat
  | [a, b, c, d] => [256 * a + b, 256 * c + d]
  | _ => []

/-- Read at most so many segments, and tell whether the last of them were an IPv4 address. -/
def readGroups : Nat → Nat → Text → List Nat × Bool × Text
  | 0, _, s => ([], false, s)
  | n + 1, index, s =>
      match if 0 < n then readSeparator ':' index readIpv4Addr s else none with
      | some (octets, rest) => (segmentsOfOctets octets, true, rest)
      | none =>
          match readSeparator ':' index (readNumber 16 4 65536 true) s with
          | none => ([], false, s)
          | some (group, rest) =>
              let (groups, embedded, rest) := readGroups n (index + 1) rest
              (group :: groups, embedded, rest)

/-- Read eight segments, or fewer with `::` for the zeros that are left out. -/
def readIpv6Addr (s : Text) : Option (List Nat × Text) :=
  let (head, embedded, rest) := readGroups 8 0 s
  if head.length = 8 then some (head, rest)
  else if embedded then none
  else
    match rest with
    | ':' :: ':' :: rest =>
        let (tail, _, rest) := readGroups (7 - head.length) 0 rest
        some (head ++ List.replicate (8 - head.length - tail.length) 0 ++ tail, rest)
    | _ => none

def bitsOf (width total : Nat) (parts : List Nat) : BitVec total :=
  BitVec.ofNat total (parts.foldl (fun n part => 2 ^ width * n + part) 0)

def IpAddr.parse (s : Text) : Option IpAddr :=
  match readIpv4Addr s with
  | some (octets, rest) => if rest = [] then some (.v4 (bitsOf 8 32 octets)) else none
  | none =>
      match readIpv6Addr s with
      | some (segments, rest) => if rest = [] then some (.v6 (bitsOf 16 128 segments)) else none
      | none => none

example : IpAddr.parse "::ffff:10.0.0.1" = some (.v6 0xffff0a000001) := by decide +kernel

/-! ## Classes of addresses -/

def ipv4InCidr (ip base : BitVec 32) (prefixLength : Nat) : Bool :=
  let mask := if prefixLength = 0 then 0 else BitVec.allOnes 32 <<< (32 - prefixLength)
  (ip &&& mask) == (base &&& mask)

/-- The blocks outside the public network that `isNonPublicIpv4` lists. -/
def nonPublicBlocks : List (BitVec 32 × Nat) :=
  [(0x7f000000, 8), (0x0a000000, 8), (0xac100000, 12), (0xc0a80000, 16), (0xa9fe0000, 16), (0xe0000000, 4),
    (0x00000000, 8), (0x64400000, 10), (0xc0000000, 24), (0xc0000200, 24), (0xc6120000, 15), (0xc6336400, 24),
    (0xcb007100, 24), (0xf0000000, 4)]

def isNonPublicIpv4 (ip : BitVec 32) : Bool :=
  nonPublicBlocks.any (fun (base, prefixLength) => ipv4InCidr ip base prefixLength) ||
    ip == 0 || ip == BitVec.allOnes 32

def toIpv4 (ip : BitVec 128) : Option (BitVec 32) :=
  if ip >>> 32 = 0 ∨ ip >>> 32 = 0xffff then some (ip.truncate 32) else none

def isNonPublicIpv6 (ip : BitVec 128) : Bool :=
  match toIpv4 ip with
  | some v4 => isNonPublicIpv4 v4 || ip == 1
  | none =>
      ip == 1 || ip == 0 || ip >>> 120 == 0xff || ip >>> 121 == 0x7e || ip >>> 118 == 0x3fa

def isNonPublicIp : IpAddr → Bool
  | .v4 ip => isNonPublicIpv4 ip
  | .v6 ip => isNonPublicIpv6 ip

def IpAddr.isLoopback : IpAddr → Bool
  | .v4 ip => ipv4InCidr ip 0x7f000000 8
  | .v6 ip => ip == 1

/-! ## Hosts -/

def unscopedIpLiteral (host : Text) : Option Text :=
  match splitOnce? ['%'] host with
  | some (ip, _) => if (IpAddr.parse ip).isSome then some ip else none
  | none => none

def scopedIpLiteral (delimiter host : Text) : Option Text :=
  match splitOnce? delimiter host with
  | some (ip, scope) => if (IpAddr.parse ip).isSome then some (ip ++ ['%'] ++ scope) else none
  | none => none

def normalizeIpLiteral (host : Text) : Option Text :=
  if (IpAddr.parse host).isSome then some host
  else (scopedIpLiteral "%25" host).or (scopedIpLiteral ['%'] host)

def normalizeDnsHostOrIpLiteral (host : Text) : Text :=
  let host := trimEndMatches '.' (toAsciiLowercase host)
  (normalizeIpLiteral host).getD host

/-- The host without brackets, port, dots at its end and upper-case letters. -/
def normalizeHost (host : Text) : Text :=
  let host := trim host
  if host.head? = some '[' ∧ ']' ∈ host then
    normalizeDnsHostOrIpLiteral (host.tail.takeWhile (· != ']'))
  else if host.count ':' = 1 then normalizeDnsHostOrIpLiteral (host.takeWhile (· != ':'))
  else normalizeDnsHostOrIpLiteral host

def Host.parse (input : Text) : Option Text :=
  if normalizeHost input = [] then none else some (normalizeHost input)

def isLoopbackHost (host : Text) : Bool :=
  let host := (unscopedIpLiteral host).getD host
  host == "localhost" || (IpAddr.parse host).any IpAddr.isLoopback

/-! ## Patterns -/

inductive WildcardPrefix where
  | none
  | subdomains
  | apexAndSubdomains
  deriving DecidableEq

def WildcardPrefix.text : WildcardPrefix → Text
  | none => []
  | subdomains => "*."
  | apexAndSubdomains => "**."

def splitWildcardPrefix (pattern : Text) : WildcardPrefix × Text :=
  match Text.stripPrefix? "**." pattern with
  | some domain => (.apexAndSubdomains, domain)
  | none =>
      match Text.stripPrefix? "*." pattern with
      | some domain => (.subdomains, domain)
      | none => (.none, pattern)

def normalizePattern (pattern : Text) : Text :=
  let pattern := trim pattern
  if pattern = ['*'] then ['*']
  else (splitWildcardPrefix pattern).1.text ++ normalizeHost (splitWildcardPrefix pattern).2

inductive DomainPattern where
  | apexAndSubdomains (domain : Text)
  | subdomainsOnly (domain : Text)
  | exact (domain : Text)

def WildcardPrefix.pattern : WildcardPrefix → Text → DomainPattern
  | none => .exact
  | subdomains => .subdomainsOnly
  | apexAndSubdomains => .apexAndSubdomains

def parseDomain (wildcard : WildcardPrefix) (domain : Text) : DomainPattern :=
  let domain := trim domain
  if domain = [] then .exact [] else wildcard.pattern domain

/-- The reading that globs are made from. -/
def DomainPattern.parse (input : Text) : DomainPattern :=
  let input := trim input
  if input = [] then .exact []
  else
    match splitWildcardPrefix input with
    | (.none, _) => .exact input
    | (wildcard, domain) => parseDomain wildcard domain

/-- What stands between brackets at both ends. -/
def stripBrackets (domain : Text) : Text :=
  if domain.head? = some '[' ∧ domain.getLast? = some ']' then (domain.drop 1).dropLast else domain

/-- A domain that is not a valid host becomes the empty domain; one with a wildcard or a scope is not
checked. -/
def parseDomainForConstraints (urlHost : Text → Option Text) (domain : Text) : Text :=
  let domain := trimEndMatches '.' (trim domain)
  if domain = [] then []
  else
    let host := stripBrackets domain
    if '*' ∈ host ∨ '?' ∈ host ∨ '%' ∈ host then domain else (urlHost host).getD []

def DomainPattern.parseForConstraints (urlHost : Text → Option Text) (input : Text) : DomainPattern :=
  let input := trim input
  if input = [] then .exact []
  else
    (splitWildcardPrefix input).1.pattern (parseDomainForConstraints urlHost (splitWildcardPrefix input).2)

def normalizeDomain (domain : Text) : Text := toAsciiLowercase (trimEndMatches '.' domain)

def domainEq (left right : Text) : Bool := normalizeDomain left == normalizeDomain right

def isSubdomainOrEqual (child parent : Text) : Bool :=
  normalizeDomain child == normalizeDomain parent ||
    ('.' :: normalizeDomain parent).isSuffixOf (normalizeDomain child)

def isStrictSubdomain (child parent : Text) : Bool :=
  normalizeDomain child != normalizeDomain parent &&
    ('.' :: normalizeDomain parent).isSuffixOf (normalizeDomain child)

def DomainPattern.allows : DomainPattern → DomainPattern → Bool
  | exact domain, exact candidate => domainEq candidate domain
  | exact _, _ => false
  | subdomainsOnly domain, exact candidate => isStrictSubdomain candidate domain
  | subdomainsOnly domain, subdomainsOnly candidate => isSubdomainOrEqual candidate domain
  | subdomainsOnly domain, apexAndSubdomains candidate => isStrictSubdomain candidate domain
  | apexAndSubdomains domain, exact candidate => isSubdomainOrEqual candidate domain
  | apexAndSubdomains domain, subdomainsOnly candidate => isSubdomainOrEqual candidate domain
  | apexAndSubdomains domain, apexAndSubdomains candidate => isSubdomainOrEqual candidate domain

/-! ## Globs -/

def DomainPattern.globs : DomainPattern → List Text
  | exact domain => [domain]
  | subdomainsOnly domain => ["?*." ++ domain]
  | apexAndSubdomains domain => [domain, "?*." ++ domain]

def expandDomainPattern (pattern : Text) : List Text := (DomainPattern.parse pattern).globs

def isGlobalWildcardDomainPattern (pattern : Text) : Bool :=
  (expandDomainPattern (normalizePattern pattern)).any (· == ['*'])

abbrev GlobBuilder := Text → Option (Text → Bool)

abbrev GlobSet := List (Text → Bool)

def GlobSet.isMatch (set : GlobSet) (host : Text) : Bool := set.any fun glob => glob host

inductive GlobalWildcard where
  | allow
  | reject
  deriving DecidableEq

variable (builder : GlobBuilder)

def addCandidate (acc : List Text × GlobSet) (candidate : Text) :
    Except Text (List Text × GlobSet) :=
  if candidate ∈ acc.1 then .ok acc
  else
    match builder candidate with
    | some glob => .ok (candidate :: acc.1, acc.2 ++ [glob])
    | none => .error ("invalid glob pattern: " ++ candidate)

def addPattern (globalWildcard : GlobalWildcard) (acc : List Text × GlobSet)
    (pattern : Text) : Except Text (List Text × GlobSet) :=
  if globalWildcard = .reject ∧ isGlobalWildcardDomainPattern pattern then
    .error ("unsupported global wildcard domain pattern \"*\"; use exact hosts or scoped wildcards like " ++
      "*.example.com or **.example.com").toList
  else (expandDomainPattern (normalizePattern pattern)).foldlM (addCandidate builder) acc

def compileGlobsetWithPolicy (patterns : List Text) (globalWildcard : GlobalWildcard) :
    Except Text GlobSet :=
  (patterns.foldlM (addPattern builder globalWildcard) ([], [])).map Prod.snd

def compileAllowlistGlobset (patterns : List Text) : Except Text GlobSet :=
  compileGlobsetWithPolicy builder patterns .allow

def compileDenylistGlobset (patterns : List Text) : Except Text GlobSet :=
  compileGlobsetWithPolicy builder patterns .reject

def globsetMatchesHostOrUnscoped (set : GlobSet) (host : Text) : Bool :=
  set.isMatch host || (unscopedIpLiteral host).any set.isMatch

end CodexStudy.NetworkProxy
