import CodexStudy.NetworkProxy.Theorems.Denials
import CodexStudy.NetworkProxy.Theorems.Record

/-!
# Approvals and denials of a session

A host that is put on a list is normalised before, and its pattern once more when the list is compiled.
-/

namespace CodexStudy.NetworkProxy

open CodexStudy.Lib List Text Host NetworkDomainPermissions Or List.Sublist
open CodexStudy.Lib.Text (trim toAsciiLowercase trimEndMatches)

def NoGlobSyntax (text : Text) : Prop := ∀ c ∈ text, c ∉ "*?[]\x7b\x7d\\".toList

instance (text : Text) : Decidable (NoGlobSyntax text) := inferInstanceAs (Decidable (∀ c ∈ text, _))

/-- A glob of characters without a meaning matches its own text, upper and lower case apart. -/
def BuildsLiterals (builder : GlobBuilder) : Prop :=
  ∀ text, NoGlobSyntax text → builder text = some fun host => toAsciiLowercase text == toAsciiLowercase host

def InEffect (state : ConfigState) (host : Text) : DomainListKind → Prop
  | .deny => ∀ lookup port, hostBlocked lookup state host port = .blocked .denied
  | .allow =>
      globsetMatchesHostOrUnscoped state.allowSet (normalizeHost host) = true ∧
        containsHost (state.config.network.deniedDomains.getD []) (normalizeHost host) = false

def ListedAlready (network : NetworkProxySettings) (host : Text) (target : DomainListKind) : Prop :=
  containsHost (target.entries network) host = true ∧ containsHost (target.oppositeEntries network) host = false

def StaysListed (network : NetworkProxySettings) (host : Text) (target : DomainListKind) (entry : Text) : Prop :=
  entry ∈ target.entries network ∧ (ListedAlready network host target ∨ normalizeHost entry ≠ normalizeHost host)

/-- The normalised host is normalised already, or an entry that stays matches it. If it is allowed and not normalised
already, no entry denies it before. -/
structure TakesEffect (builder : GlobBuilder) (network : NetworkProxySettings) (host : Text) (target : DomainListKind) :
    Prop where
  listed : normalizeHost host = host ∨
    ∃ entry, StaysListed network host target entry ∧ PatternMatchesHostOrUnscoped builder entry host
  undenied : target = .allow → normalizeHost host = host ∨
    containsHost (network.deniedDomains.getD []) host = false

/-! ## Normalising again -/

section

variable {c : Char} {s host : Text}

theorem mem_trim (hmem : c ∈ s) (hc : isWhitespace c = false) : c ∈ trim s := by
  have hst : c ∈ trimStart s := by
    rw [← takeWhile_append_dropWhile (p := isWhitespace) (l := s)] at hmem
    refine (mem_append.mp hmem).resolve_left fun hbl => ?_
    rw [mem_takeWhile_imp hbl] at hc
    cases hc
  rw [← rdropWhile_append_rtakeWhile (p := isWhitespace) (l := trimStart s)] at hst
  refine (mem_append.mp hst).resolve_right fun hbl => ?_
  rw [mem_rtakeWhile_imp hbl] at hc
  cases hc

theorem normalizeIpLiteral_eq_some {result : Text} (h : normalizeIpLiteral host = some result) :
    result = host ∨ ∃ ip scope, host = ip ++ "%25" ++ scope ∧ result = ip ++ ['%'] ++ scope := by
  unfold normalizeIpLiteral at h
  split at h
  · cases h
    exact inl rfl
  · have hscoped : ∀ delimiter, scopedIpLiteral delimiter host = some result →
        ∃ ip scope, host = ip ++ delimiter ++ scope ∧ result = ip ++ ['%'] ++ scope := by
      intro delimiter h
      unfold scopedIpLiteral at h
      split at h
      · rename_i ip scope hspl
        split at h
        · cases h
          exact ⟨ip, scope, by rw [append_assoc]; exact splitOnce?_eq_some hspl, rfl⟩
        · cases h
      · cases h
    rcases Option.or_eq_some_iff.mp h with h | ⟨_, h⟩
    · exact inr (hscoped _ h)
    · obtain ⟨ip, scope, rfl, rfl⟩ := hscoped _ h
      exact inl rfl

theorem normalizeDns_sublist (s : Text) : (normalizeDnsHostOrIpLiteral s).Sublist (toAsciiLowercase s) := by
  unfold normalizeDnsHostOrIpLiteral
  refine List.Sublist.trans ?_ ( rdropWhile_prefix (· == '.') (toAsciiLowercase s)).sublist
  change ((normalizeIpLiteral (trimEndMatches '.' (toAsciiLowercase s))).getD _).Sublist _
  cases h : normalizeIpLiteral (trimEndMatches '.' (toAsciiLowercase s)) with
  | none => exact refl _
  | some result =>
      rcases normalizeIpLiteral_eq_some h with rfl | ⟨ip, scope, heq, rfl⟩
      · exact refl _
      · change (ip ++ ['%'] ++ scope).Sublist (trimEndMatches '.' (toAsciiLowercase s))
        rw [heq]
        exact ((refl ip).append (by decide)).append (refl scope)

theorem mem_normalizeDns (hc : c = '*' ∨ c = '%') (h : c ∈ s) : c ∈ normalizeDnsHostOrIpLiteral s := by
  have hlower : c ∈ toAsciiLowercase s := by
    refine (mem_toAsciiLowercase ?_).mpr h
    rcases hc with rfl | rfl <;> decide
  have htrim : c ∈ trimEndMatches '.' (toAsciiLowercase s) := by
    refine (mem_trimEndMatches hlower).resolve_right ?_
    rcases hc with rfl | rfl <;> decide
  unfold normalizeDnsHostOrIpLiteral
  dsimp only
  cases hip : normalizeIpLiteral (trimEndMatches '.' (toAsciiLowercase s)) with
  | none => exact htrim
  | some result =>
      rcases normalizeIpLiteral_eq_some hip with rfl | ⟨ip, scope, heq, rfl⟩
      · exact htrim
      · rw [heq] at htrim
        rcases hc with rfl | rfl
        · simpa using htrim
        · simp

theorem normalizeHost_sublist (s : Text) : (normalizeHost s).Sublist (toAsciiLowercase (trim s)) := by
  unfold normalizeHost
  dsimp only
  split
  · refine (normalizeDns_sublist _).trans (List.Sublist.map _ ?_)
    exact ( takeWhile_prefix _).sublist.trans (tail_sublist _)
  · split
    · exact (normalizeDns_sublist _).trans (List.Sublist.map _ ( takeWhile_prefix _).sublist)
    · exact normalizeDns_sublist _

theorem toAsciiLowercase_normalizeHost (s : Text) : toAsciiLowercase (normalizeHost s) = normalizeHost s := by
  refine (map_congr_left fun c hc => ?_).trans (map_id _)
  obtain ⟨d, _, rfl⟩ := mem_map.mp ((normalizeHost_sublist s).subset hc)
  exact toLower_toLower d

theorem length_normalizeHost_le (s : Text) : (normalizeHost s).length ≤ (trim s).length := by
  have := (normalizeHost_sublist s).length_le
  rwa [toAsciiLowercase, length_map] at this

theorem trim_eq_of_normalizeHost_eq (h : normalizeHost host = host) : trim host = host := by
  refine (trim_sublist host).eq_of_length_le ?_
  have := length_normalizeHost_le host
  rwa [h] at this

theorem trim_normalizeHost_eq_iff : trim (normalizeHost host) = host ↔ normalizeHost host = host := by
  constructor
  · intro h
    have hsame : trim (normalizeHost host) = normalizeHost host := by
      refine (trim_sublist _).eq_of_length_le ?_
      rw [h]
      exact (length_normalizeHost_le host).trans (trim_sublist host).length_le
    exact hsame.symm.trans h
  · intro h
    rw [h]
    exact trim_eq_of_normalizeHost_eq h

theorem exists_trim_append_percent (ip scope : Text) :
    ∃ rest, trim (ip ++ '%' :: scope) = trimStart ip ++ '%' :: rest := by
  have hbl : isWhitespace '%' = false := by decide
  have hst : trimStart (ip ++ '%' :: scope) = trimStart ip ++ '%' :: scope := by
    cases hip : trimStart ip with
    | nil =>
        have hnil : ip.dropWhile isWhitespace = [] := hip
        rw [trimStart, dropWhile_append, hnil, dropWhile_cons_of_neg (by simp [hbl])]
        rfl
    | cons c rest => rw [trimStart_append _ (by simp [hip]), hip]
  have hne : trimEnd ('%' :: scope) ≠ [] := fun hnil => by
    have := rdropWhile_eq_nil_iff.mp hnil '%' mem_cons_self
    simp [hbl] at this
  obtain ⟨c, rest, hrest⟩ := exists_cons_of_ne_nil hne
  have hhead := trimEnd_isPrefix ('%' :: scope)
  rw [hrest, cons_prefix_cons] at hhead
  refine ⟨rest, ?_⟩
  rw [trim, hst, trimEnd_append _ hne, hrest, hhead.1]

theorem unscoped_ne_trim_normalizeHost {ip : Text} (hplain : NoGlobSyntax host) (h : unscopedIpLiteral host = some ip) :
    ip ≠ trim (normalizeHost host) := by
  unfold unscopedIpLiteral at h
  split at h
  · rename_i ip' scope hspl
    split at h
    · rename_i hprs
      cases h
      have hpercent : '%' ∉ ip := not_mem_of_splitOnce? hspl
      have hhost := splitOnce?_eq_some hspl
      intro hip
      refine hpercent (hip ▸ mem_trim ?_ (by decide))
      unfold normalizeHost
      dsimp only
      split
      · rename_i hbracket
        exact absurd ((trim_sublist host).subset (mem_of_mem_head? hbracket.1)) fun h => hplain _ h (by decide)
      · split
        · rename_i hbracket hcnt
          have hcut : normalizeHost host = normalizeDnsHostOrIpLiteral ((trim host).takeWhile (· != ':')) := by
            unfold normalizeHost
            dsimp only
            rw [if_neg hbracket, if_pos hcnt]
          have hcolon : ∀ c ∈ trimStart ip, (c != ':') = true := by
            intro c hc
            have hc' : c ∈ ip := (dropWhile_suffix _).subset hc
            rw [hip, hcut] at hc'
            have hmem := (normalizeDns_sublist _).subset ((trim_sublist _).subset hc')
            obtain ⟨d, hd, rfl⟩ := mem_map.mp hmem
            rw [toLower_bne (by decide)]
            exact mem_takeWhile_imp (p := (· != ':')) hd
          obtain ⟨rest, hrest⟩ := exists_trim_append_percent ip scope
          rw [hhost, singleton_append, hrest, takeWhile_append_of_pos hcolon, takeWhile_cons_of_pos rfl]
          exact mem_normalizeDns (inr rfl) (by simp)
        · refine mem_normalizeDns (inr rfl) (mem_trim ?_ (by decide))
          rw [hhost]
          simp
    · cases h
  · cases h

end

/-! ## Patterns of plain hosts -/

section

variable {pattern host : Text}

theorem head?_trim_ne_star (h : '*' ∉ normalizeHost pattern) : (trim pattern).head? ≠ some '*' := by
  intro hhead
  apply h
  obtain ⟨rest, hrest⟩ := head?_eq_some_iff.mp hhead
  unfold normalizeHost
  rw [hrest]
  dsimp only
  rw [if_neg (by simp)]
  split
  · exact mem_normalizeDns (inl rfl) (by simp)
  · exact mem_normalizeDns (inl rfl) (by simp)

theorem splitWildcardPrefix_of_head? {s : Text} (h : s.head? ≠ some '*') : splitWildcardPrefix s = (.none, s) :=
  splitWildcardPrefix_of_not (not_prefix_of_head? rfl h) (not_prefix_of_head? rfl h)

theorem enforced_of_plain (h : '*' ∉ normalizeHost pattern) : enforced pattern = .exact (trim (normalizeHost pattern)) := by
  have hhead := head?_trim_ne_star h
  have hnorm : normalizePattern pattern = normalizeHost pattern := by
    unfold normalizePattern
    dsimp only
    rw [if_neg (fun hstar => hhead (by rw [hstar]; rfl)), splitWildcardPrefix_of_head? hhead]
    unfold normalizeHost
    rw [trim_trim]
    rfl
  have htrim : (trim (normalizeHost pattern)).head? ≠ some '*' :=
    fun hstar => h ((trim_sublist _).subset (mem_of_mem_head? hstar))
  rw [enforced, hnorm]
  unfold DomainPattern.parse
  dsimp only
  split
  · rename_i hnil
    rw [hnil]
  · rw [splitWildcardPrefix_of_head? htrim]

variable {builder : GlobBuilder}

theorem patternMatches_of_plain (hglobs : BuildsLiterals builder) (hplain : NoGlobSyntax (normalizeHost pattern))
    (hlower : toAsciiLowercase host = host) :
    PatternMatches builder pattern host ↔ trim (normalizeHost pattern) = host := by
  have hstar : '*' ∉ normalizeHost pattern := fun hmem => hplain _ hmem (by decide)
  have htrim : NoGlobSyntax (trim (normalizeHost pattern)) := fun c hc => hplain c ((trim_sublist _).subset hc)
  rw [PatternMatches, enforced_of_plain hstar, DomainPattern.Reaches]
  simp only [DomainPattern.globs, mem_singleton, exists_eq_left, hglobs _ htrim, Option.some.injEq,
    exists_eq_left', beq_iff_eq]
  rw [← trim_toAsciiLowercase, toAsciiLowercase_normalizeHost, hlower]

theorem toAsciiLowercase_unscoped {ip : Text} (hlower : toAsciiLowercase host = host)
    (h : unscopedIpLiteral host = some ip) : toAsciiLowercase ip = ip := by
  unfold unscopedIpLiteral at h
  split at h
  · rename_i ip' scope hspl
    split at h
    · cases h
      rw [splitOnce?_eq_some hspl, toAsciiLowercase, map_append] at hlower
      exact (append_inj hlower (length_map _)).1
    · cases h
  · cases h

theorem matchesHostOrUnscoped_of_plain (hglobs : BuildsLiterals builder) (hplain : NoGlobSyntax (normalizeHost pattern))
    (hlower : toAsciiLowercase host = host) : PatternMatchesHostOrUnscoped builder pattern host ↔
      trim (normalizeHost pattern) = host ∨ unscopedIpLiteral host = some (trim (normalizeHost pattern)) := by
  rw [PatternMatchesHostOrUnscoped, patternMatches_of_plain hglobs hplain hlower]
  refine or_congr_right ⟨?_, fun hip => ?_⟩
  · rintro ⟨ip, hip, hmt⟩
    rw [patternMatches_of_plain hglobs hplain (toAsciiLowercase_unscoped hlower hip)] at hmt
    rw [hmt]
    exact hip
  · exact ⟨_, hip, (patternMatches_of_plain hglobs hplain (toAsciiLowercase_unscoped hlower hip)).mpr rfl⟩

end

/-! ## The lists after an update -/

section

variable {network : NetworkProxySettings} {permission p : NetworkDomainPermission} {host entry : Text}

theorem mem_domainEntries (hp : p ≠ .none) : entry ∈ (network.domainEntries p).getD [] ↔ effectivePermission
      ⟨(network.domains.map entries).getD []⟩ entry = p := by
  unfold NetworkProxySettings.domainEntries
  cases network.domains with
  | none => exact ⟨(nomatch ·), fun h => absurd h.symm hp⟩
  | some domains =>
      have hfilter : ∀ entries : List Text, ((some entries).filter fun l => !l.isEmpty).getD [] = entries := by
        rintro (_ | ⟨entry, entries⟩) <;> rfl
      have hlis : domains.effectivePermission entry = p →
          entry ∈ domains.entries.map NetworkDomainPermissionEntry.pattern := by
        intro h
        by_contra hmem
        refine hp (h.symm.trans ?_)
        unfold effectivePermission
        rw [filter_eq_nil_iff.mpr fun e he hpat => hmem ?_]
        · rfl
        · exact mem_map.mpr ⟨e, he, beq_iff_eq.mp hpat⟩
      rw [Option.map_some, hfilter]
      simp only [effectiveEntries, mem_map, mem_filter, mem_eraseDups, beq_iff_eq,
        Option.map_some, Option.getD_some] at hlis ⊢
      constructor
      · rintro ⟨e, ⟨⟨pattern, _, rfl⟩, hpermission⟩, rfl⟩
        exact hpermission
      · intro h
        exact ⟨⟨entry, p⟩, ⟨⟨entry, hlis h, by rw [h]⟩, rfl⟩, rfl⟩

theorem stronger_none (p : NetworkDomainPermission) : NetworkDomainPermission.none.stronger p = p := by
  cases p <;> rfl

theorem mem_domainEntries_upsert (hp : p ≠ .none) :
    entry ∈ ((network.upsertDomainPermission host permission normalizeHost).domainEntries p).getD [] ↔
      entry = host ∧ p = permission ∨
        entry ∈ (network.domainEntries p).getD [] ∧ normalizeHost entry ≠ normalizeHost host := by
  rw [mem_domainEntries hp, mem_domainEntries hp]
  unfold NetworkProxySettings.upsertDomainPermission effectivePermission
  dsimp only [Option.map_some, Option.getD_some]
  generalize (network.domains.map entries).getD [] = entries
  rw [filter_append, filter_filter]
  by_cases hsame : normalizeHost entry = normalizeHost host
  · -- The earlier entries of the pattern are gone.
    have hnone : entries.filter (fun e => e.pattern == entry && normalizeHost e.pattern != normalizeHost host) = [] := by
      refine filter_eq_nil_iff.mpr fun e _ => ?_
      rw [Bool.and_eq_true, beq_iff_eq, bne_iff_ne]
      rintro ⟨rfl, hne⟩
      exact hne hsame
    rw [hnone]
    by_cases hent : host = entry
    · subst hent
      simp [stronger_none, eq_comm]
    · simp [hent, Ne.symm hent, hsame, hp.symm]
  · have hkeep : entries.filter (fun e => e.pattern == entry && normalizeHost e.pattern != normalizeHost host) =
        entries.filter fun e => e.pattern == entry := by
      refine filter_congr fun e _ => ?_
      by_cases he : e.pattern = entry
      · simp [he, hsame]
      · simp [he]
    have hent : ¬ host = entry := by
      rintro rfl
      exact hsame rfl
    simp [hkeep, hent, Ne.symm hent, hsame]

theorem mem_entries_upsert {target kind : DomainListKind} :
    entry ∈ kind.entries (network.upsertDomainPermission host target.permission normalizeHost) ↔
      entry = host ∧ kind = target ∨ entry ∈ kind.entries network ∧ normalizeHost entry ≠ normalizeHost host := by
  have hkind : kind.permission = target.permission ↔ kind = target := by cases kind <;> cases target <;> decide
  cases kind with
  | allow => exact (mem_domainEntries_upsert (by decide)).trans (by rw [← hkind]; rfl)
  | deny => exact (mem_domainEntries_upsert (by decide)).trans (by rw [← hkind]; rfl)

end

/-! ## One update -/

section

variable {tools : ProxyTools} {state newState : ConfigState} {host normalizedHost : Text} {target : DomainListKind}

structure UpdatedFrom (tools : ProxyTools) (previousCfg : NetworkProxyConfig) (normalizedHost : Text)
    (target : DomainListKind) (newState : ConfigState) : Prop where
  unlisted : ¬ ListedAlready previousCfg.network normalizedHost target
  config : newState.config =
    ⟨previousCfg.network.upsertDomainPermission normalizedHost target.permission normalizeHost⟩
  compiled : CompiledFromConfig tools newState

theorem updatedFrom_of_updatedState (h : updatedState tools state normalizedHost target = .ok (some newState)) :
    UpdatedFrom tools state.config normalizedHost target (newState.keepingRecord state) := by
  unfold updatedState at h
  dsimp only at h
  split at h
  · cases h
  · rename_i hlis
    obtain ⟨_, h⟩ := except_seq_eq_ok.mp h
    obtain ⟨built, hbuild, h⟩ := except_bind_eq_ok.mp h
    cases h
    obtain ⟨hconfig, _, hcom, _⟩ := buildConfigState_eq_ok (mapError_eq_ok.mp hbuild)
    refine ⟨fun hl => hlis ?_, hconfig, ⟨hcom.denySet, hcom.allowSet⟩⟩
    rw [hl.1, hl.2]
    rfl

theorem listedAlready_of_updatedState (h : updatedState tools state normalizedHost target = .ok none) :
    ListedAlready state.config.network normalizedHost target := by
  unfold updatedState at h
  dsimp only at h
  split at h
  · rename_i hlis
    rw [Bool.and_eq_true, Bool.not_eq_true'] at hlis
    exact hlis
  · obtain ⟨_, h⟩ := except_seq_eq_ok.mp h
    obtain ⟨_, _, h⟩ := except_bind_eq_ok.mp h
    cases h

theorem globset_matches_iff {patterns : List Text} {set : GlobSet} {globalWildcard : GlobalWildcard}
    (h : compileGlobsetWithPolicy tools.globBuilder patterns globalWildcard = .ok set) :
    globsetMatchesHostOrUnscoped set host = true ↔
      ∃ entry ∈ patterns, PatternMatchesHostOrUnscoped tools.globBuilder entry host := by
  simp only [globsetMatchesHostOrUnscoped, Bool.or_eq_true, Option.any_eq_true, compileGlobset_isMatch h,
    PatternMatchesHostOrUnscoped, Option.mem_def]
  constructor
  · rintro (⟨entry, hent, hmt⟩ | ⟨ip, hip, entry, hent, hmt⟩)
    · exact ⟨entry, hent, inl hmt⟩
    · exact ⟨entry, hent, inr ⟨ip, hip, hmt⟩⟩
  · rintro ⟨entry, hent, hmt | ⟨ip, hip, hmt⟩⟩
    · exact inl ⟨entry, hent, hmt⟩
    · exact inr ⟨ip, hip, entry, hent, hmt⟩

theorem hostBlocked_denied_iff (hhost : parse host = some normalizedHost) :
    (∀ lookup port, hostBlocked lookup state host port = .blocked .denied) ↔
      globsetMatchesHostOrUnscoped state.denySet normalizedHost = true := by
  unfold hostBlocked
  rw [hhost]
  dsimp only
  constructor
  · intro h
    have := h (fun _ _ => none) 0
    by_contra hset
    rw [if_neg hset] at this
    split_ifs at this <;> cases this
  · intro hset lookup port
    rw [if_pos hset]

theorem normalizeHost_of_parse (h : parse host = some normalizedHost) : normalizeHost host = normalizedHost := by
  unfold parse at h
  split at h
  · cases h
  · exact Option.some.inj h

end

/-! ## What takes effect -/

section

variable {tools : ProxyTools} {state newState : ConfigState} {network : NetworkProxySettings}
  {host normalizedHost : Text} {target : DomainListKind}

theorem inEffect_iff (hcom : CompiledFromConfig tools state) (hhost : parse host = some normalizedHost) :
    InEffect state host target ↔ (∃ entry ∈ target.entries state.config.network,
        PatternMatchesHostOrUnscoped tools.globBuilder entry normalizedHost) ∧
      (target = .allow → containsHost (state.config.network.deniedDomains.getD []) normalizedHost = false) := by
  cases target with
  | deny =>
      rw [InEffect, hostBlocked_denied_iff hhost, globset_matches_iff hcom.denySet]
      exact (and_iff_left fun h => nomatch h).symm
  | allow =>
      rw [InEffect, normalizeHost_of_parse hhost, globset_matches_iff hcom.allowSet]
      exact and_congr_right fun _ => ⟨fun h _ => h, fun h => h rfl⟩

theorem containsHost_eq_false {entries : List Text} :
    containsHost entries host = false ↔ ∀ entry ∈ entries, normalizeHost entry ≠ host := by
  simp [containsHost]

theorem denied_after_allow :
    containsHost ((network.upsertDomainPermission normalizedHost .allow normalizeHost).deniedDomains.getD [])
      normalizedHost = false ↔ normalizeHost normalizedHost = normalizedHost ∨
      containsHost (network.deniedDomains.getD []) normalizedHost = false := by
  have hmem : ∀ entry,
      entry ∈ (network.upsertDomainPermission normalizedHost .allow normalizeHost).deniedDomains.getD [] ↔
        entry ∈ network.deniedDomains.getD [] ∧ normalizeHost entry ≠ normalizeHost normalizedHost := by
    intro entry
    exact (mem_domainEntries_upsert (by decide)).trans (or_iff_right fun h => nomatch h.2)
  simp only [containsHost_eq_false, hmem]
  constructor
  · intro h
    by_cases hsame : normalizeHost normalizedHost = normalizedHost
    · exact inl hsame
    · refine inr fun entry hent hnorm => h entry ⟨hent, ?_⟩ hnorm
      rw [hnorm]
      exact Ne.symm hsame
  · rintro (hsame | h) entry ⟨hent, hne⟩ hnorm
    · exact hne (hnorm.trans hsame.symm)
    · exact h entry hent hnorm

variable (hglobs : BuildsLiterals tools.globBuilder) (hplain : NoGlobSyntax normalizedHost)
  (hlower : toAsciiLowercase normalizedHost = normalizedHost)
include hglobs hplain hlower

theorem matches_self_iff : PatternMatchesHostOrUnscoped tools.globBuilder normalizedHost normalizedHost ↔
    normalizeHost normalizedHost = normalizedHost := by
  have hsub : NoGlobSyntax (normalizeHost normalizedHost) := by
    intro c hc
    have hmem := ((normalizeHost_sublist _).trans ((trim_sublist normalizedHost).map _)).subset hc
    rw [← toAsciiLowercase, hlower] at hmem
    exact hplain c hmem
  rw [matchesHostOrUnscoped_of_plain hglobs hsub hlower, trim_normalizeHost_eq_iff]
  exact or_iff_left fun hip => unscoped_ne_trim_normalizeHost hplain hip rfl

theorem matches_of_normalizeHost_eq {entry : Text} (hent : normalizeHost entry = normalizedHost)
    (hsame : normalizeHost normalizedHost = normalizedHost) :
    PatternMatchesHostOrUnscoped tools.globBuilder entry normalizedHost := by
  rw [matchesHostOrUnscoped_of_plain hglobs (hent.symm ▸ hplain) hlower, hent]
  exact inl (trim_eq_of_normalizeHost_eq hsame)

theorem inEffect_of_listed (hcom : CompiledFromConfig tools state) (hhost : parse host = some normalizedHost)
    (hlis : ListedAlready state.config.network normalizedHost target) :
    InEffect state host target ↔ TakesEffect tools.globBuilder state.config.network normalizedHost target := by
  have hundenied : target = .allow →
      containsHost (state.config.network.deniedDomains.getD []) normalizedHost = false := by
    rintro rfl
    exact hlis.2
  rw [inEffect_iff hcom hhost]
  constructor
  · rintro ⟨⟨entry, hent, hmt⟩, _⟩
    exact ⟨inr ⟨entry, ⟨hent, inl hlis⟩, hmt⟩, fun h => inr (hundenied h)⟩
  · rintro ⟨hsame | ⟨entry, hstays, hmt⟩, _⟩
    · obtain ⟨entry, hent, hnorm⟩ := any_eq_true.mp hlis.1
      exact ⟨⟨entry, hent, matches_of_normalizeHost_eq hglobs hplain hlower (beq_iff_eq.mp hnorm) hsame⟩, hundenied⟩
    · exact ⟨⟨entry, hstays.1, hmt⟩, hundenied⟩

theorem inEffect_of_updated {previousCfg : NetworkProxyConfig} (hhost : parse host = some normalizedHost)
    (hupdated : UpdatedFrom tools previousCfg normalizedHost target newState) :
    InEffect newState host target ↔ TakesEffect tools.globBuilder previousCfg.network normalizedHost target := by
  rw [inEffect_iff hupdated.compiled hhost, hupdated.config]
  constructor
  · rintro ⟨⟨entry, hent, hmt⟩, hundenied⟩
    refine ⟨?_, fun h => ?_⟩
    · rcases mem_entries_upsert.mp hent with ⟨rfl, _⟩ | ⟨hold, hne⟩
      · exact inl ((matches_self_iff hglobs hplain hlower).mp hmt)
      · exact inr ⟨entry, ⟨hold, inr hne⟩, hmt⟩
    · subst h
      exact denied_after_allow.mp (hundenied rfl)
  · rintro ⟨hlis, hundenied⟩
    refine ⟨?_, fun h => ?_⟩
    · rcases hlis with hsame | ⟨entry, ⟨hold, hlis | hne⟩, hmt⟩
      · exact ⟨normalizedHost, mem_entries_upsert.mpr (inl ⟨rfl, rfl⟩),
          (matches_self_iff hglobs hplain hlower).mpr hsame⟩
      · exact absurd hlis hupdated.unlisted
      · exact ⟨entry, mem_entries_upsert.mpr (inr ⟨hold, hne⟩), hmt⟩
    · subst h
      exact denied_after_allow.mpr (hundenied rfl)

end

/-! ## Runs -/

section

variable {tools : ProxyTools} {Task : Type} [DecidableEq Task]

def Updating (tools : ProxyTools) (operation : Operation) (newState : ConfigState) (previousCfg : NetworkProxyConfig) :
    Prop :=
  ∃ host target, operation = .updateDomainList host target ∧
    UpdatedFrom tools previousCfg (normalizeHost host) target newState

theorem preserves_compiled {operation : Operation}
    (hreplaced : ∀ newState, operation = .replaceConfigState newState → CompiledFromConfig tools newState) :
    Preserves tools operation (CompiledFromConfig tools) (Updating tools operation) (fun _ _ => True) where
  record _ _ _ h := ⟨h.denySet, h.allowSet⟩
  replaced := hreplaced
  preparesUpdate _ host target _ hop h := ⟨host, target, hop, updatedFrom_of_updatedState h⟩
  writesUpdate _ _ := fun ⟨_, _, _, h⟩ => h.compiled
  preparesMode _ _ _ := trivial
  writesMode _ _ h _ := ⟨h.denySet, h.allowSet⟩

/-- Whenever an update of a list returns in a run, the host is denied or allowed from then on exactly if it takes
effect in the lists that the update found. -/
theorem session_update_takes_effect_iff (tools : ProxyTools) (hglobs : BuildsLiterals tools.globBuilder)
    (operations : Task → Operation) (hoperations : ∀ task newState, operations task = .replaceConfigState newState →
      CompiledFromConfig tools newState)
    (state : ConfigState) (hstate : CompiledFromConfig tools state) (ms : List (Move Task))
    (hms : ∀ m ∈ ms, ∀ newState, m.outside.reload = .fresh newState → CompiledFromConfig tools newState)
    (s : ProxySystem Task) (hrun : Run (ProxyStep tools operations) (.start state) ms s) (m : Move Task)
    (host normalizedHost : Text) (target : DomainListKind)
    (hoperation : operations m.task = .updateDomainList host target)
    (hhost : parse host = some normalizedHost) (hplain : NoGlobSyntax normalizedHost)
    (hpending : s.phases m.task ≠ .returned .ok) (hok : (s.move tools operations m).phases m.task = .returned .ok) :
    InEffect (s.move tools operations m).state host target ↔
      TakesEffect tools.globBuilder s.state.config.network normalizedHost target := by
  obtain ⟨hcom, hphases⟩ := Preserves.run (U := Updating tools)
    (fun task => preserves_compiled (hoperations task)) hstate hms hrun
  have hfits : PhasesFit operations s := 
    hrun.invariant (I := PhasesFit operations) (fun _ => trivial) fun _ _ _ h hstep => PhasesFit.step h hstep
  have hph := hphases m.task
  have hfit := hfits m.task
  have hnorm := normalizeHost_of_parse hhost
  have hlower : toAsciiLowercase normalizedHost = normalizedHost := hnorm ▸ toAsciiLowercase_normalizeHost host
  have hadv : (advance tools m.outside (.updateDomainList host target) s.state (s.phases m.task)).2.1 =
      .returned .ok := by
    rw [← hoperation, ← hok]
    exact (Function.update_self m.task _ s.phases).symm
  change InEffect (advance tools m.outside (operations m.task) s.state (s.phases m.task)).1 host target ↔ _
  rw [hoperation] at hph hfit ⊢
  generalize s.phases m.task = phase at *
  cases phase with
  | called =>
      rw [advance, call, hhost] at hadv
      cases hadv
  | checkReload =>
      rw [advance] at hadv
      split at hadv <;> cases hadv
  | readRecord newState => cases hadv
  | writeReload newState => cases hadv
  | act =>
      rw [advance, act, hnorm] at hadv ⊢
      split at hadv
      · cases hadv
      · exact inEffect_of_listed hglobs hplain hlower hcom hhost (listedAlready_of_updatedState ‹_›)
      · cases hadv
  | writeForced newState => cases hfit
  | writeUpdate newState previousCfg constraints =>
      obtain ⟨host', target', heq, hupdated⟩ := hph
      cases heq
      rw [hnorm] at hupdated
      rw [advance] at hadv ⊢
      split at hadv
      · cases hadv
      · rename_i hunchanged
        rw [if_neg hunchanged, not_not.mp (not_or.mp hunchanged).2]
        exact inEffect_of_updated hglobs hplain hlower hhost hupdated
  | writeMode mode constraints =>
      obtain ⟨mode', hmode⟩ := hfit
      cases hmode
  | returned outcome => exact absurd hadv hpending

end

/-! ## Hosts in brackets -/

/-- The globs without a character that has a meaning. -/
def literalTools : ProxyTools :=
  ⟨fun text => if NoGlobSyntax text then some fun host => toAsciiLowercase text == toAsciiLowercase host else none,
    asciiUrlHost, fun _ => .ok ()⟩

theorem buildsLiterals_literalTools : BuildsLiterals literalTools.globBuilder := fun _ hplain => if_pos hplain

theorem compiled_emptyState : CompiledFromConfig literalTools emptyState := ⟨rfl, rfl⟩

def denying (host : Text) : Unit → Operation := fun _ => .updateDomainList host .deny

def denyingMoves : List (Move Unit) := [⟨(), {}⟩, ⟨(), {}⟩, ⟨(), {}⟩]

theorem move_unit {tools : ProxyTools} {operations : Unit → Operation} {s : ProxySystem Unit} {state : ConfigState}
    {phase : Phase} (h : advance tools {} (operations ()) s.state (s.phases ()) = goTo state phase) :
    s.move tools operations ⟨(), {}⟩ = ⟨state, fun _ => phase, s.events⟩ := by
  have hphases : Function.update s.phases () phase = fun _ => phase := funext fun _ => rfl
  unfold ProxySystem.move
  rw [h]
  dsimp only [goTo]
  rw [hphases, map_nil, append_nil]

theorem exists_denying_run {host normalizedHost : Text} (hhost : parse host = some normalizedHost)
    (hnew : (updatedState literalTools emptyState normalizedHost .deny).toOption.any Option.isSome = true) :
    ∃ newState, updatedState literalTools emptyState normalizedHost .deny = .ok (some newState) ∧
      ∃ s : ProxySystem Unit, Run (ProxyStep literalTools (denying host)) (.start emptyState) denyingMoves s ∧
        s.phases () ≠ .returned .ok ∧ s.move literalTools (denying host) ⟨(), {}⟩ =
          ⟨newState.keepingRecord emptyState, fun _ => .returned .ok, []⟩ := by
  obtain ⟨newState, hnew⟩ : ∃ newState,
      updatedState literalTools emptyState normalizedHost .deny = .ok (some newState) := by
    cases hcase : updatedState literalTools emptyState normalizedHost .deny with
    | error error => rw [hcase] at hnew; cases hnew
    | ok updated =>
        cases updated with
        | none => rw [hcase] at hnew; cases hnew
        | some newState => exact ⟨newState, rfl⟩
  have hcall : advance literalTools {} (denying host ()) emptyState .called = goTo emptyState .checkReload := by
    rw [advance, denying, call, hhost]
  have hreload : advance literalTools {} (denying host ()) emptyState .checkReload = goTo emptyState .act := rfl
  have hact : advance literalTools {} (denying host ()) emptyState .act =
      goTo emptyState (.writeUpdate (newState.keepingRecord emptyState) {} {}) := by
    rw [advance, denying, act, normalizeHost_of_parse hhost, hnew]
    rfl
  refine ⟨newState, hnew, ⟨emptyState, fun _ => .writeUpdate (newState.keepingRecord emptyState) {} {}, []⟩, ?_, ?_, ?_⟩
  · have h₁ := move_unit (s := .start emptyState) hcall
    have h₂ := move_unit (s := ⟨emptyState, fun _ => .checkReload, []⟩) hreload
    have h₃ := move_unit (s := ⟨emptyState, fun _ => .act, []⟩) hact
    exact .cons h₁.symm (.cons h₂.symm (.cons h₃.symm (.nil _)))
  · rintro ⟨⟩
  · refine move_unit ?_
    rw [advance]
    exact if_neg (not_or.mpr ⟨not_not.mpr rfl, not_not.mpr rfl⟩)

/-- A denied host is denied at once. -/
theorem evil_denied_in_session : ∃ s : ProxySystem Unit,
    Run (ProxyStep literalTools (denying "Evil.com.".toList)) (.start emptyState) denyingMoves s ∧
      InEffect (s.move literalTools (denying "Evil.com.".toList) ⟨(), {}⟩).state "Evil.com.".toList .deny := by
  have hhost : parse "Evil.com.".toList = some "evil.com".toList := by decide +kernel
  obtain ⟨newState, _, s, hrun, hpend, hmove⟩ := exists_denying_run hhost (by decide +kernel)
  refine ⟨s, hrun, ?_⟩
  refine (session_update_takes_effect_iff literalTools buildsLiterals_literalTools (denying "Evil.com.".toList) ?_
    emptyState compiled_emptyState denyingMoves ?_ s hrun ⟨(), {}⟩ _ _ .deny rfl hhost (by decide +kernel) hpend
    (by rw [hmove])).mpr ⟨inl (by decide +kernel), fun h => nomatch h⟩
  · rintro _ _ ⟨⟩
  · intro m hm newState hfr
    obtain rfl : m = ⟨(), {}⟩ := by simpa [denyingMoves] using hm
    cases hfr

/-- The host in brackets is normalised with its port, and its glob is made without the port. -/
theorem bracketed_port_not_denied :
    ¬ ∀ (tools : ProxyTools), BuildsLiterals tools.globBuilder → ∀ operations : Unit → Operation,
      (∀ task newState, operations task = .replaceConfigState newState → CompiledFromConfig tools newState) →
      ∀ state, CompiledFromConfig tools state → ∀ ms : List (Move Unit),
        (∀ m ∈ ms, ∀ newState, m.outside.reload = .fresh newState → CompiledFromConfig tools newState) →
        ∀ s, Run (ProxyStep tools operations) (.start state) ms s → ∀ (m : Move Unit) host normalizedHost target,
          operations m.task = .updateDomainList host target → parse host = some normalizedHost →
          NoGlobSyntax normalizedHost → s.phases m.task ≠ .returned .ok →
          (s.move tools operations m).phases m.task = .returned .ok →
          InEffect (s.move tools operations m).state host target := by
  intro h
  have hhost : parse "[example.com:8080]".toList = some "example.com:8080".toList := by decide +kernel
  obtain ⟨newState, hnew, s, hrun, hpend, hmove⟩ := exists_denying_run hhost (by decide +kernel)
  have hden := h literalTools buildsLiterals_literalTools (denying "[example.com:8080]".toList)
    (by rintro _ _ ⟨⟩) emptyState compiled_emptyState denyingMoves (fun m hm newState hfr => ?_) s hrun ⟨(), {}⟩ _ _
    .deny rfl hhost (by decide +kernel) hpend (by rw [hmove]) (fun _ _ => none) 8080
  · rw [hmove] at hden
    have hblocked : (updatedState literalTools emptyState "example.com:8080".toList .deny).toOption.any (Option.any
        fun state => hostBlocked (fun _ _ => none) state "[example.com:8080]".toList 8080 != .blocked .denied) = true := by
      decide +kernel
    rw [hnew] at hblocked
    exact (bne_iff_ne.mp hblocked) hden
  · obtain rfl : m = ⟨(), {}⟩ := by simpa [denyingMoves] using hm
    cases hfr

end CodexStudy.NetworkProxy
