import CodexStudy.Sandbox.Permissions

/-!
# Paths with the same target resolve alike
-/

namespace CodexStudy.Sandbox

open CodexStudy.Lib List
open CodexStudy.ApplyPatch
open CodexStudy.ApplyPatch.AbsolutePath (components_append_slash components_cons_slash components_of_not_mem)

/-! ## Dots -/

/-- The parts of a path that the normalization looks at. -/
def undotted (path : Text) : List Text := (components path).filter (· ≠ ['.'])

theorem foldl_pushComponent_filter (cs out : List Text) :
    cs.foldl pushComponent out = (cs.filter (· ≠ ['.'])).foldl pushComponent out := by
  induction cs generalizing out with
  | nil => rfl
  | cons c cs ih =>
      by_cases hc : c = ['.']
      · simp [hc, pushComponent, ih]
      · simp [hc, ih]

theorem filter_pathParts (path : Text) : (pathParts path).filter (· ≠ ['.']) = undotted path := by
  unfold pathParts undotted
  split
  · rename_i cs h
    rw [h]
    split <;> simp
  · simp

theorem normalizeNames_pathWithBase {a b : Text} (habs : isAbsolute a ↔ isAbsolute b)
    (h : undotted a = undotted b) (base : AbsolutePath) :
    normalizeNames (pathWithBase a base) = normalizeNames (pathWithBase b base) := by
  unfold normalizeNames
  rw [foldl_pushComponent_filter (pathWithBase a base), foldl_pushComponent_filter (pathWithBase b base)]
  congr 1
  unfold pathWithBase
  unfold undotted at h
  by_cases ha : isAbsolute a
  · have ha' : a.head? = some '/' := ha
    have hb' : b.head? = some '/' := habs.mp ha
    rw [if_pos ha', if_pos hb', h]
  · have ha' : ¬ a.head? = some '/' := ha
    have hb' : ¬ b.head? = some '/' := fun hb => ha (habs.mpr hb)
    rw [if_neg ha', if_neg hb', filter_append, filter_append, h]

/-! ## The home directory -/

def StartsAtHome (path : Text) : Prop := path = ['~'] ∨ ∃ rest, path = '~' :: '/' :: rest

variable {path : Text}

theorem components_of_relative (habs : ¬ isAbsolute path) (hne : path ≠ []) : ∃ w, '/' ∉ w ∧ w ≠ [] ∧
      (path = w ∧ components path = [w] ∨
        ∃ rest, path = w ++ '/' :: rest ∧ components path = w :: components rest) := by
  let w := path.takeWhile (· != '/')
  have hw : '/' ∉ w := by
    intro hmem
    simpa using mem_takeWhile_imp hmem
  have hwne : w ≠ [] := by
    obtain ⟨c, cs, rfl⟩ := exists_cons_of_ne_nil hne
    have hc : c ≠ '/' := by simpa [isAbsolute] using habs
    simp [w, hc]
  have hspl : w ++ path.dropWhile (· != '/') = path := takeWhile_append_dropWhile
  refine ⟨w, hw, hwne, ?_⟩
  cases hd : path.dropWhile (· != '/') with
  | nil =>
      rw [hd, append_nil] at hspl
      exact Or.inl ⟨hspl.symm, by rw [← hspl, components_of_not_mem hw hwne]⟩
  | cons c rest =>
      have hc : c = '/' := by
        have := head_dropWhile_not (fun c : Char => c != '/') (show path.dropWhile (· != '/') ≠ [] by rw [hd]; simp)
        simpa [hd] using this
      rw [hd, hc] at hspl
      refine Or.inr ⟨rest, hspl.symm, ?_⟩
      rw [← hspl, components_append_slash, components_of_not_mem hw hwne, singleton_append]

theorem components_of_startsAtHome (h : StartsAtHome path) : ∃ cs, components path = ['~'] :: cs := by
  rcases h with rfl | ⟨rest, rfl⟩
  · exact ⟨[], components_of_not_mem (by decide) (by decide)⟩
  · refine ⟨components rest, ?_⟩
    rw [show '~' :: '/' :: rest = ['~'] ++ '/' :: rest from rfl, components_append_slash,
      components_of_not_mem (by decide) (by decide), singleton_append]

theorem not_isAbsolute_of_startsAtHome (h : StartsAtHome path) : ¬ isAbsolute path := by
  rcases h with rfl | ⟨rest, rfl⟩ <;> simp [isAbsolute]

theorem startsAtHome_iff (habs : ¬ isAbsolute path) : StartsAtHome path ↔ (pathParts path).head? = some ['~'] := by
  constructor
  · intro h
    obtain ⟨cs, hcs⟩ := components_of_startsAtHome h
    simp [pathParts, hcs]
  · intro h
    by_cases hne : path = []
    · rw [hne] at h
      cases h
    obtain ⟨w, _, _, hcase⟩ := components_of_relative habs hne
    have hw : w = ['~'] := by
      by_contra hw
      rcases hcase with ⟨_, hcs⟩ | ⟨rest, _, hcs⟩
      · by_cases hdot : w = ['.'] <;> simp [pathParts, hcs, habs, hdot, hw] at h
      · by_cases hdot : w = ['.'] <;> simp [pathParts, hcs, habs, hdot, hw] at h
    rcases hcase with ⟨hpath, _⟩ | ⟨rest, hpath, _⟩
    · exact Or.inl (hpath.trans hw)
    · exact Or.inr ⟨rest, by rw [hpath, hw]; rfl⟩

theorem components_joinPath (dir rest : Text) : components (joinPath dir rest) = components dir ++ components rest := by
  unfold joinPath
  split
  · rename_i h
    rcases h with rfl | h
    · rfl
    · obtain ⟨d, rfl⟩ := getLast?_eq_some_iff.mp h
      rw [append_assoc, singleton_append, components_append_slash, components_append_slash]
      simp [components]
  · exact components_append_slash dir rest

theorem components_dropWhile_slash (path : Text) : components (path.dropWhile (· == '/')) = components path := by
  induction path with
  | nil => rfl
  | cons c cs ih =>
      by_cases hc : c = '/'
      · rw [hc, components_cons_slash, ← ih]
        rfl
      · rw [dropWhile_cons_of_neg (by simpa using hc)]

theorem maybeExpand_of_startsAtHome (dir : Text) (h : StartsAtHome path) :
    (isAbsolute (maybeExpandHomeDirectory (some dir) path) ↔ isAbsolute dir) ∧
      undotted (maybeExpandHomeDirectory (some dir) path) = undotted dir ++ (undotted path).tail := by
  rcases h with rfl | ⟨rest, rfl⟩
  · refine ⟨Iff.rfl, ?_⟩
    have : undotted ['~'] = [['~']] := by decide
    rw [this]
    simp [maybeExpandHomeDirectory]
  · have hexp : maybeExpandHomeDirectory (some dir) ('~' :: '/' :: rest) = joinPath dir (rest.dropWhile (· == '/')) := rfl
    constructor
    · rw [hexp]
      cases dir with
      | nil =>
          have : (joinPath [] (rest.dropWhile (· == '/'))) = rest.dropWhile (· == '/') := by simp [joinPath]
          rw [this]
          unfold isAbsolute
          cases hd : rest.dropWhile (· == '/') with
          | nil => rfl
          | cons c cs =>
              have := head_dropWhile_not (fun c : Char => c == '/')
                (show rest.dropWhile (· == '/') ≠ [] by rw [hd]; simp)
              simpa [hd] using this
      | cons c cs =>
          unfold joinPath isAbsolute
          split <;> rfl
    · have htail : (undotted ('~' :: '/' :: rest)).tail = undotted rest := by
        unfold undotted
        rw [show '~' :: '/' :: rest = ['~'] ++ '/' :: rest from rfl, components_append_slash,
          components_of_not_mem (by decide) (by decide)]
        simp
      rw [htail, hexp]
      unfold undotted
      rw [components_joinPath, components_dropWhile_slash, filter_append]

theorem maybeExpand_of_not_startsAtHome (home : Option Text) (h : ¬ StartsAtHome path) :
    maybeExpandHomeDirectory home path = path := by
  unfold maybeExpandHomeDirectory
  split
  · exact absurd (Or.inl rfl) h
  · exact absurd (Or.inr ⟨_, rfl⟩) h
  · rfl

theorem join_of_samePath {a b : Text} (h : samePath a b = true) (env : ProcessEnv) (p : AbsolutePath) :
    p.join env a = p.join env b := by
  unfold samePath at h
  rw [Bool.and_eq_true, decide_eq_true_eq, beq_iff_eq] at h
  obtain ⟨habs, hpts⟩ := h
  have hund : undotted a = undotted b := by rw [← filter_pathParts, hpts, filter_pathParts]
  have hhome : StartsAtHome a ↔ StartsAtHome b := by
    by_cases ha : isAbsolute a
    · exact iff_of_false (fun h => not_isAbsolute_of_startsAtHome h ha)
        fun h => not_isAbsolute_of_startsAtHome h (habs.mp ha)
    · rw [startsAtHome_iff ha, startsAtHome_iff fun hb => ha (habs.mpr hb), hpts]
  apply AbsolutePath.ext_names
  change normalizeNames (pathWithBase (maybeExpandHomeDirectory env.homeDir a) p) =
    normalizeNames (pathWithBase (maybeExpandHomeDirectory env.homeDir b) p)
  by_cases ha : StartsAtHome a
  · cases hdir : env.homeDir with
    | none =>
        have (path : Text) : maybeExpandHomeDirectory none path = path := by
          unfold maybeExpandHomeDirectory
          rfl
        rw [this, this]
        exact normalizeNames_pathWithBase habs hund p
    | some dir =>
        obtain ⟨habs₁, hund₁⟩ := maybeExpand_of_startsAtHome dir ha
        obtain ⟨habs₂, hund₂⟩ := maybeExpand_of_startsAtHome dir (hhome.mp ha)
        exact normalizeNames_pathWithBase (habs₁.trans habs₂.symm) (by rw [hund₁, hund₂, hund]) p
  · rw [maybeExpand_of_not_startsAtHome _ ha, maybeExpand_of_not_startsAtHome _ fun hb => ha (hhome.mpr hb)]
    exact normalizeNames_pathWithBase habs hund p

end CodexStudy.Sandbox
