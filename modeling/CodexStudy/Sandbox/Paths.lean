import CodexStudy.ApplyPatch.FileSystem

/-!
# Paths of a process

An absolute path is read from a text with the home directory and the current directory of the process.
-/

namespace CodexStudy.ApplyPatch

open CodexStudy.Lib List

structure ProcessEnv where
  homeDir : Option Text := none
  currentDir : Option AbsolutePath := none
  tmpdir : Option Text := none

variable (env : ProcessEnv) (p : AbsolutePath) (path : Text)

def isAbsolute : Prop := path.head? = some '/'

instance (path : Text) : Decidable (isAbsolute path) := inferInstanceAs (Decidable (_ = _))

namespace AbsolutePath

def absolutizeFrom (base : AbsolutePath) : AbsolutePath where
  names := normalizeNames (pathWithBase path base)
  normal := foldl_pushComponent_normal pathWithBase_component (by simp)

/-- A relative path is resolved against the current directory; that fails where the directory is unknown. -/
def fromAbsolutePath : Option AbsolutePath :=
  let expanded := maybeExpandHomeDirectory env.homeDir path
  if isAbsolute expanded then some (absolutizeFrom expanded root)
  else env.currentDir.map fun cwd => absolutizeFrom expanded cwd

def join : AbsolutePath :=
  resolvePathAgainstBase env.homeDir path p

def fileName : Option Text := p.names.getLast?

/-- The path `q` is `p` or one of the directories above it. -/
def StartsWith (p q : AbsolutePath) : Prop := q.names <+: p.names

instance (p q : AbsolutePath) : Decidable (p.StartsWith q) := inferInstanceAs (Decidable (_ <+: _))

/-! ## The order of the paths -/

theorem StartsWith.refl : p.StartsWith p := prefix_refl p.names

theorem StartsWith.trans {p q r : AbsolutePath} (h : p.StartsWith q) (h' : q.StartsWith r) : p.StartsWith r :=
  List.IsPrefix.trans h' h

theorem StartsWith.antisymm {p q : AbsolutePath} (h : p.StartsWith q) (h' : q.StartsWith p) : p = q :=
  ext_names (List.IsPrefix.eq_of_length h' (Nat.le_antisymm h'.length_le h.length_le))

theorem startsWith_root : p.StartsWith root := nil_prefix

theorem StartsWith.of_length_le {p q r : AbsolutePath} (hq : p.StartsWith q) (hr : p.StartsWith r)
    (h : q.names.length ≤ r.names.length) : r.StartsWith q :=
  prefix_of_prefix_length_le hq hr h

theorem StartsWith.total {p q r : AbsolutePath} (hq : p.StartsWith q) (hr : p.StartsWith r) :
    q.StartsWith r ∨ r.StartsWith q := by
  rcases Nat.le_total q.names.length r.names.length with h | h
  · exact Or.inr (hq.of_length_le hr h)
  · exact Or.inl (hr.of_length_le hq h)

/-! ## Reading back what is displayed -/

theorem components_append_slash (x y : Text) : components (x ++ '/' :: y) = components x ++ components y := by
  unfold components
  rw [splitOn_append_cons_self, filter_append]

theorem components_cons_slash : components ('/' :: path) = components path :=
  components_append_slash [] path

theorem components_of_not_mem {n : Text} (h : '/' ∉ n) (hne : n ≠ []) : components n = [n] := by
  unfold components
  rw [splitOn_eq_singleton h]
  simp [hne]

theorem components_join {ns : List Text} (h : ∀ n ∈ ns, IsName n) : components (Text.join ['/'] ns) = ns := by
  induction ns with
  | nil => rfl
  | cons n ns ih =>
      obtain ⟨hne, _, _, hslash⟩ := h n mem_cons_self
      have ih := ih fun m hm => h m (mem_cons_of_mem _ hm)
      cases ns with
      | nil => simpa [Text.join] using components_of_not_mem hslash hne
      | cons m ms =>
          have : Text.join ['/'] (n :: m :: ms) = n ++ '/' :: Text.join ['/'] (m :: ms) := by
            simp [Text.join, intercalate]
          rw [this, components_append_slash, components_of_not_mem hslash hne, ih, singleton_append]

theorem components_display : components p.display = p.names := by
  rw [display, components_cons_slash, components_join p.normal]

theorem isAbsolute_display : isAbsolute p.display := rfl

theorem maybeExpandHomeDirectory_of_isAbsolute {home : Option Text} {path : Text} (h : isAbsolute path) :
    maybeExpandHomeDirectory home path = path := by
  unfold maybeExpandHomeDirectory
  split
  · cases h
  · cases h
  · rfl

theorem fromAbsolutePath_of_isAbsolute {path : Text} (h : isAbsolute path) :
    fromAbsolutePath env path = some (absolutizeFrom path root) := by
  unfold fromAbsolutePath
  simp only [maybeExpandHomeDirectory_of_isAbsolute h, if_pos h]

@[simp] theorem fromAbsolutePath_display :
    fromAbsolutePath env p.display = some p := by
  rw [fromAbsolutePath_of_isAbsolute env (isAbsolute_display p)]
  congr 1
  apply ext_names
  simp [absolutizeFrom, pathWithBase, show p.display.head? = some '/' from rfl, components_display,
    normalizeNames_names]

end AbsolutePath

end CodexStudy.ApplyPatch
