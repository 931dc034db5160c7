import CodexStudy.ShellCommand.SafeCommand
import CodexStudy.Lib.Lists

/-!
# Options that are hidden by backslashes

A script that is approved passes on only commands that would be approved, exactly when no word becomes a refused option
where the shell removes a backslash.
-/

namespace CodexStudy.ShellCommand

open CodexStudy.Lib List Node

/-! ## Removing backslashes -/

/-- A text without some of its backslashes, and without the ends of lines after some of them. -/
inductive Unescaped : Text → Text → Prop where
  | nil : Unescaped [] []
  | keep (c : Char) {raw shell : Text} : Unescaped raw shell → Unescaped (c :: raw) (c :: shell)
  | drop (c : Char) {raw shell : Text} : Unescaped raw shell → Unescaped ('\\' :: c :: raw) (c :: shell)
  | line {raw shell : Text} : Unescaped raw shell → Unescaped ('\\' :: '\n' :: raw) shell

namespace Unescaped

variable {raw shell p q : Text} {c : Char}

theorem refl (raw : Text) : Unescaped raw raw := by
  induction raw with
  | nil => exact .nil
  | cons c raw ih => exact .keep c ih

theorem append {raw' shell' : Text} (h : Unescaped raw shell) (h' : Unescaped raw' shell') :
    Unescaped (raw ++ raw') (shell ++ shell') := by
  induction h with
  | nil => exact h'
  | keep c _ ih => exact .keep c ih
  | drop c _ ih => exact .drop c ih
  | line _ ih => exact .line ih

theorem split (h : Unescaped (p ++ q) shell) (hp : '\\' ∉ p) : ∃ rest, shell = p ++ rest ∧ Unescaped q rest := by
  induction p generalizing shell with
  | nil => exact ⟨shell, rfl, h⟩
  | cons c p ih =>
      have hc : c ≠ '\\' := fun heq => hp (heq ▸ mem_cons_self)
      generalize hraw : c :: p ++ q = raw at h
      cases h with
      | nil => cases hraw
      | keep d h =>
          obtain ⟨rfl, rfl⟩ := cons.inj hraw
          obtain ⟨rest, rfl, hrest⟩ := ih h fun hmem => hp (mem_cons_of_mem _ hmem)
          exact ⟨rest, rfl, hrest⟩
      | _ => exact absurd (cons.inj hraw).1 hc

theorem eq_of_no_backslash (h : Unescaped raw shell) (hraw : '\\' ∉ raw) : shell = raw := by
  rw [← append_nil raw] at h
  obtain ⟨rest, rfl, hrest⟩ := h.split hraw
  cases hrest with
  | nil => exact append_nil raw

/-- A character that is neither a backslash nor the end of a line stays, with or without a backslash before it. -/
theorem split_at (h : Unescaped (p ++ c :: q) shell) (hbackslash : c ≠ '\\') (hline : c ≠ '\n') :
    ∃ front rest, shell = front ++ c :: rest ∧ Unescaped q rest := by
  generalize hraw : p ++ c :: q = raw at h
  induction h generalizing p with
  | nil => exact absurd hraw (by simp)
  | @keep d raw shell h ih =>
      cases p with
      | nil =>
          obtain ⟨rfl, rfl⟩ := cons.inj hraw
          exact ⟨[], shell, rfl, h⟩
      | cons e p =>
          obtain ⟨rfl, rfl⟩ := cons.inj hraw
          obtain ⟨front, rest, rfl, hrest⟩ := ih rfl
          exact ⟨e :: front, rest, rfl, hrest⟩
  | @drop d raw shell h ih =>
      cases p with
      | nil => exact absurd (cons.inj hraw).1 hbackslash
      | cons e p =>
          obtain ⟨-, hraw⟩ := cons.inj hraw
          cases p with
          | nil =>
              obtain ⟨rfl, rfl⟩ := cons.inj hraw
              exact ⟨[], shell, rfl, h⟩
          | cons e' p =>
              obtain ⟨rfl, rfl⟩ := cons.inj hraw
              obtain ⟨front, rest, rfl, hrest⟩ := ih rfl
              exact ⟨e' :: front, rest, rfl, hrest⟩
  | @line raw shell h ih =>
      cases p with
      | nil => exact absurd (cons.inj hraw).1 hbackslash
      | cons e p =>
          obtain ⟨-, hraw⟩ := cons.inj hraw
          cases p with
          | nil => exact absurd (cons.inj hraw).1 hline
          | cons e' p =>
              obtain ⟨-, rfl⟩ := cons.inj hraw
              exact ih rfl

end Unescaped

theorem unescapeWord_unescaped (raw : Text) : Unescaped raw (unescapeWord raw) := by
  fun_induction unescapeWord raw with
  | case1 => exact .nil
  | case2 c => exact .refl [c]
  | case3 rest ih => exact .line ih
  | case4 next rest hnext ih => exact .drop next ih
  | case5 c next rest hc ih => exact .keep c ih

theorem unescapeDoubleQuoted_unescaped (raw : Text) : Unescaped raw (unescapeDoubleQuoted raw) := by
  fun_induction unescapeDoubleQuoted raw with
  | case1 => exact .nil
  | case2 c => exact .refl [c]
  | case3 c next rest h ih =>
      obtain ⟨rfl, rfl⟩ := h
      exact .line ih
  | case4 c next rest _ h ih =>
      obtain ⟨rfl, -⟩ := h
      exact .drop next ih
  | case5 c next rest _ _ ih => exact .keep c ih

/-! ## Words -/

section

variable {node : Node} {raw : Text}

theorem isKind_false {kind other : String} (h : node.isKind kind = true) (hne : kind ≠ other) :
    node.isKind other = false := by
  refine beq_eq_false_iff_ne.mpr fun heq => hne (String.toList_injective ?_)
  rw [← beq_iff_eq.mp h, heq]

theorem parsePart_unescaped (h : parsePart node = some raw) : Unescaped raw (shellPart node) := by
  unfold parsePart at h
  unfold shellPart
  by_cases hword : node.isKind "word" = true
  · rw [hword, Bool.true_or, if_pos rfl] at h
    rw [if_pos hword, ← Option.some.inj h]
    exact unescapeWord_unescaped _
  · rw [Bool.eq_false_iff.mpr hword, Bool.false_or] at h
    rw [if_neg hword]
    by_cases hstring : node.isKind "string" = true
    · rw [isKind_false hstring (by decide), if_neg Bool.false_ne_true, if_pos hstring] at h
      unfold parseDoubleQuotedString at h
      simp only [hstring, if_true, Option.ite_none_right_eq_some] at h
      rw [if_pos hstring, h.2, Option.getD_some]
      exact unescapeDoubleQuoted_unescaped raw
    · rw [if_neg hstring] at h ⊢
      by_cases hraw : node.isKind "raw_string" = true
      · rw [isKind_false hraw (by decide), if_neg Bool.false_ne_true, if_pos hraw] at h
        unfold parseRawString at h
        rw [if_pos hraw] at h
        rw [if_pos hraw, h, Option.getD_some]
        exact .refl raw
      · rw [if_neg hraw] at h ⊢
        simp only [Option.ite_none_right_eq_some] at h
        rw [Option.some.inj h.2]
        exact .refl raw

theorem flatten_unescaped {raws shells : List Text} (h : List.Forall₂ Unescaped raws shells) :
    Unescaped raws.flatten shells.flatten := by
  induction h with
  | nil => exact .nil
  | cons h _ ih => exact h.append ih

theorem parseWord_unescaped (h : parseWord node = some raw) : Unescaped raw (shellWord node) := by
  unfold parseWord at h
  unfold shellWord
  split at h
  next hname =>
    rw [if_pos hname]
    obtain ⟨word, hword, hraw⟩ := Option.bind_eq_some_iff.mp h
    simp only [Option.ite_none_right_eq_some] at hraw
    rw [hword, Option.map_some, Option.getD_some, shellPart, if_pos hraw.1, ← Option.some.inj hraw.2]
    exact unescapeWord_unescaped _
  next hname =>
    rw [if_neg hname]
    split at h
    next hconcat =>
      rw [if_pos hconcat]
      obtain ⟨parts, hpts, hraw⟩ := Option.bind_eq_some_iff.mp h
      simp only [Option.ite_none_left_eq_some] at hraw
      rw [← Option.some.inj hraw.2]
      refine flatten_unescaped ?_
      rw [forall₂_map_right_iff]
      exact ((forall₂_of_mapM hpts).imp fun part raw hpart => parsePart_unescaped hpart).flip
    next hconcat =>
      rw [if_neg hconcat]
      exact parsePart_unescaped h

/-- The shell passes on the words that are checked, without some of their backslashes. -/
theorem shellArgv_unescaped {command : List Text} (h : parsePlainCommandFromNode node = some command) :
    List.Forall₂ Unescaped command (shellArgv node) := by
  unfold parsePlainCommandFromNode at h
  simp only [Option.ite_none_right_eq_some] at h
  unfold shellArgv
  rw [forall₂_map_right_iff]
  exact ((forall₂_of_mapM h.2).imp fun word raw hword => parseWord_unescaped hword).flip

end

/-! ## Commands of a script -/

theorem mem_nodesOf {node : Node} {nodes : List Node} : node ∈ nodesOf nodes ↔ ∃ top ∈ nodes, node ∈ top.nodes := by
  induction nodes with
  | nil =>
      rw [nodesOf]
      exact ⟨fun h => (by cases h), fun h => (by obtain ⟨_, h, -⟩ := h; cases h)⟩
  | cons first rest ih =>
      rw [nodesOf, mem_append, ih]
      exact (exists_mem_cons_iff (fun top : Node => node ∈ top.nodes) first rest).symm

theorem mem_commandNodes {fuel : Nat} {stack found result : List Node} (h : commandNodes fuel stack found = some result)
    {node : Node} : node ∈ result ↔
      node ∈ found ∨ node ∈ nodesOf stack ∧ (node.named && node.isKind "command") = true := by
  induction fuel generalizing stack found with
  | zero => cases h
  | succ fuel ih =>
      cases stack with
      | nil =>
          cases h
          exact ⟨.inl, fun h => h.elim id fun h => absurd h.1 (by rw [nodesOf]; exact not_mem_nil)⟩
      | cons top stack =>
          unfold commandNodes at h
          simp only [Option.ite_none_right_eq_some] at h
          have hnodes : top.nodes = top :: nodesOf top.children := by
            cases top with
            | mk kind named startByte text children => rw [nodes]; rfl
          have hmem : node ∈ nodesOf (top :: stack) ↔
              node = top ∨ node ∈ nodesOf (top.children.reverse ++ stack) := by
            rw [nodesOf, mem_append, hnodes, mem_cons, mem_nodesOf, mem_nodesOf, mem_nodesOf, or_assoc]
            refine or_congr_right ?_
            simp only [mem_append, mem_reverse, or_and_right, exists_or]
          rw [ih h.2, hmem, or_and_right]
          by_cases hcommand : (top.named && top.isKind "command") = true
          · rw [if_pos hcommand, mem_append, mem_singleton, or_assoc]
            refine or_congr_right (or_congr_left ⟨fun heq => ⟨heq, heq ▸ hcommand⟩, And.left⟩)
          · rw [if_neg hcommand]
            refine or_congr_right (Iff.symm (or_iff_right fun heq => hcommand (heq.1 ▸ heq.2)))

theorem exists_command {tree : Tree} {commands : List (List Text)} (h : tryParseWordOnlyCommandsSequence tree = some commands)
    {node : Node} (hnode : node ∈ tree.commands) : ∃ command ∈ commands, parsePlainCommandFromNode node = some command := by
  unfold tryParseWordOnlyCommandsSequence at h
  simp only [Option.ite_none_left_eq_some] at h
  obtain ⟨nodes, hnodes, hcommands⟩ := Option.bind_eq_some_iff.mp h.2
  obtain ⟨hmem, hcommand⟩ := mem_filter.mp hnode
  have hfnd : node ∈ nodes := by
    refine (mem_commandNodes hnodes).mpr (.inr ⟨mem_nodesOf.mpr ⟨tree.root, mem_singleton_self _, hmem⟩, hcommand⟩)
  exact exists_of_mapM_of_mem hcommands (mem_mergeSort.mpr hfnd)

/-! ## Names of programs -/

section

variable {raw shell name p q : Text}

def namedParts (raw : Text) : List Text := (raw.splitOn '/').filter fun part => part ≠ [] ∧ part ≠ ['.']

theorem namedParts_append (p q : Text) : namedParts (p ++ '/' :: q) = namedParts p ++ namedParts q := by
  have hspl : (p ++ '/' :: q).splitOn '/' = p.splitOn '/' ++ q.splitOn '/' :=
    splitOnP_append_cons p q (beq_self_eq_true '/')
  rw [namedParts, hspl, filter_append]
  rfl

theorem executableNameLookupKey_iff :
    executableNameLookupKey raw = some name ↔ (namedParts raw).getLast? = some name ∧ name ≠ ['.', '.'] := by
  unfold executableNameLookupKey
  rw [Option.filter_eq_some_iff, decide_eq_true_eq]
  rfl

theorem executableNameLookupKey_append (h : executableNameLookupKey q = some name) :
    executableNameLookupKey (p ++ '/' :: q) = some name := by
  rw [executableNameLookupKey_iff] at h ⊢
  rw [namedParts_append, getLast?_append, h.1, Option.some_or]
  exact ⟨rfl, h.2⟩

theorem namedParts_of_no_slash (h : '/' ∉ raw) : namedParts raw = [raw].filter fun part => part ≠ [] ∧ part ≠ ['.'] := by
  have hspl : raw.splitOn '/' = [raw] :=
    splitOnP_eq_singleton fun c hc => beq_eq_false_iff_ne.mpr fun heq => h (heq ▸ hc)
  rw [namedParts, hspl]

theorem mem_splitOn {c sep : Char} (h : c ∈ raw) : c = sep ∨ ∃ part ∈ raw.splitOn sep, c ∈ part := by
  induction raw with
  | nil => cases h
  | cons d raw ih =>
      rw [splitOn, splitOnP_cons_eq_if_modifyHead]
      rw [splitOn] at ih
      split
      next hd =>
        rcases mem_cons.mp h with rfl | h
        · exact .inl (beq_iff_eq.mp hd)
        · exact (ih h).imp id fun hpart => hpart.imp fun part hpart => ⟨mem_cons_of_mem _ hpart.1, hpart.2⟩
      next hd =>
        cases hpts : raw.splitOnP (· == sep) with
        | nil => exact absurd hpts (splitOnP_ne_nil _ raw)
        | cons first rest =>
            rw [modifyHead_cons]
            rcases mem_cons.mp h with rfl | h
            · exact .inr ⟨c :: first, mem_cons_self, mem_cons_self⟩
            · rcases ih h with hslash | ⟨part, hpart, hmem⟩
              · exact .inl hslash
              · rw [hpts] at hpart
                rcases mem_cons.mp hpart with rfl | hpart
                · exact .inr ⟨d :: part, mem_cons_self, mem_cons_of_mem _ hmem⟩
                · exact .inr ⟨part, mem_cons_of_mem _ hpart, hmem⟩

theorem eq_of_namedParts (h : '/' ∉ raw) (hname : (namedParts raw).getLast? = some name) : raw = name := by
  rw [namedParts_of_no_slash h] at hname
  exact (mem_singleton.mp (mem_filter.mp (mem_of_getLast? hname)).1).symm

/-- The end of a path that has the name has only slashes and dots besides. -/
theorem executableNameLookupKey_split (h : executableNameLookupKey raw = some name) :
    ∃ q, executableNameLookupKey q = some name ∧ (raw = q ∨ ∃ p, raw = p ++ '/' :: q) ∧
      ∀ c ∈ q, c ∈ name ∨ c = '/' ∨ c = '.' := by
  induction hn : raw.length using Nat.strongRecOn generalizing raw with
  | ind n ih =>
      by_cases hslash : '/' ∈ raw
      · obtain ⟨p, q, rfl, hp⟩ := eq_append_cons_of_mem hslash
        cases hpts : (namedParts q).getLast? with
        | some last =>
            -- The name is that of what follows the slash.
            have hlast : last = name := by
              have hkey := (executableNameLookupKey_iff.mp h).1
              rw [namedParts_append, getLast?_append, hpts, Option.some_or] at hkey
              exact Option.some.inj hkey
            have hq : executableNameLookupKey q = some name :=
              executableNameLookupKey_iff.mpr ⟨hlast ▸ hpts, (executableNameLookupKey_iff.mp h).2⟩
            obtain ⟨q', hq', hspl, hchars⟩ := ih q.length
              (by rw [← hn, length_append, length_cons]; omega) hq rfl
            refine ⟨q', hq', .inr ?_, hchars⟩
            rcases hspl with rfl | ⟨p', rfl⟩
            · exact ⟨p, rfl⟩
            · exact ⟨p ++ '/' :: p', by rw [append_assoc, cons_append]⟩
        | none =>
            refine ⟨p ++ '/' :: q, h, .inl rfl, fun c hc => ?_⟩
            have hkey := (executableNameLookupKey_iff.mp h).1
            rw [namedParts_append, getLast?_append, hpts, Option.none_or] at hkey
            rcases mem_append.mp hc with hc | hc
            · exact .inl (eq_of_namedParts hp hkey ▸ hc)
            · rcases mem_cons.mp hc with rfl | hc
              · exact .inr (.inl rfl)
              · rcases mem_splitOn hc with hc | ⟨part, hpart, hmem⟩
                · exact .inr (.inl hc)
                · have hnone := filter_eq_nil_iff.mp (getLast?_eq_none_iff.mp hpts) part hpart
                  rw [decide_eq_true_eq, not_and_or, not_not, not_not] at hnone
                  rcases hnone with rfl | rfl
                  · cases hmem
                  · exact .inr (.inr (mem_singleton.mp hmem))
      · refine ⟨raw, h, .inl rfl, fun c hc => .inl ?_⟩
        exact eq_of_namedParts hslash (executableNameLookupKey_iff.mp h).1 ▸ hc

theorem executableNameLookupKey_unescaped (hunes : Unescaped raw shell) (h : executableNameLookupKey raw = some name)
    (hname : '\\' ∉ name) : executableNameLookupKey shell = some name := by
  obtain ⟨q, hq, hraw, hchars⟩ := executableNameLookupKey_split h
  have hbackslash : '\\' ∉ q := by
    intro hmem
    rcases hchars _ hmem with hmem | hslash | hdot
    · exact hname hmem
    · cases hslash
    · cases hdot
  rcases hraw with rfl | ⟨p, rfl⟩
  · exact hunes.eq_of_no_backslash hbackslash ▸ hq
  · obtain ⟨front, rest, rfl, hrest⟩ := hunes.split_at (by decide) (by decide)
    rw [hrest.eq_of_no_backslash hbackslash]
    exact executableNameLookupKey_append hq

end

/-! ## Options -/

def refusedFor (command : List Text) (position : Nat) (cmd : Text) : List OptionPattern :=
  if cmd = "base64" then if position = 0 then [] else UNSAFE_BASE64_OPTIONS
  else if cmd = "find" then UNSAFE_FIND_OPTIONS
  else if cmd = "rg" then UNSAFE_RIPGREP_OPTIONS
  else if cmd = "git" then
    match findGitSubcommand command READ_ONLY_GIT_SUBCOMMANDS with
    | none => []
    | some (subcommandIdx, _) =>
        if position = 0 ∨ position = subcommandIdx then []
        else if position < subcommandIdx then UNSAFE_GIT_GLOBAL_OPTIONS
        else UNSAFE_GIT_SUBCOMMAND_OPTIONS
  else []

def refusedOptions (command : List Text) (position : Nat) : List OptionPattern :=
  ((command.head?.bind executableNameLookupKey).map (refusedFor command position)).getD []

/-- No word is a refused option that is read as another word. -/
def NoHiddenOption (command argv : List Text) : Prop :=
  ∀ (position : Nat) (raw shell : Text), command[position]? = some raw → argv[position]? = some shell → raw ≠ shell →
    matchesOptionPattern shell (refusedOptions command position) = false

section

variable {raws shells globals globals' rest rest' : List Text} {patterns : List OptionPattern} {arg raw shell sub : Text}

theorem none_match_iff (hlen : raws.length = shells.length)
    (hraws : ∀ raw ∈ raws, matchesOptionPattern raw patterns = false) :
    (∀ shell ∈ shells, matchesOptionPattern shell patterns = false) ↔
      ∀ (position : Nat) (raw shell : Text), raws[position]? = some raw → shells[position]? = some shell → raw ≠ shell →
        matchesOptionPattern shell patterns = false := by
  constructor
  · exact fun h position raw shell _ hsh _ => h shell (mem_of_getElem? hsh)
  · intro h shell hsh
    obtain ⟨position, hposition⟩ := mem_iff_getElem?.mp hsh
    have hlt : position < raws.length := hlen ▸ (List.getElem?_eq_some_iff.mp hposition).1
    by_cases hsame : raws[position] = shell
    · exact hsame ▸ hraws _ (getElem_mem hlt)
    · exact h position _ shell (getElem?_eq_getElem hlt) hposition hsame

theorem any_match_eq_false : (!raws.any fun arg => matchesOptionPattern arg patterns) = true ↔
    ∀ raw ∈ raws, matchesOptionPattern raw patterns = false := by
  rw [Bool.not_eq_true', any_eq_false]
  simp only [Bool.not_eq_true]

theorem matches_mono {more : List OptionPattern} (hsub : patterns ⊆ more)
    (h : matchesOptionPattern arg patterns = true) : matchesOptionPattern arg more = true := by
  obtain ⟨pattern, hmem, hmt⟩ := any_eq_true.mp h
  exact any_eq_true.mpr ⟨pattern, hsub hmem, hmt⟩

/-! ## The subcommand of git -/

theorem unsafe_of_inlineValue (h : matchesOptionPattern arg GIT_GLOBAL_OPTIONS_WITH_INLINE_VALUE = true) :
    matchesOptionPattern arg UNSAFE_GIT_GLOBAL_OPTIONS = true := by
  have hsub : ∀ pattern ∈ GIT_GLOBAL_OPTIONS_WITH_INLINE_VALUE, pattern ∈ UNSAFE_GIT_GLOBAL_OPTIONS := by decide
  exact matches_mono hsub h

theorem unsafe_of_value (h : GIT_GLOBAL_OPTIONS_WITH_VALUE.contains arg = true) :
    matchesOptionPattern arg UNSAFE_GIT_GLOBAL_OPTIONS = true := by
  have hex : ∀ option ∈ GIT_GLOBAL_OPTIONS_WITH_VALUE, .exact option ∈ UNSAFE_GIT_GLOBAL_OPTIONS := by decide
  exact any_eq_true.mpr ⟨.exact arg, hex arg (contains_iff_mem.mp h), beq_self_eq_true arg⟩

theorem subcommand_plain (h : sub ∈ READ_ONLY_GIT_SUBCOMMANDS) :
    matchesOptionPattern sub GIT_GLOBAL_OPTIONS_WITH_INLINE_VALUE = false ∧
      GIT_GLOBAL_OPTIONS_WITH_VALUE.contains sub = false ∧ (sub == "--" || sub.head? == some '-') = false ∧
      '\\' ∉ sub := by
  have hall : ∀ sub ∈ READ_ONLY_GIT_SUBCOMMANDS, matchesOptionPattern sub GIT_GLOBAL_OPTIONS_WITH_INLINE_VALUE = false ∧
      GIT_GLOBAL_OPTIONS_WITH_VALUE.contains sub = false ∧ (sub == "--" || sub.head? == some '-') = false ∧
      '\\' ∉ sub := by decide
  exact hall sub h

theorem findSubcommandFrom_split {n : Nat} (h : findSubcommandFrom READ_ONLY_GIT_SUBCOMMANDS false raws = some (n, sub))
    (hgls : ∀ arg ∈ raws.take n, matchesOptionPattern arg UNSAFE_GIT_GLOBAL_OPTIONS = false) :
    ∃ globals rest, raws = globals ++ sub :: rest ∧ globals.length = n ∧ (∀ arg ∈ globals, arg.head? = some '-') ∧
      sub ∈ READ_ONLY_GIT_SUBCOMMANDS := by
  induction raws generalizing n with
  | nil => cases h
  | cons arg raws ih =>
      unfold findSubcommandFrom at h
      rw [if_neg Bool.false_ne_true] at h
      split at h
      next hinline =>
        obtain ⟨⟨m, found⟩, -, heq⟩ := Option.map_eq_some_iff.mp h
        obtain ⟨rfl, rfl⟩ := Prod.mk.inj heq
        have href := unsafe_of_inlineValue hinline
        rw [hgls arg mem_cons_self] at href
        cases href
      next =>
        split at h
        next hval =>
          obtain ⟨⟨m, found⟩, -, heq⟩ := Option.map_eq_some_iff.mp h
          obtain ⟨rfl, rfl⟩ := Prod.mk.inj heq
          have href := unsafe_of_value hval
          rw [hgls arg mem_cons_self] at href
          cases href
        next =>
          split at h
          next hopt =>
            obtain ⟨⟨m, found⟩, hfnd, heq⟩ := Option.map_eq_some_iff.mp h
            obtain ⟨rfl, rfl⟩ := Prod.mk.inj heq
            obtain ⟨globals, rest, rfl, rfl, hdash, hsub⟩ := ih hfnd fun other hoth =>
              hgls other (mem_cons_of_mem _ hoth)
            refine ⟨arg :: globals, rest, rfl, rfl, forall_mem_cons.mpr ⟨?_, hdash⟩, hsub⟩
            rcases Bool.or_eq_true_iff.mp hopt with hdashes | hhead
            · rw [beq_iff_eq.mp hdashes]
              rfl
            · exact beq_iff_eq.mp hhead
          next =>
            simp only [Option.ite_none_right_eq_some] at h
            obtain ⟨rfl, rfl⟩ := Prod.mk.inj (Option.some.inj h.2)
            exact ⟨[], raws, rfl, rfl, fun arg hmem => (by cases hmem), contains_iff_mem.mp h.1⟩

theorem findSubcommandFrom_append (hdash : ∀ arg ∈ globals, arg.head? = some '-')
    (hgls : ∀ arg ∈ globals, matchesOptionPattern arg UNSAFE_GIT_GLOBAL_OPTIONS = false)
    (hsub : sub ∈ READ_ONLY_GIT_SUBCOMMANDS) :
    findSubcommandFrom READ_ONLY_GIT_SUBCOMMANDS false (globals ++ sub :: rest) = some (globals.length, sub) := by
  induction globals with
  | nil =>
      obtain ⟨hinline, hval, hopt, -⟩ := subcommand_plain hsub
      rw [nil_append, findSubcommandFrom, if_neg Bool.false_ne_true, hinline, if_neg Bool.false_ne_true, hval,
        if_neg Bool.false_ne_true, hopt, if_neg Bool.false_ne_true, if_pos (contains_iff_mem.mpr hsub)]
      rfl
  | cons arg globals ih =>
      have href := hgls arg mem_cons_self
      have hinline : ¬matchesOptionPattern arg GIT_GLOBAL_OPTIONS_WITH_INLINE_VALUE = true := fun h =>
        Bool.false_ne_true (href.symm.trans (unsafe_of_inlineValue h))
      have hval : ¬GIT_GLOBAL_OPTIONS_WITH_VALUE.contains arg = true := fun h =>
        Bool.false_ne_true (href.symm.trans (unsafe_of_value h))
      have hopt : (arg == "--" || arg.head? == some '-') = true := by
        rw [hdash arg mem_cons_self, beq_self_eq_true, Bool.or_true]
      rw [cons_append, findSubcommandFrom, if_neg Bool.false_ne_true, if_neg hinline, if_neg hval, if_pos hopt,
        ih (fun other hoth => hdash other (mem_cons_of_mem _ hoth)) fun other hoth =>
          hgls other (mem_cons_of_mem _ hoth)]
      rfl

theorem length_le_of_findSubcommandFrom {skipNext : Bool} {n : Nat} (hdash : ∀ arg ∈ globals, arg.head? = some '-')
    (h : findSubcommandFrom READ_ONLY_GIT_SUBCOMMANDS skipNext (globals ++ rest) = some (n, sub)) : globals.length ≤ n := by
  induction globals generalizing skipNext n with
  | nil => exact Nat.zero_le n
  | cons arg globals ih =>
      have hrest : ∀ other ∈ globals, other.head? = some '-' := fun other hoth => hdash other (mem_cons_of_mem _ hoth)
      have hopt : (arg == "--" || arg.head? == some '-') = true := by
        rw [hdash arg mem_cons_self, beq_self_eq_true, Bool.or_true]
      have hstep : ∀ skip : Bool, (findSubcommandFrom READ_ONLY_GIT_SUBCOMMANDS skip (globals ++ rest)).map
          (fun found => (found.1 + 1, found.2)) = some (n, sub) → (arg :: globals).length ≤ n := by
        intro skip hmap
        obtain ⟨⟨m, found⟩, hfnd, heq⟩ := Option.map_eq_some_iff.mp hmap
        obtain ⟨rfl, rfl⟩ := Prod.mk.inj heq
        exact Nat.succ_le_succ (ih hrest hfnd)
      rw [cons_append, findSubcommandFrom, hopt] at h
      simp only [if_true] at h
      split at h
      next => exact hstep _ h
      next =>
        split at h
        next => exact hstep _ h
        next =>
          split at h
          next => exact hstep _ h
          next => exact hstep _ h

/-! ## Git commands -/

variable {cmd0 shell0 : Text} {argv command : List Text}

variable (hkey : executableNameLookupKey cmd0 = some "git".toList)

include hkey in
theorem isSafeGitCommand_iff :
    isSafeGitCommand (cmd0 :: raws) = true ↔ ∃ globals sub rest, raws = globals ++ sub :: rest ∧
      (∀ arg ∈ globals, arg.head? = some '-' ∧ matchesOptionPattern arg UNSAFE_GIT_GLOBAL_OPTIONS = false) ∧
      sub ∈ READ_ONLY_GIT_SUBCOMMANDS ∧ (∀ arg ∈ rest, matchesOptionPattern arg UNSAFE_GIT_SUBCOMMAND_OPTIONS = false) ∧
      (sub = "branch" → gitBranchIsReadOnly rest = true) := by
  have hfind : findGitSubcommand (cmd0 :: raws) READ_ONLY_GIT_SUBCOMMANDS =
      (findSubcommandFrom READ_ONLY_GIT_SUBCOMMANDS false raws).map fun found => (found.1 + 1, found.2) := if_pos hkey
  unfold isSafeGitCommand
  rw [hfind]
  constructor
  · intro h
    cases hfnd : findSubcommandFrom READ_ONLY_GIT_SUBCOMMANDS false raws with
    | none =>
        rw [hfnd] at h
        cases h
    | some found =>
        obtain ⟨n, sub⟩ := found
        rw [hfnd] at h
        simp only [Option.map_some, take_succ_cons, drop_succ_cons, drop_zero] at h
        split at h
        next => cases h
        next hglobal =>
          have hgls : ∀ arg ∈ raws.take n, matchesOptionPattern arg UNSAFE_GIT_GLOBAL_OPTIONS = false :=
            any_match_eq_false.mp (Bool.not_eq_true' _ ▸ Bool.eq_false_iff.mpr hglobal)
          obtain ⟨globals, rest, rfl, rfl, hdash, hsub⟩ := findSubcommandFrom_split hfnd hgls
          rw [take_left] at hgls
          have hdrop : (globals ++ sub :: rest).drop (globals.length + 1) = rest := by
            rw [← drop_drop, drop_left]
            rfl
          rw [hdrop] at h
          refine ⟨globals, sub, rest, rfl, fun arg harg => ⟨hdash arg harg, hgls arg harg⟩, hsub, ?_, ?_⟩
          · split at h
            next => exact any_match_eq_false.mp (Bool.and_eq_true_iff.mp h).1
            next => exact any_match_eq_false.mp h
          · intro hbranch
            rw [if_pos hbranch] at h
            exact (Bool.and_eq_true_iff.mp h).2
  · rintro ⟨globals, sub, rest, rfl, hgls, hsub, hrest, hbranch⟩
    rw [findSubcommandFrom_append (fun arg harg => (hgls arg harg).1) (fun arg harg => (hgls arg harg).2) hsub]
    simp only [Option.map_some, take_succ_cons, drop_succ_cons, drop_zero, take_left]
    have hdrop : (globals ++ sub :: rest).drop (globals.length + 1) = rest := by
      rw [← drop_drop, drop_left]
      rfl
    have hglobal : ¬gitHasUnsafeGlobalOption globals = true := by
      intro h
      obtain ⟨arg, harg, href⟩ := any_eq_true.mp h
      rw [(hgls arg harg).2] at href
      cases href
    rw [if_neg hglobal, hdrop]
    split
    next hsame => exact Bool.and_eq_true_iff.mpr ⟨any_match_eq_false.mpr hrest, hbranch hsame⟩
    next => exact any_match_eq_false.mpr hrest

theorem head_unescaped (h : Unescaped raw shell) (hdash : raw.head? = some '-') : shell.head? = some '-' := by
  obtain ⟨raw, rfl⟩ := head?_eq_some_iff.mp hdash
  obtain ⟨rest, rfl, -⟩ := Unescaped.split (p := ['-']) h (by decide)
  rfl

theorem gitBranchIsReadOnly_unescaped (h : List.Forall₂ Unescaped raws shells) (hraws : gitBranchIsReadOnly raws = true) :
    gitBranchIsReadOnly shells = true := by
  induction h with
  | nil => rfl
  | @cons raw shell raws shells hunes _ ih =>
      obtain ⟨hraw, hrest⟩ := Bool.and_eq_true_iff.mp hraws
      refine Bool.and_eq_true_iff.mpr ⟨?_, ih hrest⟩
      rcases Bool.or_eq_true_iff.mp hraw with hflag | hformat
      · have hpl : ∀ flag ∈ GIT_BRANCH_READ_ONLY_FLAGS, '\\' ∉ flag := by decide
        have hmem := contains_iff_mem.mp hflag
        rw [hunes.eq_of_no_backslash (hpl raw hmem)]
        exact hraw
      · obtain ⟨tail, rfl⟩ := isPrefixOf_iff_prefix.mp hformat
        obtain ⟨tail', rfl, -⟩ := hunes.split (by decide)
        exact Bool.or_eq_true_iff.mpr (.inr ( isPrefixOf_iff_prefix.mpr (prefix_append _ _)))

theorem exists_of_forall₂_mem (h : List.Forall₂ Unescaped raws shells) (hmem : shell ∈ shells) :
    ∃ raw ∈ raws, Unescaped raw shell := by
  obtain ⟨n, hn, rfl⟩ := getElem_of_mem hmem
  exact ⟨raws.get ⟨n, h.length_eq.symm ▸ hn⟩, get_mem _ _, h.get _ hn⟩

include hkey in
theorem noHiddenOption_git
    (hdash : ∀ arg ∈ globals, arg.head? = some '-' ∧ matchesOptionPattern arg UNSAFE_GIT_GLOBAL_OPTIONS = false)
    (hsub : sub ∈ READ_ONLY_GIT_SUBCOMMANDS)
    (hrest : ∀ arg ∈ rest, matchesOptionPattern arg UNSAFE_GIT_SUBCOMMAND_OPTIONS = false)
    (hglobalsLength : globals.length = globals'.length) (hrestLength : rest.length = rest'.length) :
    NoHiddenOption (cmd0 :: (globals ++ sub :: rest)) (shell0 :: (globals' ++ sub :: rest')) ↔
      (∀ arg ∈ globals', matchesOptionPattern arg UNSAFE_GIT_GLOBAL_OPTIONS = false) ∧
      ∀ arg ∈ rest', matchesOptionPattern arg UNSAFE_GIT_SUBCOMMAND_OPTIONS = false := by
  have hrefused : ∀ position, refusedOptions (cmd0 :: (globals ++ sub :: rest)) position =
      if position = 0 ∨ position = globals.length + 1 then []
      else if position < globals.length + 1 then UNSAFE_GIT_GLOBAL_OPTIONS else UNSAFE_GIT_SUBCOMMAND_OPTIONS := by
    intro position
    have hfind : findGitSubcommand (cmd0 :: (globals ++ sub :: rest)) READ_ONLY_GIT_SUBCOMMANDS =
        some (globals.length + 1, sub) := by
      refine (if_pos hkey).trans ?_
      rw [drop_one, tail_cons,
        findSubcommandFrom_append (fun arg harg => (hdash arg harg).1) (fun arg harg => (hdash arg harg).2) hsub]
      rfl
    unfold refusedOptions
    rw [head?_cons, Option.bind_some, hkey, Option.map_some, Option.getD_some, refusedFor, hfind]
    rfl
  rw [none_match_iff hglobalsLength fun arg harg => (hdash arg harg).2, none_match_iff hrestLength hrest]
  constructor
  · intro h
    constructor
    · intro position raw shell hraw hsh hne
      have hlt : position < globals.length := (List.getElem?_eq_some_iff.mp hraw).1
      have href := h (position + 1) raw shell (by rw [getElem?_cons_succ, getElem?_append_left hlt, hraw])
        (by rw [getElem?_cons_succ, getElem?_append_left (hglobalsLength ▸ hlt), hsh]) hne
      rwa [hrefused, if_neg (by omega), if_pos (by omega)] at href
    · intro position raw shell hraw hsh hne
      have href := h (globals.length + 1 + position + 1) raw shell
        (by rw [getElem?_cons_succ, getElem?_append_right (by omega), Nat.add_assoc, Nat.add_sub_cancel_left,
          Nat.add_comm 1, getElem?_cons_succ, hraw])
        (by rw [getElem?_cons_succ, hglobalsLength, getElem?_append_right (by omega), Nat.add_assoc,
          Nat.add_sub_cancel_left, Nat.add_comm 1, getElem?_cons_succ, hsh]) hne
      rwa [hrefused, if_neg (by omega), if_neg (by omega)] at href
  · rintro ⟨hgls', hrest'⟩ position raw shell hraw hsh hne
    rw [hrefused]
    split
    next => rfl
    next hpl =>
      obtain ⟨position, rfl⟩ := Nat.exists_eq_add_one_of_ne_zero fun h => hpl (.inl h)
      rw [getElem?_cons_succ] at hraw hsh
      split
      next hlt =>
        rw [getElem?_append_left (by omega)] at hraw
        rw [getElem?_append_left (by omega)] at hsh
        exact hgls' position raw shell hraw hsh hne
      next hge =>
        have hspl : position = globals.length + (position - globals.length - 1 + 1) := by omega
        rw [hspl, getElem?_append_right (by omega), Nat.add_sub_cancel_left, getElem?_cons_succ] at hraw
        rw [hspl, hglobalsLength, getElem?_append_right (by omega), Nat.add_sub_cancel_left,
          getElem?_cons_succ] at hsh
        exact hrest' _ raw shell hraw (by rw [hglobalsLength]; exact hsh) hne

include hkey in
theorem isSafeGitCommand_unescaped
    (hkey' : executableNameLookupKey shell0 = some "git".toList) (hunes : List.Forall₂ Unescaped raws shells)
    (h : isSafeGitCommand (cmd0 :: raws) = true) :
    isSafeGitCommand (shell0 :: shells) = true ↔ NoHiddenOption (cmd0 :: raws) (shell0 :: shells) := by
  obtain ⟨globals, sub, rest, rfl, hgls, hsub, hrest, hbranch⟩ := (isSafeGitCommand_iff hkey).mp h
  obtain ⟨globals', tail, hgls', htail, rfl⟩ := forall₂_append_left hunes
  obtain ⟨sub', rest', hsub', hrest', rfl⟩ := forall₂_cons_left_iff.mp htail
  obtain rfl := hsub'.eq_of_no_backslash (subcommand_plain hsub).2.2.2
  have hdash' : ∀ arg ∈ globals', arg.head? = some '-' := by
    intro arg harg
    obtain ⟨raw, hraw, hunes⟩ := exists_of_forall₂_mem hgls' harg
    exact head_unescaped hunes (hgls raw hraw).1
  rw [noHiddenOption_git hkey hgls hsub hrest hgls'.length_eq hrest'.length_eq]
  constructor
  · intro hsafe
    obtain ⟨found, sub'', tail, heq, hfnd, hsub'', htail, -⟩ := (isSafeGitCommand_iff hkey').mp hsafe
    have hfind : findSubcommandFrom READ_ONLY_GIT_SUBCOMMANDS false (globals' ++ sub' :: rest') =
        some (found.length, sub'') := by
      rw [heq]
      exact findSubcommandFrom_append (fun arg harg => (hfnd arg harg).1) (fun arg harg => (hfnd arg harg).2) hsub''
    have hsts : globals' <+: found := by
      refine prefix_of_prefix_length_le (prefix_append globals' (sub' :: rest')) ?_
        (length_le_of_findSubcommandFrom hdash' hfind)
      exact heq ▸ prefix_append found (sub'' :: tail)
    have href : ∀ arg ∈ globals', matchesOptionPattern arg UNSAFE_GIT_GLOBAL_OPTIONS = false :=
      fun arg harg => (hfnd arg (hsts.subset harg)).2
    rw [findSubcommandFrom_append hdash' href hsub, Option.some.injEq, Prod.mk.injEq] at hfind
    obtain ⟨rfl, htails⟩ := append_inj heq hfind.1
    obtain ⟨-, rfl⟩ := cons.inj htails
    exact ⟨href, htail⟩
  · rintro ⟨href, htail⟩
    refine (isSafeGitCommand_iff hkey').mpr ⟨globals', sub', rest', rfl, fun arg harg => ⟨hdash' arg harg, href arg harg⟩,
      hsub, htail, fun hsame => gitBranchIsReadOnly_unescaped hrest' (hbranch hsame)⟩

/-! ## Commands -/

theorem noHiddenOption_of_nil (h : ∀ position, refusedOptions command position = []) : NoHiddenOption command argv := by
  intro position raw shell _ _ _
  rw [h position]
  rfl

theorem noHiddenOption_all (h : ∀ position, refusedOptions command position = patterns)
    (hlen : command.length = argv.length) (hcommand : ∀ raw ∈ command, matchesOptionPattern raw patterns = false) :
    NoHiddenOption command argv ↔ ∀ shell ∈ argv, matchesOptionPattern shell patterns = false := by
  rw [none_match_iff hlen hcommand]
  unfold NoHiddenOption
  simp only [h]

theorem noHiddenOption_args (hzero : refusedOptions (cmd0 :: raws) 0 = [])
    (h : ∀ position, refusedOptions (cmd0 :: raws) (position + 1) = patterns) (hlen : raws.length = shells.length)
    (hraws : ∀ raw ∈ raws, matchesOptionPattern raw patterns = false) :
    NoHiddenOption (cmd0 :: raws) (shell0 :: shells) ↔ ∀ shell ∈ shells, matchesOptionPattern shell patterns = false := by
  rw [none_match_iff hlen hraws]
  constructor
  · intro hhidden position raw shell hraw hsh hne
    exact h position ▸ hhidden (position + 1) raw shell hraw hsh hne
  · intro hhidden position raw shell hraw hsh hne
    cases position with
    | zero =>
        rw [hzero]
        rfl
    | succ position =>
        rw [h position]
        exact hhidden position raw shell hraw hsh hne

theorem isDigit_ne_backslash {c : Char} (h : c.isDigit = true) : c ≠ '\\' := by
  rintro rfl
  cases h

theorem plain_sedNArg (h : isValidSedNArg arg = true) : '\\' ∉ arg := by
  obtain ⟨hlast, hpts⟩ := Bool.and_eq_true_iff.mp h
  obtain ⟨front, rfl⟩ := getLast?_eq_some_iff.mp (beq_iff_eq.mp hlast)
  rw [dropLast_concat] at hpts
  have hdigits : ∀ part ∈ front.splitOn ',', ∀ c ∈ part, c.isDigit = true := by
    have hpart : ∀ part, isAsciiDigits part = true → ∀ c ∈ part, c.isDigit = true :=
      fun part hpart => all_eq_true.mp (Bool.and_eq_true_iff.mp hpart).2
    split at hpts
    next num hspl =>
      rw [hspl]
      exact fun part hmem => mem_singleton.mp hmem ▸ hpart num hpts
    next a b hspl =>
      rw [hspl]
      obtain ⟨ha, hb⟩ := Bool.and_eq_true_iff.mp hpts
      intro part hmem
      rcases mem_cons.mp hmem with rfl | hmem
      · exact hpart part ha
      · exact mem_singleton.mp hmem ▸ hpart b hb
    next => cases hpts
  intro hmem
  rcases mem_append.mp hmem with hmem | hmem
  · rcases @mem_splitOn _ _ ',' hmem with hcomma | ⟨part, hpart, hmem⟩
    · cases hcomma
    · exact isDigit_ne_backslash (hdigits part hpart _ hmem) rfl
  · cases mem_singleton.mp hmem

theorem isSafeSed_unescaped (hunes : List.Forall₂ Unescaped command argv)
    (h : isSafeSed command = true) : isSafeSed argv = true := by
  unfold isSafeSed at h ⊢
  have hlen := hunes.length_eq
  obtain ⟨hfst, hvalid⟩ := Bool.and_eq_true_iff.mp h
  obtain ⟨hle, hn⟩ := Bool.and_eq_true_iff.mp hfst
  have hsame : ∀ (position : Nat) (raw : Text), command[position]? = some raw → '\\' ∉ raw → argv[position]? = some raw := by
    intro position raw hraw hpl
    obtain ⟨hlt, heq⟩ := List.getElem?_eq_some_iff.mp hraw
    have hpair := hunes.get hlt (hlen ▸ hlt)
    rw [getElem?_eq_getElem (hlen ▸ hlt)]
    rw [get_eq_getElem, heq] at hpair
    exact congrArg some (hpair.eq_of_no_backslash hpl)
  obtain ⟨arg, harg, hvalidArg⟩ := (Option.any_eq_true _ _).mp hvalid
  rw [← hlen, hle, hsame 1 _ (beq_iff_eq.mp hn) (by decide), hsame 2 arg harg (plain_sedNArg hvalidArg)]
  exact hvalidArg

/-! ## Programs that may be called -/

/-- The programs that some command may call. -/
inductive SafeProgram (linux : Bool) : Text → Prop where
  | readOnly {cmd : Text} : (linux && LINUX_READ_ONLY_PROGRAMS.contains cmd || READ_ONLY_PROGRAMS.contains cmd) = true →
      SafeProgram linux cmd
  | base64 : SafeProgram linux "base64"
  | find : SafeProgram linux "find"
  | rg : SafeProgram linux "rg"
  | git : SafeProgram linux "git"
  | sed : SafeProgram linux "sed"

section

variable {linux : Bool} {cmd0 cmd : Text}

theorem safeProgram_of_safe (hkey : executableNameLookupKey cmd0 = some cmd)
    (h : isSafeToCallWithExec linux (cmd0 :: raws) = true) : SafeProgram linux cmd := by
  unfold isSafeToCallWithExec at h
  simp only [hkey] at h
  split at h
  next hmem => exact .readOnly (Bool.or_eq_true_iff.mpr (.inl hmem))
  next =>
    split at h
    next hmem => exact .readOnly (Bool.or_eq_true_iff.mpr (.inr hmem))
    next =>
      split at h
      next hcmd => exact hcmd ▸ .base64
      next =>
        split at h
        next hcmd => exact hcmd ▸ .find
        next =>
          split at h
          next hcmd => exact hcmd ▸ .rg
          next =>
            split at h
            next hcmd => exact hcmd ▸ .git
            next => exact of_decide_eq_true (Bool.and_eq_true_iff.mp h).1 ▸ .sed

theorem SafeProgram.plain (h : SafeProgram linux cmd) : '\\' ∉ cmd := by
  cases h with
  | readOnly hmem =>
      have hpl : ∀ cmd ∈ LINUX_READ_ONLY_PROGRAMS ++ READ_ONLY_PROGRAMS, '\\' ∉ cmd := by decide
      refine hpl cmd (mem_append.mpr ((Bool.or_eq_true_iff.mp hmem).imp (fun h => ?_) contains_iff_mem.mp))
      exact contains_iff_mem.mp (Bool.and_eq_true_iff.mp h).2
  | _ => decide

theorem isSafe_readOnly (hkey : executableNameLookupKey cmd0 = some cmd)
    (hmem : (linux && LINUX_READ_ONLY_PROGRAMS.contains cmd || READ_ONLY_PROGRAMS.contains cmd) = true) :
    isSafeToCallWithExec linux (cmd0 :: raws) = true := by
  unfold isSafeToCallWithExec
  simp only [hkey]
  rcases Bool.or_eq_true_iff.mp hmem with hmem | hmem
  · exact if_pos hmem
  · rw [if_pos hmem]
    exact ite_self _

theorem isSafe_checked (hkey : executableNameLookupKey cmd0 = some cmd)
    (hcmd : cmd ∈ ["base64".toList, "find".toList, "rg".toList, "git".toList, "sed".toList]) :
    isSafeToCallWithExec linux (cmd0 :: raws) =
      if cmd = "base64".toList then !raws.any fun arg => matchesOptionPattern arg UNSAFE_BASE64_OPTIONS
      else if cmd = "find".toList then !(cmd0 :: raws).any fun arg => matchesOptionPattern arg UNSAFE_FIND_OPTIONS
      else if cmd = "rg".toList then !(cmd0 :: raws).any fun arg => matchesOptionPattern arg UNSAFE_RIPGREP_OPTIONS
      else if cmd = "git".toList then isSafeGitCommand (cmd0 :: raws)
      else cmd = "sed".toList && isSafeSed (cmd0 :: raws) := by
  have hnotRead : ∀ cmd ∈ ["base64".toList, "find".toList, "rg".toList, "git".toList, "sed".toList],
      LINUX_READ_ONLY_PROGRAMS.contains cmd = false ∧ READ_ONLY_PROGRAMS.contains cmd = false := by decide
  obtain ⟨hlinux, hread⟩ := hnotRead cmd hcmd
  unfold isSafeToCallWithExec
  simp only [hkey]
  rw [hlinux, hread, Bool.and_false, if_neg Bool.false_ne_true, if_neg Bool.false_ne_true]

theorem refusedOptions_eq (hkey : executableNameLookupKey cmd0 = some cmd) (position : Nat) :
    refusedOptions (cmd0 :: raws) position = refusedFor (cmd0 :: raws) position cmd := by
  unfold refusedOptions
  rw [head?_cons, Option.bind_some, hkey]
  rfl

theorem refusedFor_other {command : List Text} {position : Nat}
    (h : cmd ∉ ["base64".toList, "find".toList, "rg".toList, "git".toList]) : refusedFor command position cmd = [] := by
  simp only [mem_cons, not_mem_nil, or_false, not_or] at h
  unfold refusedFor
  rw [if_neg h.1, if_neg h.2.1, if_neg h.2.2.1, if_neg h.2.2.2]

end

theorem isSafeToCallWithExec_unescaped {linux : Bool} (h : isSafeToCallWithExec linux command = true)
    (hunes : List.Forall₂ Unescaped command argv) :
    isSafeToCallWithExec linux argv = true ↔ NoHiddenOption command argv := by
  cases hunes with
  | nil => cases h
  | @cons cmd0 shell0 raws shells hunes0 hunes =>
      have hlen : (cmd0 :: raws).length = (shell0 :: shells).length := congrArg Nat.succ hunes.length_eq
      cases hkey : executableNameLookupKey cmd0 with
      | none =>
          unfold isSafeToCallWithExec at h
          simp only [hkey] at h
          cases h
      | some cmd =>
          have hprogram := safeProgram_of_safe hkey h
          have hkey' := executableNameLookupKey_unescaped hunes0 hkey hprogram.plain
          have hrefused := @refusedOptions_eq raws _ _ hkey
          cases hprogram with
          | readOnly hmem =>
              refine iff_of_true (isSafe_readOnly hkey' hmem) (noHiddenOption_of_nil fun position => ?_)
              have hoth : ∀ cmd ∈ LINUX_READ_ONLY_PROGRAMS ++ READ_ONLY_PROGRAMS,
                  cmd ∉ ["base64".toList, "find".toList, "rg".toList, "git".toList] := by decide
              rw [hrefused, refusedFor_other (hoth cmd ?_)]
              refine mem_append.mpr ((Bool.or_eq_true_iff.mp hmem).imp (fun h => ?_) contains_iff_mem.mp)
              exact contains_iff_mem.mp (Bool.and_eq_true_iff.mp h).2
          | base64 =>
              rw [isSafe_checked hkey (by decide), if_pos rfl, any_match_eq_false] at h
              rw [isSafe_checked hkey' (by decide), if_pos rfl, any_match_eq_false]
              exact (noHiddenOption_args (hrefused 0) (fun position => hrefused (position + 1)) hunes.length_eq h).symm
          | find =>
              rw [isSafe_checked hkey (by decide), if_neg (by decide), if_pos rfl, any_match_eq_false] at h
              rw [isSafe_checked hkey' (by decide), if_neg (by decide), if_pos rfl, any_match_eq_false]
              exact (noHiddenOption_all hrefused hlen h).symm
          | rg =>
              rw [isSafe_checked hkey (by decide), if_neg (by decide), if_neg (by decide), if_pos rfl,
                any_match_eq_false] at h
              rw [isSafe_checked hkey' (by decide), if_neg (by decide), if_neg (by decide), if_pos rfl, any_match_eq_false]
              exact (noHiddenOption_all hrefused hlen h).symm
          | git =>
              rw [isSafe_checked hkey (by decide), if_neg (by decide), if_neg (by decide), if_neg (by decide),
                if_pos rfl] at h
              rw [isSafe_checked hkey' (by decide), if_neg (by decide), if_neg (by decide), if_neg (by decide), if_pos rfl]
              exact isSafeGitCommand_unescaped hkey hkey' hunes h
          | sed =>
              rw [isSafe_checked hkey (by decide), if_neg (by decide), if_neg (by decide), if_neg (by decide),
                if_neg (by decide)] at h
              rw [isSafe_checked hkey' (by decide), if_neg (by decide), if_neg (by decide), if_neg (by decide),
                if_neg (by decide)]
              refine iff_of_true ?_ (noHiddenOption_of_nil fun position => ?_)
              · exact Bool.and_eq_true_iff.mpr ⟨rfl, isSafeSed_unescaped (.cons hunes0 hunes) h⟩
              · rw [hrefused, refusedFor_other (by decide)]

/-! ## Scripts -/

end

/-! ## Trees of scripts -/

/-- A character of a word that stands for itself, and is no glob or tilde. -/
def isPlainChar (c : Char) : Bool :=
  !Text.isWhitespace c && !"'\"<>\x7b\x7d[]()\x60$|&;\\*?~".toList.contains c

def isWordText : Text → Bool
  | [] => true
  | [c] => isPlainChar c
  | c :: next :: rest =>
      if c = '\\' then !Text.isWhitespace next && isWordText rest else isPlainChar c && isWordText (next :: rest)

/-- Between double quotes nothing is expanded and no quote ends the string. -/
def isStringText : Text → Bool
  | [] => true
  | [c] => !(['"', '$', '\x60', '\\'].contains c)
  | c :: next :: rest =>
      if c = '\\' then isStringText rest else !(['"', '$', '\x60'].contains c) && isStringText (next :: rest)

def isWordNode (node : Node) : Bool :=
  node.isKind "word" || node.isKind "number" || node.isKind "string" || node.isKind "raw_string" ||
    node.isKind "concatenation"

def isScriptNode (node : Node) : Bool :=
  if node.isKind "word" then node.text ≠ [] && isWordText node.text
  else if node.isKind "number" then isAsciiDigits node.text
  else if node.isKind "string" then (stripQuotes '"' node.text).any isStringText
  else if node.isKind "raw_string" then (stripQuotes '\'' node.text).any fun text => !text.contains '\''
  else if node.isKind "concatenation" then
    node.namedChildren.all fun part => isWordNode part && !part.isKind "concatenation"
  else if node.isKind "command_name" then
    node.namedChildren.length == 1 && node.namedChildren.all isWordNode
  else if node.isKind "command" then
    node.namedChildren.head?.any (·.isKind "command_name") && node.namedChildren.tail.all isWordNode
  else true

/-- A tree of a script with such words. -/
def Tree.IsScript (tree : Tree) : Prop :=
  tree.hasError = false ∧ tree.root.isKind "program" = true ∧ tree.root.nodes.all isScriptNode = true

def commandTree (name arg : Text) : Tree where
  root :=
    let script := name ++ ' ' :: arg
    let nameNode := .mk "command_name" true 0 name [.mk "word" true 0 name []]
    .mk "program" true 0 script [.mk "command" true 0 script
      [nameNode, .mk "word" true (name.length + 1) arg []]]
  hasError := false

end CodexStudy.ShellCommand
