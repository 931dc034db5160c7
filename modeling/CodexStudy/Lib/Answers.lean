import Mathlib.Data.List.Basic
import Mathlib.Data.List.Count
import Mathlib.Data.List.Nodup

/-!
# Calls and answers

A log holds entries that make calls, entries that answer one call, and others.
-/

namespace CodexStudy.Lib

open List

inductive LogEntry (ι : Type) where
  | calls (ids : List ι)
  | answer (id : ι)
  | other

namespace LogEntry

variable {ι : Type}

def IsSilent (entry : LogEntry ι) : Prop := entry = .other ∨ entry = .calls []

def firstAnswers : List (LogEntry ι) → List ι
  | .answer id :: log => id :: firstAnswers log
  | _ => []

structure Answered [DecidableEq ι] (log : List (LogEntry ι)) : Prop where
  follows : ∀ before id after, log = before ++ .answer id :: after →
    ∃ (earlier : List (LogEntry ι)) (ids answers : List ι), before = earlier ++ .calls ids :: answers.map .answer ∧ id ∈ ids
  once : ∀ before ids after, log = before ++ .calls ids :: after → ∀ id ∈ ids, (firstAnswers after).count id = 1

theorem firstAnswers_map (answers : List ι) : firstAnswers (answers.map .answer) = answers := by
  induction answers with
  | nil => rfl
  | cons id answers ih => exact congrArg (id :: ·) ih

variable {log : List (LogEntry ι)} {entry : LogEntry ι}

theorem firstAnswers_append {log' : List (LogEntry ι)} (h : firstAnswers log' = []) :
    firstAnswers (log ++ log') = firstAnswers log := by
  induction log with
  | nil => exact h
  | cons entry log ih =>
      cases entry with
      | answer id => exact congrArg (id :: ·) ih
      | calls ids => rfl
      | other => rfl

theorem firstAnswers_silent (h : entry.IsSilent) (log : List (LogEntry ι)) : firstAnswers (entry :: log) = [] := by
  rcases h with rfl | rfl <;> rfl

variable [DecidableEq ι]

/-! ## Putting logs together -/

theorem answered_nil : Answered ([] : List (LogEntry ι)) := by
  constructor
  · intro before id after h
    exact absurd h.symm (append_ne_nil_of_right_ne_nil _ (cons_ne_nil _ _))
  · intro before ids after h
    exact absurd h.symm (append_ne_nil_of_right_ne_nil _ (cons_ne_nil _ _))

theorem Answered.append {log' : List (LogEntry ι)} (h : Answered log) (h' : Answered log')
    (hfst : firstAnswers log' = []) : Answered (log ++ log') := by
  constructor
  · intro before id after heq
    rcases append_eq_append_iff.mp heq with ⟨rest, rfl, hlog'⟩ | ⟨rest, hlog, haft⟩
    · obtain ⟨earlier, ids, answers, rfl, hid⟩ := h'.follows rest id after hlog'
      exact ⟨log ++ earlier, ids, answers, (append_assoc ..).symm, hid⟩
    · cases rest with
      | nil =>
          rw [nil_append] at haft
          rw [← haft] at hfst
          cases hfst
      | cons entry rest =>
          obtain ⟨rfl, -⟩ := cons.inj haft
          exact h.follows before id rest hlog
  · intro before ids after heq
    rcases append_eq_append_iff.mp heq with ⟨rest, rfl, hlog'⟩ | ⟨rest, hlog, haft⟩
    · exact h'.once rest ids after hlog'
    · cases rest with
      | nil => exact h'.once [] ids after haft.symm
      | cons entry rest =>
          obtain ⟨rfl, hrest⟩ := cons.inj haft
          rw [show after = rest ++ log' from hrest, firstAnswers_append hfst]
          exact h.once before ids rest hlog

theorem answered_silent (h : entry.IsSilent) : Answered [entry] := by
  constructor
  · intro before id after heq
    obtain ⟨rfl, hent⟩ | ⟨-, hnil⟩ := singleton_eq_append_iff.mp heq
    · obtain ⟨rfl, -⟩ := cons.inj hent
      rcases h with h | h
      · cases h
      · cases h
    · cases hnil
  · intro before ids after heq id hid
    obtain ⟨rfl, hent⟩ | ⟨-, hnil⟩ := singleton_eq_append_iff.mp heq
    · obtain ⟨rfl, -⟩ := cons.inj hent
      rcases h with h | h
      · cases h
      · cases h
        cases hid
    · cases hnil

theorem Answered.append_silent (h : Answered log) (hent : entry.IsSilent) : Answered (log ++ [entry]) :=
  h.append (answered_silent hent) (firstAnswers_silent hent [])

theorem answered_batch {ids answers : List ι} (hnd : ids.Nodup) (hperm : answers.Perm ids) :
    Answered (.calls ids :: answers.map .answer) := by
  constructor
  · intro before id after heq
    cases before with
    | nil =>
        obtain ⟨hent, -⟩ := cons.inj heq
        cases hent
    | cons entry before =>
        obtain ⟨rfl, hrest⟩ := cons.inj heq
        obtain ⟨earlier, later, rfl, hearlier, hlater⟩ := map_eq_append_iff.mp hrest
        obtain ⟨id', rest, rfl, hid, -⟩ := map_eq_cons_iff.mp hlater
        cases hid
        refine ⟨[], ids, earlier, by rw [hearlier]; rfl, hperm.mem_iff.mp ?_⟩
        exact mem_append_right _ (mem_cons_self ..)
  · intro before ids' after heq id hid
    cases before with
    | nil =>
        obtain ⟨hent, rfl⟩ := cons.inj heq
        cases hent
        rw [firstAnswers_map]
        exact count_eq_one_of_mem (hperm.nodup_iff.mpr hnd) (hperm.mem_iff.mpr hid)
    | cons entry before =>
        obtain ⟨-, hrest⟩ := cons.inj heq
        have hmem : LogEntry.calls ids' ∈ answers.map LogEntry.answer := by
          rw [hrest]
          exact mem_append_right _ (mem_cons_self ..)
        obtain ⟨answer, -, hcs⟩ := mem_map.mp hmem
        cases hcs

/-! ## Answers in the wrong place -/

theorem not_answered_of_unasked {id : ι} (hans : .answer id ∈ log)
    (hnone : ∀ ids, .calls ids ∈ log → id ∉ ids) : ¬Answered log := by
  intro h
  obtain ⟨before, after, hlog⟩ := append_of_mem hans
  obtain ⟨earlier, ids, answers, rfl, hid⟩ := h.follows before id after hlog
  refine hnone ids ?_ hid
  rw [hlog]
  exact mem_append_left _ (mem_append_right _ (mem_cons_self ..))

theorem not_answered_of_silent {before after : List (LogEntry ι)} {id : ι}
    (hsil : entry.IsSilent) : ¬Answered (before ++ entry :: .answer id :: after) := by
  intro h
  obtain ⟨earlier, ids, answers, heq, hid⟩ := h.follows (before ++ [entry]) id after (by simp)
  rcases eq_nil_or_concat answers with rfl | ⟨answers, last, rfl⟩
  · have hlast := append_inj_right' heq rfl
    obtain ⟨rfl, -⟩ := cons.inj hlast
    rcases hsil with h' | h'
    · cases h'
    · cases h'
      cases hid
  · rw [concat_eq_append, map_append, ← cons_append, ← append_assoc] at heq
    have hlast := append_inj_right' heq rfl
    obtain ⟨rfl, -⟩ := cons.inj hlast
    rcases hsil with h' | h'
    · cases h'
    · cases h'

end LogEntry

end CodexStudy.Lib
