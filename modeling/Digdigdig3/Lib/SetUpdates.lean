import Mathlib.Tactic
import Mathlib.Data.Finset.Basic

/-!
# Sets kept by a log of updates

A log of insertions and removals, replayed in order on a finite set.

* `mem_replay_iff`: an element is in the result when its last update put it there.
* `mem_replay_of_no_insert`: a log without insertions takes out what it names.
-/

namespace Digdigdig3

variable {α : Type*} [DecidableEq α]

/-- One update of a set; `skip` is an entry of the log about nothing in the set. -/
inductive SetUpdate (α : Type*)
  | insert (a : α)
  | remove (a : α)
  | skip
  deriving DecidableEq

namespace SetUpdate

/-- The set after an update. -/
def apply (s : Finset α) : SetUpdate α → Finset α
  | insert a => Insert.insert a s
  | remove a => s.erase a
  | skip => s

/-- The set after a log. -/
def replay (s : Finset α) (log : List (SetUpdate α)) : Finset α := log.foldl apply s

@[simp] theorem replay_nil (s : Finset α) : replay s [] = s := rfl

theorem replay_append (s : Finset α) (log more : List (SetUpdate α)) :
    replay s (log ++ more) = replay (replay s log) more :=
  List.foldl_append

theorem replay_concat (s : Finset α) (log : List (SetUpdate α)) (u : SetUpdate α) :
    replay s (log ++ [u]) = apply (replay s log) u :=
  List.foldl_concat _ _ _ _

/-- The log puts `a` into the set and does not take it out again. -/
def Holds (log : List (SetUpdate α)) (a : α) : Prop :=
  ∃ pre post, log = pre ++ insert a :: post ∧ remove a ∉ post

omit [DecidableEq α] in
theorem not_holds_nil (a : α) : ¬ Holds [] a := by
  rintro ⟨pre, post, h, -⟩
  simp at h

omit [DecidableEq α] in
theorem holds_concat_insert (log : List (SetUpdate α)) (a : α) : Holds (log ++ [insert a]) a :=
  ⟨log, [], rfl, List.not_mem_nil⟩

omit [DecidableEq α] in
theorem not_holds_concat_remove (log : List (SetUpdate α)) (a : α) :
    ¬ Holds (log ++ [remove a]) a := by
  rintro ⟨pre, post, heq, hpost⟩
  rcases List.eq_nil_or_concat post with rfl | ⟨post, u, rfl⟩
  · have hlast := (List.append_inj' heq rfl).2
    simp at hlast
  · rw [List.concat_eq_append, ← List.cons_append, ← List.append_assoc] at heq
    have hlast := (List.append_inj' heq rfl).2
    rw [← List.singleton_inj.mp hlast, List.concat_eq_append] at hpost
    simp at hpost

omit [DecidableEq α] in
theorem holds_concat_of_ne {log : List (SetUpdate α)} {u : SetUpdate α} {a : α}
    (hins : u ≠ insert a) (hrem : u ≠ remove a) : Holds (log ++ [u]) a ↔ Holds log a := by
  constructor
  · rintro ⟨pre, post, heq, hpost⟩
    rcases List.eq_nil_or_concat post with rfl | ⟨post, v, rfl⟩
    · have hlast := (List.append_inj' heq rfl).2
      exact absurd (List.singleton_inj.mp hlast) hins
    · rw [List.concat_eq_append, ← List.cons_append, ← List.append_assoc] at heq
      refine ⟨pre, post, (List.append_inj' heq rfl).1, fun hmem => hpost ?_⟩
      rw [List.concat_eq_append]
      exact List.mem_append_left _ hmem
  · rintro ⟨pre, post, rfl, hpost⟩
    refine ⟨pre, post ++ [u], by simp, fun hmem => ?_⟩
    rcases List.mem_append.mp hmem with hmem | hmem
    · exact hpost hmem
    · exact hrem (List.mem_singleton.mp hmem).symm

/-- An element is in the result just when its last update put it there. -/
theorem mem_replay_iff (log : List (SetUpdate α)) (a : α) :
    a ∈ replay ∅ log ↔ Holds log a := by
  induction log using List.reverseRecOn with
  | nil => simp [not_holds_nil]
  | append_singleton log u ih =>
    rw [replay_concat]
    by_cases hins : u = insert a
    · subst hins
      exact iff_of_true (Finset.mem_insert_self _ _) (holds_concat_insert log a)
    by_cases hrem : u = remove a
    · subst hrem
      exact iff_of_false (Finset.notMem_erase _ _) (not_holds_concat_remove log a)
    rw [holds_concat_of_ne hins hrem, ← ih]
    cases u with
    | insert b =>
      have hne : a ≠ b := fun h => hins (h ▸ rfl)
      show a ∈ Insert.insert b _ ↔ _
      rw [Finset.mem_insert, or_iff_right hne]
    | remove b =>
      have hne : a ≠ b := fun h => hrem (h ▸ rfl)
      show a ∈ Finset.erase _ b ↔ _
      rw [Finset.mem_erase, and_iff_right hne]
    | skip => exact Iff.rfl

/-- An element of the result was inserted. -/
theorem insert_mem_of_mem_replay {log : List (SetUpdate α)} {a : α} (h : a ∈ replay ∅ log) :
    insert a ∈ log := by
  obtain ⟨pre, post, rfl, -⟩ := (mem_replay_iff log a).mp h
  exact List.mem_append_right _ List.mem_cons_self

/-- A log without insertions takes out what it names. -/
theorem mem_replay_of_no_insert {log : List (SetUpdate α)} (h : ∀ a, insert a ∉ log)
    (s : Finset α) (a : α) : a ∈ replay s log ↔ a ∈ s ∧ remove a ∉ log := by
  induction log using List.reverseRecOn with
  | nil => simp
  | append_singleton log u ih =>
    have hlog : ∀ b, insert b ∉ log := fun b hb => h b (List.mem_append_left _ hb)
    rw [replay_concat, List.mem_append, List.mem_singleton, not_or]
    cases u with
    | insert b => exact absurd (List.mem_append_right _ List.mem_cons_self) (h b)
    | remove b =>
      show a ∈ Finset.erase _ b ↔ _
      rw [Finset.mem_erase, ih hlog, remove.injEq]
      tauto
    | skip =>
      show a ∈ replay s log ↔ _
      rw [ih hlog]
      simp

end SetUpdate

end Digdigdig3
