import Mathlib.Tactic.Common

/-!
# Reading items one by one

A reader turns every item into a value, skips it (`some none`), or panics (`none`), which
ends the reading.

* `readEach_total`: a reader that never panics filters its items.
* `readEach_agree_iff`: two readers, of which the first skips more, return the same values
  exactly when they treat every item alike.
-/

namespace Digdigdig3

variable {α β : Type*}

/-- The values of all items, in order. -/
def readEach (f : α → Option (Option β)) : List α → Option (List β)
  | [] => some []
  | a :: as => do
    let value ← f a
    let values ← readEach f as
    return value.toList ++ values

@[simp] theorem readEach_nil (f : α → Option (Option β)) : readEach f [] = some [] := rfl

theorem readEach_cons_eq_some {f : α → Option (Option β)} {a : α} {as : List α} {bs : List β} :
    readEach f (a :: as) = some bs ↔
      ∃ value values, f a = some value ∧ readEach f as = some values ∧
        value.toList ++ values = bs := by
  simp [readEach, Option.bind_eq_some_iff]

theorem readEach_total (h : α → Option β) (as : List α) :
    readEach (fun a => some (h a)) as = some (as.filterMap h) := by
  induction as with
  | nil => rfl
  | cons a as ih =>
    rw [readEach_cons_eq_some]
    refine ⟨h a, as.filterMap h, rfl, ih, ?_⟩
    cases ha : h a with
    | none => rw [List.filterMap_cons_none ha]; rfl
    | some b => rw [List.filterMap_cons_some ha]; rfl

theorem readEach_congr {f g : α → Option (Option β)} {as : List α} (h : ∀ a ∈ as, f a = g a) :
    readEach f as = readEach g as := by
  induction as with
  | nil => rfl
  | cons a as ih =>
    rw [List.forall_mem_cons] at h
    rw [readEach, readEach, h.1, ih h.2]

/-- A reader that skips more returns no more values. -/
theorem length_readEach_le {f g : α → Option (Option β)} {as : List α} {bs cs : List β}
    (h : ∀ a ∈ as, ∀ x y, f a = some x → g a = some y → x = none ∨ x = y)
    (hf : readEach f as = some bs) (hg : readEach g as = some cs) : bs.length ≤ cs.length := by
  induction as generalizing bs cs with
  | nil =>
    cases hf
    exact Nat.zero_le _
  | cons a as ih =>
    rw [List.forall_mem_cons] at h
    obtain ⟨x, xs, hfa, hfas, rfl⟩ := readEach_cons_eq_some.mp hf
    obtain ⟨y, ys, hga, hgas, rfl⟩ := readEach_cons_eq_some.mp hg
    have hle := ih h.2 hfas hgas
    rcases h.1 x y hfa hga with rfl | rfl
    · rw [List.length_append, List.length_append]
      exact Nat.le_trans (by simpa using hle) (Nat.le_add_left _ _)
    · rw [List.length_append, List.length_append]
      exact Nat.add_le_add_left hle _

/-- Two readers, of which the first skips more, return the same values exactly when they
    treat every item alike. -/
theorem readEach_agree_iff {f g : α → Option (Option β)} {as : List α}
    (h : ∀ a ∈ as, ∀ x y, f a = some x → g a = some y → x = none ∨ x = y) :
    (∃ bs, readEach f as = some bs ∧ readEach g as = some bs) ↔
      ∀ a ∈ as, ∃ x, f a = some x ∧ g a = some x := by
  induction as with
  | nil => simp
  | cons a as ih =>
    rw [List.forall_mem_cons] at h
    rw [List.forall_mem_cons, ← ih h.2]
    constructor
    · rintro ⟨bs, hf, hg⟩
      obtain ⟨x, xs, hfa, hfas, rfl⟩ := readEach_cons_eq_some.mp hf
      obtain ⟨y, ys, hga, hgas, heq⟩ := readEach_cons_eq_some.mp hg
      have hxy : x = y := by
        rcases h.1 x y hfa hga with rfl | rfl
        · -- a skipped item leaves the second reader no room for its value
          cases y with
          | none => rfl
          | some b =>
            have hle := length_readEach_le h.2 hfas hgas
            have hlen := congrArg List.length heq
            simp only [Option.toList_some, Option.toList_none, List.length_append,
              List.length_cons, List.length_nil] at hlen
            omega
        · rfl
      subst hxy
      rw [List.append_cancel_left heq] at hgas
      exact ⟨⟨x, hfa, hga⟩, xs, hfas, hgas⟩
    · rintro ⟨⟨x, hfa, hga⟩, xs, hfas, hgas⟩
      exact ⟨x.toList ++ xs, readEach_cons_eq_some.mpr ⟨x, xs, hfa, hfas, rfl⟩,
        readEach_cons_eq_some.mpr ⟨x, xs, hga, hgas, rfl⟩⟩

end Digdigdig3
