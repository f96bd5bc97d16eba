import Mathlib.Tactic
import Mathlib.Data.List.Basic

/-!
# High-water marks

A list is read once, and an item passes when its key is above all keys that passed before it and
above a mark that was given at the start.

* `pairwise_highWater`: the keys that pass ascend.
* `mem_map_highWater_iff`: a key passes where its first item is above everything before it.
-/

namespace Digdigdig3

variable {α K : Type*} [LinearOrder K] (key : α → K)

/-- The items whose key is above the mark, which rises with each of them. -/
def highWater : K → List α → List α
  | _, [] => []
  | mark, x :: xs => if key x ≤ mark then highWater mark xs else x :: highWater (key x) xs

/-- The mark after a list. -/
def markAfter (mark : K) (xs : List α) : K := xs.foldl (fun mark x => max mark (key x)) mark

variable {key}

theorem highWater_of_le {mark : K} {x : α} {xs : List α} (h : key x ≤ mark) :
    highWater key mark (x :: xs) = highWater key mark xs := if_pos h

theorem highWater_of_lt {mark : K} {x : α} {xs : List α} (h : mark < key x) :
    highWater key mark (x :: xs) = x :: highWater key (key x) xs := if_neg (not_le.mpr h)

theorem highWater_append (mark : K) (xs ys : List α) :
    highWater key mark (xs ++ ys) =
      highWater key mark xs ++ highWater key (markAfter key mark xs) ys := by
  induction xs generalizing mark with
  | nil => rfl
  | cons x xs ih =>
    rw [List.cons_append, markAfter, List.foldl_cons]
    rcases le_or_gt (key x) mark with hle | hlt
    · rw [highWater_of_le hle, highWater_of_le hle, ih, max_eq_left hle, markAfter]
    · rw [highWater_of_lt hlt, highWater_of_lt hlt, ih, max_eq_right hlt.le, markAfter,
        List.cons_append]

theorem lt_markAfter_iff {mark t : K} {xs : List α} :
    markAfter key mark xs < t ↔ mark < t ∧ ∀ x ∈ xs, key x < t := by
  unfold markAfter
  induction xs generalizing mark with
  | nil => simp
  | cons x xs ih =>
    rw [List.foldl_cons, ih, max_lt_iff, List.forall_mem_cons, and_assoc]

/-- What passes is above the mark. -/
theorem lt_of_mem_highWater {mark : K} {xs : List α} {x : α} (h : x ∈ highWater key mark xs) :
    mark < key x := by
  induction xs generalizing mark with
  | nil => cases h
  | cons y ys ih =>
    rcases le_or_gt (key y) mark with hle | hlt
    · rw [highWater_of_le hle] at h
      exact ih h
    · rw [highWater_of_lt hlt] at h
      rcases List.mem_cons.mp h with rfl | h
      · exact hlt
      · exact hlt.trans (ih h)

/-- The keys that pass ascend. -/
theorem pairwise_highWater (mark : K) (xs : List α) :
    ((highWater key mark xs).map key).Pairwise (· < ·) := by
  induction xs generalizing mark with
  | nil => exact List.Pairwise.nil
  | cons x xs ih =>
    rcases le_or_gt (key x) mark with hle | hlt
    · rw [highWater_of_le hle]
      exact ih mark
    · rw [highWater_of_lt hlt, List.map_cons, List.pairwise_cons]
      refine ⟨fun t ht => ?_, ih (key x)⟩
      obtain ⟨y, hy, rfl⟩ := List.mem_map.mp ht
      exact lt_of_mem_highWater hy

/-- A key passes where its first item is above the mark and above everything before it. -/
theorem mem_map_highWater_iff {mark t : K} {xs : List α} :
    t ∈ (highWater key mark xs).map key ↔
      ∃ pre x rest, xs = pre ++ x :: rest ∧ key x = t ∧ mark < t ∧ ∀ y ∈ pre, key y < t := by
  constructor
  · intro h
    induction xs using List.reverseRecOn with
    | nil => cases h
    | append_singleton xs x ih =>
      rw [highWater_append, List.map_append, List.mem_append] at h
      rcases h with h | h
      · obtain ⟨pre, y, rest, rfl, hy, hmark, hpre⟩ := ih h
        exact ⟨pre, y, rest ++ [x], by simp, hy, hmark, hpre⟩
      · rcases le_or_gt (key x) (markAfter key mark xs) with hle | hlt
        · rw [highWater_of_le hle] at h
          cases h
        · rw [highWater_of_lt hlt] at h
          obtain rfl := List.mem_singleton.mp h
          obtain ⟨hmark, hpre⟩ := lt_markAfter_iff.mp hlt
          exact ⟨xs, x, [], rfl, rfl, hmark, hpre⟩
  · rintro ⟨pre, x, rest, rfl, rfl, hmark, hpre⟩
    rw [highWater_append, List.map_append, List.mem_append]
    rw [highWater_of_lt (lt_markAfter_iff.mpr ⟨hmark, hpre⟩)]
    exact Or.inr (by simp)

end Digdigdig3
