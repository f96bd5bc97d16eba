import Mathlib.Algebra.BigOperators.Group.List.Lemmas
import Mathlib.Data.Finset.Card
import Mathlib.Tactic

/-!
# Counting occurrences, and adjacent elements

A map from keys to bounded counters, as the list of its entries: `bump` adds one to the
counter of a key, and fails where the counter is full. `adjacent` is the list of pairs of
neighbours of a list.

* `bump_occurrences`: after the keys `ks` the map holds every key with its count.
* `sum_duplicates`: the occurrences beyond the first, over all keys.
* `adjacent_concat`: the pairs of a list with one more element.
-/

namespace Digdigdig3

variable {κ α : Type} [DecidableEq κ]

theorem nodup_eraseDups {α : Type} [DecidableEq α] (l : List α) : l.eraseDups.Nodup := by
  induction hn : l.length using Nat.strong_induction_on generalizing l with
  | _ n ih =>
    cases l with
    | nil => exact List.nodup_nil
    | cons a l =>
      rw [List.eraseDups_cons, List.nodup_cons]
      constructor
      · simp
      · have hlt : (l.filter fun b => !b == a).length < n := by
          rw [← hn]
          exact Nat.lt_succ_of_le (List.length_filter_le _ _)
        exact ih _ hlt _ rfl

theorem eraseDups_perm_dedup (l : List κ) : l.eraseDups.Perm l.dedup :=
  (List.perm_ext_iff_of_nodup (nodup_eraseDups l) l.nodup_dedup).mpr fun a => by
    rw [List.mem_eraseDups, List.mem_dedup]

theorem eraseDups_concat_of_mem {l : List κ} {a : κ} (h : a ∈ l) :
    (l ++ [a]).eraseDups = l.eraseDups := by
  rw [List.eraseDups_append]
  simp [List.removeAll, h]

theorem eraseDups_concat_of_notMem {l : List κ} {a : κ} (h : a ∉ l) :
    (l ++ [a]).eraseDups = l.eraseDups ++ [a] := by
  rw [List.eraseDups_append]
  simp [List.removeAll, h, List.eraseDups_cons]

/-- `*map.entry(k).or_insert(0) += 1`, with counters up to `limit`. -/
def bump (limit : ℕ) (k : κ) : List (κ × ℕ) → Option (List (κ × ℕ))
  | [] => some [(k, 1)]
  | (k', c) :: entries =>
    if k' = k then if c < limit then some ((k', c + 1) :: entries) else none
    else (bump limit k entries).map ((k', c) :: ·)

/-- How often `k` occurs in `ks`. -/
def timesIn (ks : List κ) (k : κ) : ℕ := ks.count k

theorem timesIn_concat (ks : List κ) (k k' : κ) :
    timesIn (ks ++ [k]) k' = timesIn ks k' + if k = k' then 1 else 0 := by
  rw [timesIn, List.count_append, List.count_singleton]
  simp only [beq_iff_eq]
  rfl

theorem timesIn_pos {ks : List κ} {k : κ} (h : k ∈ ks) : 0 < timesIn ks k :=
  List.count_pos_iff.mpr h

theorem timesIn_of_notMem {ks : List κ} {k : κ} (h : k ∉ ks) : timesIn ks k = 0 :=
  List.count_eq_zero_of_not_mem h

theorem timesIn_le_one {ks : List κ} (h : ks.Nodup) (k : κ) : timesIn ks k ≤ 1 :=
  List.nodup_iff_count_le_one.mp h k

/-- Every key of `ks` with its number of occurrences. -/
def occurrences (ks : List κ) : List (κ × ℕ) := ks.eraseDups.map fun k => (k, timesIn ks k)

theorem bump_map_of_mem {limit : ℕ} {k : κ} {l : List κ} (hl : l.Nodup) (hk : k ∈ l) (f : κ → ℕ) :
    bump limit k (l.map fun k => (k, f k)) =
      if f k < limit then some (l.map fun k' => (k', if k' = k then f k' + 1 else f k'))
      else none := by
  induction l with
  | nil => cases hk
  | cons k' l ih =>
    obtain ⟨hfresh, hl⟩ := List.nodup_cons.mp hl
    rw [List.map_cons, bump]
    by_cases heq : k' = k
    · subst heq
      have hrest : (l.map fun k => (k, f k)) =
          l.map fun j => (j, if j = k' then f j + 1 else f j) :=
        List.map_congr_left fun j hj => by rw [if_neg (ne_of_mem_of_not_mem hj hfresh)]
      rw [if_pos rfl, List.map_cons, if_pos rfl, hrest]
    · have hmem : k ∈ l := (List.mem_cons.mp hk).resolve_left (Ne.symm heq)
      rw [if_neg heq, ih hl hmem, List.map_cons, if_neg heq]
      split_ifs <;> rfl

theorem bump_map_of_notMem {limit : ℕ} {k : κ} {l : List κ} (hk : k ∉ l) (f : κ → ℕ) :
    bump limit k (l.map fun k => (k, f k)) = some ((l.map fun k => (k, f k)) ++ [(k, 1)]) := by
  induction l with
  | nil => rfl
  | cons k' l ih =>
    obtain ⟨hne, hk⟩ := not_or.mp (mt List.mem_cons.mpr hk)
    rw [List.map_cons, bump, if_neg (Ne.symm hne), ih hk]
    rfl

/-- One more key adds one to its count, unless its counter is full. -/
theorem bump_occurrences {limit : ℕ} (hlimit : 0 < limit) (ks : List κ) (k : κ) :
    bump limit k (occurrences ks) =
      if timesIn ks k < limit then some (occurrences (ks ++ [k])) else none := by
  rw [occurrences, occurrences]
  by_cases hk : k ∈ ks
  · rw [bump_map_of_mem (nodup_eraseDups ks) (List.mem_eraseDups.mpr hk),
      eraseDups_concat_of_mem hk]
    have hcount : ∀ k', (if k' = k then timesIn ks k' + 1 else timesIn ks k') =
        timesIn (ks ++ [k]) k' := by
      intro k'
      rw [timesIn_concat]
      by_cases h : k' = k
      · rw [if_pos h, if_pos h.symm]
      · rw [if_neg h, if_neg (Ne.symm h), add_zero]
    simp only [hcount]
  · have hzero := timesIn_of_notMem hk
    rw [bump_map_of_notMem (mt List.mem_eraseDups.mp hk), if_pos (hzero ▸ hlimit),
      eraseDups_concat_of_notMem hk, List.map_append, List.map_singleton]
    have hold : ∀ k' ∈ ks.eraseDups, (k', timesIn ks k') = (k', timesIn (ks ++ [k]) k') := by
      intro k' hk'
      have hne : k ≠ k' := (ne_of_mem_of_not_mem (List.mem_eraseDups.mp hk') hk).symm
      rw [timesIn_concat, if_neg hne, add_zero]
    have hnew : timesIn (ks ++ [k]) k = 1 := by rw [timesIn_concat, if_pos rfl, hzero]
    rw [List.map_congr_left hold, hnew]

/-- The occurrences beyond the first of each key, and the first ones, are all of them. -/
theorem sum_duplicates (ks : List κ) :
    (((occurrences ks).filter fun e => 1 < e.2).map fun e => e.2 - 1).sum + ks.toFinset.card =
      ks.length := by
  have hsplit : ∀ entries : List (κ × ℕ), (∀ e ∈ entries, 0 < e.2) →
      ((entries.filter fun e => 1 < e.2).map fun e => e.2 - 1).sum + entries.length =
        (entries.map (·.2)).sum := by
    intro entries
    induction entries with
    | nil => exact fun _ => rfl
    | cons e entries ih =>
      intro h
      obtain ⟨he, hrest⟩ := List.forall_mem_cons.mp h
      have ih := ih hrest
      by_cases hone : 1 < e.2
      · rw [List.filter_cons_of_pos (by simpa using hone)]
        simp only [List.map_cons, List.sum_cons, List.length_cons]
        omega
      · rw [List.filter_cons_of_neg (by simpa using hone)]
        simp only [List.map_cons, List.sum_cons, List.length_cons]
        omega
  have hpos : ∀ e ∈ occurrences ks, 0 < e.2 := by
    intro e he
    obtain ⟨k, hk, rfl⟩ := List.mem_map.mp he
    exact timesIn_pos (List.mem_eraseDups.mp hk)
  have hlength : (occurrences ks).length = ks.toFinset.card := by
    rw [occurrences, List.length_map, List.card_toFinset]
    exact (eraseDups_perm_dedup ks).length_eq
  have hsum : ((occurrences ks).map (·.2)).sum = ks.length := by
    rw [occurrences, List.map_map]
    exact (((eraseDups_perm_dedup ks).map _).sum_eq).trans (List.sum_map_count_dedup_eq_length ks)
  rw [← hlength, hsplit _ hpos, hsum]

/-! ## Neighbours -/

/-- The pairs of neighbours. -/
def adjacent : List α → List (α × α)
  | a :: b :: l => (a, b) :: adjacent (b :: l)
  | _ => []

/-- One more element is the neighbour of the last one. -/
theorem adjacent_concat (l : List α) (a : α) :
    adjacent (l ++ [a]) = adjacent l ++ (l.getLast?.map fun last => (last, a)).toList := by
  induction l with
  | nil => rfl
  | cons b l ih =>
    cases l with
    | nil => rfl
    | cons c l =>
      rw [List.cons_append, List.cons_append, adjacent, ← List.cons_append, ih, adjacent,
        List.getLast?_cons_cons]
      rfl

end Digdigdig3
