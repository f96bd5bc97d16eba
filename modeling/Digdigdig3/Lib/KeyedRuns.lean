import Mathlib.Tactic
import Mathlib.Data.List.Basic

/-!
# Lists cut where a key changes

`Grouped key l gs` says of the groups `gs` that they are the elements of `l` by their keys, each
group with its key and in the order of the list, the keys ascending. A list that is read with keys
that do not descend is grouped by looking at the last group only.

* `Grouped.extend`, `Grouped.start`: what one more element does.
* `le_foldl_max`, `foldl_max_mem`, `foldl_min_le`, `foldl_min_mem`: the extremes of a group.
-/

namespace Digdigdig3

/-! ## Groups -/

section Grouped

variable {α κ : Type*} [LinearOrder κ] {key : α → κ} {l : List α} {gs : List (κ × List α)}

/-- `gs` are the elements of `l` by their keys. -/
structure Grouped (key : α → κ) (l : List α) (gs : List (κ × List α)) : Prop where
  ascending : gs.Pairwise fun g g' => g.1 < g'.1
  eq_filter : ∀ g ∈ gs, g.2 = l.filter fun a => decide (key a = g.1)
  ne_nil : ∀ g ∈ gs, g.2 ≠ []
  covers : ∀ a ∈ l, ∃ g ∈ gs, g.1 = key a

theorem Grouped.nil (key : α → κ) : Grouped key [] [] where
  ascending := List.Pairwise.nil
  eq_filter := by simp
  ne_nil := by simp
  covers := by simp

/-- An element with the key of the last group goes there. -/
theorem Grouped.extend {k : κ} {b : List α} {a : α} (h : Grouped key l (gs ++ [(k, b)]))
    (hkey : key a = k) : Grouped key (l ++ [a]) (gs ++ [(k, b ++ [a])]) where
  ascending := by
    obtain ⟨hgs, -, hlast⟩ := List.pairwise_append.mp h.ascending
    refine List.pairwise_append.mpr ⟨hgs, List.pairwise_singleton _ _, fun g hg g' hg' => ?_⟩
    obtain rfl := List.mem_singleton.mp hg'
    exact hlast g hg (k, b) (List.mem_singleton_self _)
  eq_filter := by
    intro g hg
    rcases List.mem_append.mp hg with hg | hg
    · -- the keys before the last one are smaller
      have hlt : g.1 < k := (List.pairwise_append.mp h.ascending).2.2 g hg (k, b)
        (List.mem_singleton_self _)
      have hne : key a ≠ g.1 := by
        rw [hkey]
        exact hlt.ne'
      rw [List.filter_append, List.filter_singleton, decide_eq_false hne, h.eq_filter g
        (List.mem_append_left _ hg)]
      simp
    · obtain rfl := List.mem_singleton.mp hg
      have hb := h.eq_filter (k, b) (by simp)
      simp only at hb ⊢
      rw [List.filter_append, ← hb, List.filter_singleton, decide_eq_true hkey]
      rfl
  ne_nil := by
    intro g hg
    rcases List.mem_append.mp hg with hg | hg
    · exact h.ne_nil g (List.mem_append_left _ hg)
    · obtain rfl := List.mem_singleton.mp hg
      simp
  covers := by
    intro x hx
    rcases List.mem_append.mp hx with hx | hx
    · obtain ⟨g, hg, heq⟩ := h.covers x hx
      rcases List.mem_append.mp hg with hg | hg
      · exact ⟨g, List.mem_append_left _ hg, heq⟩
      · obtain rfl := List.mem_singleton.mp hg
        exact ⟨_, List.mem_append_right _ (List.mem_singleton_self _), heq⟩
    · obtain rfl := List.mem_singleton.mp hx
      exact ⟨_, List.mem_append_right _ (List.mem_singleton_self _), hkey.symm⟩

/-- An element whose key lies above all others starts a group. -/
theorem Grouped.start {a : α} (h : Grouped key l gs) (hlt : ∀ x ∈ l, key x < key a) :
    Grouped key (l ++ [a]) (gs ++ [(key a, [a])]) where
  ascending := by
    refine List.pairwise_append.mpr ⟨h.ascending, List.pairwise_singleton _ _, ?_⟩
    intro g hg g' hg'
    obtain rfl := List.mem_singleton.mp hg'
    obtain ⟨x, hx⟩ := List.exists_mem_of_ne_nil _ (h.ne_nil g hg)
    rw [h.eq_filter g hg, List.mem_filter, decide_eq_true_eq] at hx
    rw [← hx.2]
    exact hlt x hx.1
  eq_filter := by
    intro g hg
    rcases List.mem_append.mp hg with hg | hg
    · obtain ⟨x, hx⟩ := List.exists_mem_of_ne_nil _ (h.ne_nil g hg)
      have hfilter := h.eq_filter g hg
      rw [hfilter, List.mem_filter, decide_eq_true_eq] at hx
      have hne : key a ≠ g.1 := by
        rw [← hx.2]
        exact (hlt x hx.1).ne'
      rw [List.filter_append, List.filter_singleton, decide_eq_false hne, ← hfilter]
      simp
    · obtain rfl := List.mem_singleton.mp hg
      have hnone : (l.filter fun x => decide (key x = key a)) = [] := by
        refine List.filter_eq_nil_iff.mpr fun x hx => ?_
        simpa using (hlt x hx).ne
      simp [List.filter_append, hnone]
  ne_nil := by
    intro g hg
    rcases List.mem_append.mp hg with hg | hg
    · exact h.ne_nil g hg
    · obtain rfl := List.mem_singleton.mp hg
      simp
  covers := by
    intro x hx
    rcases List.mem_append.mp hx with hx | hx
    · obtain ⟨g, hg, heq⟩ := h.covers x hx
      exact ⟨g, List.mem_append_left _ hg, heq⟩
    · obtain rfl := List.mem_singleton.mp hx
      exact ⟨_, List.mem_append_right _ (List.mem_singleton_self _), rfl⟩

/-- The key of a group is the key of an element. -/
theorem Grouped.exists_mem (h : Grouped key l gs) {g : κ × List α} (hg : g ∈ gs) :
    ∃ a ∈ l, key a = g.1 := by
  obtain ⟨x, hx⟩ := List.exists_mem_of_ne_nil _ (h.ne_nil g hg)
  rw [h.eq_filter g hg, List.mem_filter, decide_eq_true_eq] at hx
  exact ⟨x, hx⟩

/-- No key lies above that of the last group. -/
theorem Grouped.le_last {k : κ} {b : List α} (h : Grouped key l (gs ++ [(k, b)])) {a : α}
    (ha : a ∈ l) : key a ≤ k := by
  obtain ⟨g, hg, heq⟩ := h.covers a ha
  rw [← heq]
  rcases List.mem_append.mp hg with hg | hg
  · exact ((List.pairwise_append.mp h.ascending).2.2 g hg (k, b) (List.mem_singleton_self _)).le
  · rw [List.mem_singleton.mp hg]

end Grouped

/-! ## Extremes -/

section Extremes

variable {α K : Type*} [LinearOrder K]

theorem le_foldl_max (f : α → K) (l : List α) (start : K) :
    start ≤ l.foldl (fun m a => max m (f a)) start ∧
      ∀ a ∈ l, f a ≤ l.foldl (fun m a => max m (f a)) start := by
  induction l generalizing start with
  | nil => simp
  | cons b l ih =>
    obtain ⟨hstart, hl⟩ := ih (max start (f b))
    refine ⟨(le_max_left _ _).trans hstart, fun a ha => ?_⟩
    rcases List.mem_cons.mp ha with rfl | ha
    · exact (le_max_right _ _).trans hstart
    · exact hl a ha

/-- The maximum is the start or it is attained. -/
theorem foldl_max_mem (f : α → K) (l : List α) (start : K) :
    l.foldl (fun m a => max m (f a)) start = start ∨
      ∃ a ∈ l, l.foldl (fun m a => max m (f a)) start = f a := by
  induction l generalizing start with
  | nil => simp
  | cons b l ih =>
    rw [List.foldl_cons]
    rcases ih (max start (f b)) with hstart | ⟨a, ha, heq⟩
    · rw [hstart]
      rcases max_choice start (f b) with hmax | hmax
      · exact .inl hmax
      · exact .inr ⟨b, List.mem_cons_self, hmax⟩
    · exact .inr ⟨a, List.mem_cons_of_mem b ha, heq⟩

theorem foldl_min_le (f : α → K) (l : List α) (start : K) :
    l.foldl (fun m a => min m (f a)) start ≤ start ∧
      ∀ a ∈ l, l.foldl (fun m a => min m (f a)) start ≤ f a :=
  le_foldl_max (K := Kᵒᵈ) f l start

theorem foldl_min_mem (f : α → K) (l : List α) (start : K) :
    l.foldl (fun m a => min m (f a)) start = start ∨
      ∃ a ∈ l, l.foldl (fun m a => min m (f a)) start = f a :=
  foldl_max_mem (K := Kᵒᵈ) f l start

end Extremes

end Digdigdig3
