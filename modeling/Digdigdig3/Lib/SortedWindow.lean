import Digdigdig3.Lib.Upsert
import Mathlib.Order.Basic

/-!
# Windows on lists that ascend by key

`insertByKey` puts an element in its place and replaces one of the same key; `newest c` keeps
the last `c`. A window that is written with `upsertBy` instead appends what it does not
find.

* `newest_upsertBy_iff`: when both ways leave the same window.
* `newest_upsertBy_window_iff`, `newest_append_window_iff`: writing and appending to the window
  of a list with distinct keys.
* `mem_newest_iff`: the window holds what fewer than `c` elements follow.
* `mem_dedupByKey_iff`, `find?_mergeSort`: `dedupByKey` after a stable sort keeps the first
  element of each key.
-/

namespace Digdigdig3

variable {α κ : Type*} [LinearOrder κ] (key : α → κ)

/-- The list ascends strictly by key. -/
def Ascending (xs : List α) : Prop := xs.Pairwise fun x y => key x < key y

instance (xs : List α) : Decidable (Ascending key xs) :=
  inferInstanceAs (Decidable (List.Pairwise _ xs))

/-- Put `a` in its place in an ascending list, instead of an element of its key. -/
def insertByKey (xs : List α) (a : α) : List α :=
  match xs with
  | [] => [a]
  | x :: xs =>
    if key a < key x then a :: x :: xs
    else if key x = key a then a :: xs
    else x :: insertByKey xs a

/-- The last `c` elements. -/
def newest (c : ℕ) (xs : List α) : List α := xs.drop (xs.length - c)

/-- `dedup_by_key` after an element of key `k`. -/
def dedupAfter (k : κ) : List α → List α
  | [] => []
  | x :: xs => if key x = k then dedupAfter k xs else x :: dedupAfter (key x) xs

/-- `dedup_by_key`: of neighbours with one key the first stays. -/
def dedupByKey : List α → List α
  | [] => []
  | x :: xs => x :: dedupAfter key (key x) xs

variable {key}

/-! ## Insertion -/

theorem mem_insertByKey_self (xs : List α) (a : α) : a ∈ insertByKey key xs a := by
  induction xs with
  | nil => exact List.mem_singleton_self a
  | cons x xs ih =>
    unfold insertByKey
    split_ifs
    · exact List.mem_cons_self
    · exact List.mem_cons_self
    · exact List.mem_cons_of_mem x ih

theorem mem_of_mem_insertByKey {xs : List α} {a b : α} (h : b ∈ insertByKey key xs a) :
    b = a ∨ b ∈ xs := by
  induction xs with
  | nil => exact Or.inl (List.mem_singleton.mp h)
  | cons x xs ih =>
    unfold insertByKey at h
    split_ifs at h with hlt heq
    · exact List.mem_cons.mp h
    · exact (List.mem_cons.mp h).imp_right (List.mem_cons_of_mem x)
    · rcases List.mem_cons.mp h with rfl | h
      · exact Or.inr List.mem_cons_self
      · exact (ih h).imp_right (List.mem_cons_of_mem x)

theorem mem_insertByKey_of_ne {xs : List α} {a b : α} (hb : b ∈ xs) (hne : key b ≠ key a) :
    b ∈ insertByKey key xs a := by
  induction xs with
  | nil => cases hb
  | cons x xs ih =>
    unfold insertByKey
    split_ifs with hlt heq
    · exact List.mem_cons_of_mem a hb
    · rcases List.mem_cons.mp hb with rfl | hb
      · exact absurd heq hne
      · exact List.mem_cons_of_mem a hb
    · rcases List.mem_cons.mp hb with rfl | hb
      · exact List.mem_cons_self
      · exact List.mem_cons_of_mem x (ih hb)

/-- The last element of an ascending list has the greatest key. -/
theorem le_getLast {xs : List α} (h : Ascending key xs) {x last : α}
    (hlast : xs.getLast? = some last) (hx : x ∈ xs) : key x ≤ key last := by
  obtain ⟨front, rfl⟩ := List.getLast?_eq_some_iff.mp hlast
  rcases List.mem_append.mp hx with hx | hx
  · exact ((List.pairwise_append.mp h).2.2 x hx last (List.mem_singleton_self _)).le
  · rw [List.mem_singleton.mp hx]

/-- An ascending list has one element of each key. -/
theorem eq_of_key_eq {xs : List α} (h : Ascending key xs) {x y : α} (hx : x ∈ xs) (hy : y ∈ xs)
    (hkey : key x = key y) : x = y := by
  obtain ⟨pre, post, rfl⟩ := List.append_of_mem hx
  obtain ⟨-, hpost, hpre⟩ := List.pairwise_append.mp h
  rcases List.mem_append.mp hy with hy | hy
  · exact absurd hkey (hpre y hy x List.mem_cons_self).ne'
  · rcases List.mem_cons.mp hy with rfl | hy
    · rfl
    · exact absurd hkey ((List.pairwise_cons.mp hpost).1 y hy).ne

theorem ascending_insertByKey {xs : List α} (h : Ascending key xs) (a : α) :
    Ascending key (insertByKey key xs a) := by
  induction xs with
  | nil => exact List.pairwise_singleton _ _
  | cons x xs ih =>
    obtain ⟨hx, hxs⟩ := List.pairwise_cons.mp h
    unfold insertByKey
    split_ifs with hlt heq
    · refine List.pairwise_cons.mpr ⟨?_, h⟩
      intro y hy
      rcases List.mem_cons.mp hy with rfl | hy
      · exact hlt
      · exact hlt.trans (hx y hy)
    · exact List.pairwise_cons.mpr ⟨fun y hy => heq ▸ hx y hy, hxs⟩
    · refine List.pairwise_cons.mpr ⟨?_, ih hxs⟩
      intro y hy
      rcases mem_of_mem_insertByKey hy with rfl | hy
      · exact lt_of_le_of_ne (not_lt.mp hlt) heq
      · exact hx y hy

/-- Smaller elements in front stay in front. -/
theorem insertByKey_append {xs : List α} {a : α} (h : ∀ x ∈ xs, key x < key a) (ys : List α) :
    insertByKey key (xs ++ ys) a = xs ++ insertByKey key ys a := by
  induction xs with
  | nil => rfl
  | cons x xs ih =>
    obtain ⟨hx, hxs⟩ := List.forall_mem_cons.mp h
    show insertByKey key (x :: (xs ++ ys)) a = x :: (xs ++ insertByKey key ys a)
    rw [insertByKey, if_neg hx.not_gt, if_neg hx.ne, ih hxs]

/-- The newest element goes to the end. -/
theorem insertByKey_of_newest {xs : List α} {a : α} (h : ∀ x ∈ xs, key x < key a) :
    insertByKey key xs a = xs ++ [a] := by
  have happend := insertByKey_append h []
  rwa [List.append_nil] at happend

/-- An element whose key is there is written as `upsertBy` writes it. -/
theorem insertByKey_of_mem {xs : List α} (h : Ascending key xs) {a : α}
    (ha : ∃ x ∈ xs, key x = key a) : insertByKey key xs a = upsertBy key xs a := by
  obtain ⟨x, hx, hkey⟩ := ha
  obtain ⟨pre, post, rfl⟩ := List.append_of_mem hx
  obtain ⟨-, hpost, hpre⟩ := List.pairwise_append.mp h
  have hbefore : ∀ y ∈ pre, key y < key a := fun y hy => hkey ▸ hpre y hy x List.mem_cons_self
  have hafter : ∀ y ∈ post, key a < key y := fun y hy =>
    hkey ▸ (List.pairwise_cons.mp hpost).1 y hy
  have hreplace : replaceLast (fun y => decide (key y = key a)) a (x :: post) =
      some (a :: post) := by
    have hnone : replaceLast (fun y => decide (key y = key a)) a post = none :=
      replaceLast_eq_none_iff.mpr fun y hy => decide_eq_false (hafter y hy).ne'
    rw [replaceLast, hnone]
    simp only [hkey, decide_true, if_true]
  have hfront : ∀ pre : List α, replaceLast (fun y => decide (key y = key a)) a
      (pre ++ x :: post) = some (pre ++ a :: post) := by
    intro pre
    induction pre with
    | nil => exact hreplace
    | cons y pre ih => rw [List.cons_append, replaceLast, ih]; rfl
  rw [insertByKey_append hbefore, upsertBy, hfront, insertByKey, if_neg (hkey ▸ lt_irrefl _),
    if_pos hkey]
  rfl

theorem countP_le_insertByKey (p : α → Bool) (xs : List α) (a : α)
    (hp : ∀ x, key x = key a → p x = p a) : xs.countP p ≤ (insertByKey key xs a).countP p := by
  induction xs with
  | nil => exact Nat.zero_le _
  | cons x xs ih =>
    unfold insertByKey
    split_ifs with hlt heq
    · rw [List.countP_cons (a := a)]
      exact Nat.le_add_right _ _
    · rw [List.countP_cons, List.countP_cons, hp x heq]
    · rw [List.countP_cons, List.countP_cons]
      exact Nat.add_le_add_right ih _

/-! ## The window -/

theorem newest_suffix (c : ℕ) (xs : List α) : newest c xs <:+ xs := List.drop_suffix _ _

theorem mem_of_mem_newest {c : ℕ} {xs : List α} {x : α} (h : x ∈ newest c xs) : x ∈ xs :=
  (newest_suffix c xs).subset h

theorem ascending_newest {c : ℕ} {xs : List α} (h : Ascending key xs) :
    Ascending key (newest c xs) := h.sublist (newest_suffix c xs).sublist

theorem newest_of_length_le {c : ℕ} {xs : List α} (h : xs.length ≤ c) : newest c xs = xs := by
  rw [newest, Nat.sub_eq_zero_of_le h, List.drop_zero]

theorem length_newest (c : ℕ) (xs : List α) : (newest c xs).length = min c xs.length := by
  rw [newest, List.length_drop]
  omega

theorem map_newest {β : Type*} (f : α → β) (c : ℕ) (xs : List α) :
    (newest c xs).map f = newest c (xs.map f) := by
  unfold newest
  rw [List.map_drop, List.length_map]

/-- What is put behind the window moves it on. -/
theorem newest_concat {c : ℕ} (xs : List α) (a : α) :
    newest c (newest c xs ++ [a]) = newest c (xs ++ [a]) := by
  have hlen := length_newest c xs
  unfold newest at hlen ⊢
  rw [List.length_append, List.length_append, hlen, List.length_singleton]
  by_cases hc : c ≤ xs.length
  · rw [min_eq_left hc, ← List.drop_append_of_le_length (by omega), List.drop_drop]
    congr 1
    omega
  · have hzero : xs.length - c = 0 := by omega
    rw [hzero, List.drop_zero, min_eq_right (by omega)]

theorem getLast?_newest {c : ℕ} (hc : 0 < c) (xs : List α) :
    (newest c xs).getLast? = xs.getLast? := by
  unfold newest
  rw [List.getLast?_drop]
  split_ifs with h
  · have : xs = [] := List.eq_nil_of_length_eq_zero (by omega)
    rw [this]
    rfl
  · rfl

/-- The window holds what fewer than `c` elements follow. -/
theorem mem_newest_iff {c : ℕ} {xs : List α} (h : Ascending key xs) {x : α} (hx : x ∈ xs) :
    x ∈ newest c xs ↔ (xs.countP fun y => key x < key y) < c := by
  obtain ⟨pre, post, rfl⟩ := List.append_of_mem hx
  obtain ⟨-, hpost, hpre⟩ := List.pairwise_append.mp h
  have hafter : ∀ y ∈ post, key x < key y := (List.pairwise_cons.mp hpost).1
  have hcount : ((pre ++ x :: post).countP fun y => key x < key y) = post.length := by
    rw [List.countP_append, List.countP_cons]
    have hzero : (pre.countP fun y => key x < key y) = 0 := by
      refine List.countP_eq_zero.mpr ?_
      intro y hy
      simpa using (hpre y hy x List.mem_cons_self).le
    have hall : (post.countP fun y => key x < key y) = post.length :=
      List.countP_eq_length.mpr fun y hy => decide_eq_true (hafter y hy)
    rw [hzero, hall]
    simp
  rw [hcount]
  unfold newest
  rw [List.length_append, List.length_cons]
  constructor
  · intro hmem
    by_contra hge
    -- the window starts behind `x`
    have hsplit : pre.length + (post.length + 1) - c = pre.length + (post.length + 1 - c) := by
      omega
    rw [hsplit, List.drop_append, List.drop_eq_nil_of_le (by omega), List.nil_append] at hmem
    have htail : x ∈ post := by
      have : pre.length + (post.length + 1 - c) - pre.length = (post.length - c) + 1 := by omega
      rw [this, List.drop_succ_cons] at hmem
      exact List.mem_of_mem_drop hmem
    exact lt_irrefl _ (hafter x htail)
  · intro hlt
    rw [List.drop_append_of_le_length (by omega)]
    exact List.mem_append_right _ List.mem_cons_self

/-! ## Writing with `upsertBy` -/

theorem newest_append_of_le {c : ℕ} (xs : List α) {ys : List α} (h : c ≤ ys.length) :
    newest c (xs ++ ys) = newest c ys := by
  unfold newest
  rw [List.length_append, List.drop_append, List.drop_eq_nil_of_le (by omega), List.nil_append]
  congr 1
  omega

theorem length_upsertBy_of_mem {xs : List α} {a : α} (h : ∃ x ∈ xs, key x = key a) :
    (upsertBy key xs a).length = xs.length := by
  cases hreplace : replaceLast (fun x => decide (key x = key a)) a xs with
  | none =>
    obtain ⟨x, hx, hkey⟩ := h
    have hno := replaceLast_eq_none_iff.mp hreplace x hx
    rw [decide_eq_true hkey] at hno
    cases hno
  | some ys =>
    rw [upsertBy, hreplace]
    exact length_of_replaceLast hreplace

/-- An element that is newer than all is written alike. -/
theorem newest_upsertBy_of_newest {c : ℕ} {xs : List α} {a : α} (h : ∀ x ∈ xs, key x < key a) :
    newest c (upsertBy key (newest c xs) a) = newest c (insertByKey key xs a) := by
  rw [upsertBy_of_new key fun x hx => (h x (mem_of_mem_newest hx)).ne, newest_concat,
    insertByKey_of_newest h]

/-- An element whose key is in the window is written alike. -/
theorem newest_upsertBy_of_mem {c : ℕ} {xs : List α} (hxs : Ascending key xs) {a : α}
    (h : ∃ x ∈ newest c xs, key x = key a) :
    newest c (upsertBy key (newest c xs) a) = newest c (insertByKey key xs a) := by
  obtain ⟨old, hsplit⟩ := newest_suffix c xs
  have hold : ∀ x ∈ old, key x < key a := by
    intro x hx
    obtain ⟨y, hy, hkey⟩ := h
    rw [← hsplit] at hxs
    exact hkey ▸ (List.pairwise_append.mp hxs).2.2 x hx y hy
  have hinsert : insertByKey key xs a = old ++ upsertBy key (newest c xs) a := by
    rw [← insertByKey_of_mem (ascending_newest hxs) h, ← insertByKey_append hold, hsplit]
  rw [hinsert]
  have hlen := length_upsertBy_of_mem h
  rw [length_newest] at hlen
  by_cases hc : c ≤ xs.length
  · rw [newest_append_of_le old (by omega)]
  · have hnil : old = [] := by
      have := congrArg List.length hsplit
      rw [List.length_append, length_newest] at this
      exact List.eq_nil_of_length_eq_zero (by omega)
    rw [hnil, List.nil_append]

/-- Both ways of writing leave the same window just when the element is newer than all, or
    its key is in the window. -/
theorem newest_upsertBy_iff {c : ℕ} (hc : 0 < c) {xs : List α} (hxs : Ascending key xs) (a : α) :
    newest c (upsertBy key (newest c xs) a) = newest c (insertByKey key xs a) ↔
      (∀ x ∈ xs, key x < key a) ∨ ∃ x ∈ newest c xs, key x = key a := by
  constructor
  · intro heq
    by_contra hnot
    obtain ⟨hnewer, hwindow⟩ := not_or.mp hnot
    push Not at hnewer hwindow
    obtain ⟨x, hx, hle⟩ := hnewer
    have hend : (insertByKey key xs a).getLast? = some a := by
      have hlast := congrArg List.getLast? heq
      rwa [upsertBy_of_new key hwindow, newest_concat, getLast?_newest hc, getLast?_newest hc,
        List.getLast?_concat, eq_comm] at hlast
    -- but the last element of `xs` is newer than `a`
    obtain ⟨last, hlast⟩ : ∃ last, xs.getLast? = some last :=
      Option.isSome_iff_exists.mp (List.getLast?_isSome.mpr (List.ne_nil_of_mem hx))
    have hmem : last ∈ newest c xs := List.mem_of_getLast? (by rw [getLast?_newest hc, hlast])
    have hle : key a ≤ key last := hle.trans (le_getLast hxs hlast hx)
    have hlt : key a < key last := lt_of_le_of_ne hle (hwindow last hmem).symm
    have hstays : last ∈ insertByKey key xs a :=
      mem_insertByKey_of_ne (mem_of_mem_newest hmem) hlt.ne'
    exact absurd (le_getLast (ascending_insertByKey hxs a) hend hstays) hlt.not_ge
  · rintro (h | h)
    · exact newest_upsertBy_of_newest h
    · exact newest_upsertBy_of_mem hxs h

/-! ## Writing to the window of a list with distinct keys -/

omit [LinearOrder κ] in
/-- The window of a list that was written to, when the key was not in the window. -/
theorem newest_upsertBy_of_evicted [DecidableEq κ] {c : ℕ} {xs : List α} {a : α}
    (h : ∃ x ∈ xs, key x = key a) (hnot : ∀ x ∈ newest c xs, key x ≠ key a) :
    newest c (upsertBy key xs a) = newest c xs := by
  obtain ⟨old, hsplit⟩ := newest_suffix c xs
  have hold : ∃ x ∈ old, key x = key a := by
    obtain ⟨x, hx, hkey⟩ := h
    rw [← hsplit] at hx
    rcases List.mem_append.mp hx with hx | hx
    · exact ⟨x, hx, hkey⟩
    · exact absurd hkey (hnot x hx)
  have hlen : c ≤ (newest c xs).length := by
    obtain ⟨x, hx, -⟩ := hold
    have hpos := List.length_pos_of_mem hx
    have hsum := congrArg List.length hsplit
    rw [List.length_append, length_newest] at hsum
    rw [length_newest]
    omega
  have hwritten : upsertBy key xs a = upsertBy key old a ++ newest c xs := by
    rw [← upsertBy_append_of_not_mem key hold hnot, hsplit]
  rw [hwritten, newest_append_of_le _ hlen, newest_of_length_le]
  rw [length_newest]
  exact min_le_left _ _

omit [LinearOrder κ] in
/-- Writing to the window leaves the window of the list written to, just when the key is in
    the window if it is in the list. -/
theorem newest_upsertBy_window_iff [DecidableEq κ] {c : ℕ} (hc : 0 < c) (xs : List α) (a : α) :
    newest c (upsertBy key (newest c xs) a) = newest c (upsertBy key xs a) ↔
      ((∃ x ∈ xs, key x = key a) → ∃ x ∈ newest c xs, key x = key a) := by
  by_cases hwindow : ∃ x ∈ newest c xs, key x = key a
  · refine iff_of_true ?_ fun _ => hwindow
    obtain ⟨old, hsplit⟩ := newest_suffix c xs
    have hwritten : upsertBy key xs a = old ++ upsertBy key (newest c xs) a := by
      rw [← upsertBy_append_of_mem key old hwindow, hsplit]
    have hlen : (upsertBy key (newest c xs) a).length = (newest c xs).length := by
      rw [← List.length_map key, keys_upsertBy_of_mem key hwindow, List.length_map]
    rw [hwritten]
    by_cases hfull : c ≤ (newest c xs).length
    · rw [newest_append_of_le _ (hlen ▸ hfull)]
    · have hnil : old = [] := by
        have hsum := congrArg List.length hsplit
        rw [List.length_append, length_newest] at hsum
        rw [length_newest] at hfull
        exact List.eq_nil_of_length_eq_zero (by omega)
      rw [hnil, List.nil_append]
  · have hnot : ∀ x ∈ newest c xs, key x ≠ key a := fun x hx hkey => hwindow ⟨x, hx, hkey⟩
    rw [upsertBy_of_new key hnot, newest_concat]
    by_cases hmem : ∃ x ∈ xs, key x = key a
    · refine iff_of_false (fun heq => ?_) fun himp => hwindow (himp hmem)
      rw [newest_upsertBy_of_evicted hmem hnot] at heq
      have hlast := congrArg List.getLast? heq
      rw [getLast?_newest hc, List.getLast?_concat] at hlast
      exact hnot a (List.mem_of_getLast? hlast.symm) rfl
    · rw [upsertBy_of_new key fun x hx hkey => hmem ⟨x, hx, hkey⟩]
      exact iff_of_true rfl fun h => absurd h hmem

omit [LinearOrder κ] in
/-- Appending to the window instead leaves it just when the key is new, or the window is the
    one element it replaces. -/
theorem newest_append_window_iff [DecidableEq κ] {c : ℕ} (hc : 0 < c) {xs : List α}
    (hxs : (xs.map key).Nodup) (a : α) :
    newest c (newest c xs ++ [a]) = newest c (upsertBy key xs a) ↔
      ((∃ x ∈ xs, key x = key a) → c = 1 ∧ ∃ x ∈ newest c xs, key x = key a) := by
  rw [newest_concat]
  by_cases hmem : ∃ x ∈ xs, key x = key a
  · rw [imp_iff_right hmem]
    constructor
    · intro heq
      have hkeys : newest c (xs.map key ++ [key a]) = newest c (xs.map key) := by
        have hmap := congrArg (List.map key) heq
        rwa [map_newest, map_newest, keys_upsertBy_of_mem key hmem, List.map_append,
          List.map_singleton] at hmap
      have hlast : (xs.map key).getLast? = some (key a) := by
        have hends := congrArg List.getLast? hkeys
        rwa [getLast?_newest hc, getLast?_newest hc, List.getLast?_concat, eq_comm] at hends
      obtain ⟨x, hx, hkey⟩ : ∃ x, xs.getLast? = some x ∧ key x = key a := by
        rw [List.getLast?_map] at hlast
        exact Option.map_eq_some_iff.mp hlast
      refine ⟨?_, x, List.mem_of_getLast? (by rw [getLast?_newest hc, hx]), hkey⟩
      by_contra hne
      -- two windows of one length, of which one ends in the key twice
      obtain ⟨old, hold⟩ : ∃ old, xs.map key = old ++ [key a] :=
        ⟨(xs.map key).dropLast, (List.dropLast_append_getLast? _ hlast).symm⟩
      have htwice : [key a, key a] <:+ newest c (xs.map key ++ [key a]) := by
        rw [hold, List.append_assoc]
        unfold newest
        rw [List.length_append, List.drop_append_of_le_length]
        · exact List.suffix_append _ _
        · simp only [List.length_append, List.length_singleton]
          omega
      rw [hkeys] at htwice
      have hnodup := (hxs.sublist (newest_suffix c _).sublist).sublist htwice.sublist
      simp at hnodup
    · rintro ⟨rfl, x, hx, hkey⟩
      obtain ⟨old, hsplit⟩ := newest_suffix 1 xs
      have hone : newest 1 xs = [x] := by
        have hlen := length_newest 1 xs
        have hpos := List.length_pos_of_mem hx
        obtain ⟨y, hy⟩ := List.length_eq_one_iff.mp (by omega : (newest 1 xs).length = 1)
        rw [hy] at hx ⊢
        rw [List.mem_singleton.mp hx]
      rw [hone] at hsplit
      have hlen : 1 ≤ [a].length := le_rfl
      rw [← hsplit, upsertBy_of_last key hkey, newest_append_of_le _ hlen,
        newest_append_of_le _ hlen]
  · rw [upsertBy_of_new key fun x hx hkey => hmem ⟨x, hx, hkey⟩]
    exact iff_of_true rfl fun h => absurd h hmem

/-! ## `dedup_by_key` -/

/-- On a sorted list that starts at `k` or later, the first element of every other key stays. -/
theorem mem_dedupAfter_iff {k : κ} {xs : List α} (hxs : xs.Pairwise fun x y => key x ≤ key y)
    (hk : ∀ x ∈ xs, k ≤ key x) {b : α} :
    b ∈ dedupAfter key k xs ↔ key b ≠ k ∧ xs.find? (fun x => key x = key b) = some b := by
  induction xs generalizing k with
  | nil => simp [dedupAfter]
  | cons x xs ih =>
    obtain ⟨hx, hxs⟩ := List.pairwise_cons.mp hxs
    obtain ⟨hkx, hk⟩ := List.forall_mem_cons.mp hk
    unfold dedupAfter
    split_ifs with heq
    · rw [ih hxs hk]
      refine and_congr_right fun hb => ?_
      rw [List.find?_cons_of_neg (by simpa [heq] using Ne.symm hb)]
    · rw [List.mem_cons, ih hxs hx]
      by_cases hbx : key x = key b
      · rw [List.find?_cons_of_pos (by simpa using hbx)]
        simp only [Option.some.injEq]
        constructor
        · rintro (rfl | ⟨hne, -⟩)
          · exact ⟨heq, rfl⟩
          · exact absurd hbx.symm hne
        · rintro ⟨-, rfl⟩
          exact Or.inl rfl
      · rw [List.find?_cons_of_neg (by simpa using hbx)]
        constructor
        · rintro (rfl | ⟨-, hfind⟩)
          · exact absurd rfl hbx
          · have hmem := List.mem_of_find?_eq_some hfind
            have hlt : k < key x := lt_of_le_of_ne hkx (Ne.symm heq)
            exact ⟨(hlt.trans_le (hx b hmem)).ne', hfind⟩
        · rintro ⟨-, hfind⟩
          exact Or.inr ⟨Ne.symm hbx, hfind⟩

theorem ascending_dedupAfter {k : κ} {xs : List α} (hxs : xs.Pairwise fun x y => key x ≤ key y)
    (hk : ∀ x ∈ xs, k ≤ key x) :
    Ascending key (dedupAfter key k xs) ∧ ∀ b ∈ dedupAfter key k xs, k < key b := by
  induction xs generalizing k with
  | nil => exact ⟨List.Pairwise.nil, fun b hb => by cases hb⟩
  | cons x xs ih =>
    obtain ⟨hx, hxs⟩ := List.pairwise_cons.mp hxs
    obtain ⟨hkx, hk⟩ := List.forall_mem_cons.mp hk
    unfold dedupAfter
    split_ifs with heq
    · exact ih hxs hk
    · have hlt : k < key x := lt_of_le_of_ne hkx (Ne.symm heq)
      obtain ⟨hasc, hall⟩ := ih hxs hx
      refine ⟨List.pairwise_cons.mpr ⟨hall, hasc⟩, ?_⟩
      intro b hb
      rcases List.mem_cons.mp hb with rfl | hb
      · exact hlt
      · exact hlt.trans (hall b hb)

/-- Of a sorted list the first element of each key stays. -/
theorem mem_dedupByKey_iff {xs : List α} (hxs : xs.Pairwise fun x y => key x ≤ key y) {b : α} :
    b ∈ dedupByKey key xs ↔ xs.find? (fun x => key x = key b) = some b := by
  cases xs with
  | nil => simp [dedupByKey]
  | cons x xs =>
    obtain ⟨hx, hxs⟩ := List.pairwise_cons.mp hxs
    unfold dedupByKey
    rw [List.mem_cons, mem_dedupAfter_iff hxs hx]
    by_cases hbx : key x = key b
    · rw [List.find?_cons_of_pos (by simpa using hbx), Option.some.injEq]
      constructor
      · rintro (rfl | ⟨hne, -⟩)
        · rfl
        · exact absurd hbx.symm hne
      · rintro rfl
        exact Or.inl rfl
    · rw [List.find?_cons_of_neg (by simpa using hbx)]
      constructor
      · rintro (rfl | ⟨-, hfind⟩)
        · exact absurd rfl hbx
        · exact hfind
      · exact fun hfind => Or.inr ⟨Ne.symm hbx, hfind⟩

theorem ascending_dedupByKey {xs : List α} (hxs : xs.Pairwise fun x y => key x ≤ key y) :
    Ascending key (dedupByKey key xs) := by
  cases xs with
  | nil => exact List.Pairwise.nil
  | cons x xs =>
    obtain ⟨hx, hxs⟩ := List.pairwise_cons.mp hxs
    obtain ⟨hasc, hall⟩ := ascending_dedupAfter hxs hx
    exact List.pairwise_cons.mpr ⟨hall, hasc⟩

/-- `sort_by_key`, which is stable. -/
def sortByKey (key : α → κ) (xs : List α) : List α := xs.mergeSort fun x y => key x ≤ key y

theorem sorted_sortByKey (xs : List α) :
    (sortByKey key xs).Pairwise fun x y => key x ≤ key y := by
  have hsorted : (sortByKey key xs).Pairwise fun x y => decide (key x ≤ key y) = true := by
    refine List.pairwise_mergeSort (fun x y z hxy hyz => ?_) (fun x y => ?_) xs
    · simpa using (of_decide_eq_true hxy).trans (of_decide_eq_true hyz)
    · simpa using le_total (key x) (key y)
  exact hsorted.imp fun h => of_decide_eq_true h

/-- A stable sort keeps the order of the elements of one key. -/
theorem find?_sortByKey (xs : List α) (k : κ) :
    (sortByKey key xs).find? (fun x => key x = k) = xs.find? fun x => key x = k := by
  have hsub : (xs.filter fun x => key x = k).Sublist (sortByKey key xs) := by
    refine List.sublist_mergeSort (fun x y z hxy hyz => ?_) (fun x y => ?_) ?_ List.filter_sublist
    · simpa using (of_decide_eq_true hxy).trans (of_decide_eq_true hyz)
    · simpa using le_total (key x) (key y)
    · refine List.pairwise_of_forall_mem_list ?_
      intro x hx y hy
      have hx : key x = k := by simpa using (List.mem_filter.mp hx).2
      have hy : key y = k := by simpa using (List.mem_filter.mp hy).2
      exact decide_eq_true (hx.trans hy.symm).le
  have hfilter : ((sortByKey key xs).filter fun x => key x = k) =
      xs.filter fun x => key x = k := by
    have hsub := hsub.filter fun x => decide (key x = k)
    rw [List.filter_filter] at hsub
    simp only [Bool.and_self] at hsub
    refine (hsub.eq_of_length ?_).symm
    exact ((List.mergeSort_perm xs _).filter _).length_eq.symm
  rw [← List.head?_filter, ← List.head?_filter, hfilter]

theorem sortByKey_perm (key : α → κ) (xs : List α) : (sortByKey key xs).Perm xs :=
  List.mergeSort_perm xs _

@[simp] theorem mem_sortByKey (key : α → κ) {xs : List α} {x : α} :
    x ∈ sortByKey key xs ↔ x ∈ xs :=
  (sortByKey_perm key xs).mem_iff

/-- The last element of a sorted list has a greatest key. -/
theorem le_getLast_sortByKey {xs : List α} {a : α} (h : (sortByKey key xs).getLast? = some a) :
    a ∈ xs ∧ ∀ x ∈ xs, key x ≤ key a := by
  obtain ⟨ys, hys⟩ := List.getLast?_eq_some_iff.mp h
  have hsorted : (sortByKey key xs).Pairwise fun x y => key x ≤ key y := sorted_sortByKey xs
  rw [hys, List.pairwise_append] at hsorted
  refine ⟨?_, fun x hx => ?_⟩
  · rw [← mem_sortByKey key, hys]
    exact List.mem_append_right _ (List.mem_singleton_self a)
  · rw [← mem_sortByKey key, hys, List.mem_append, List.mem_singleton] at hx
    rcases hx with hx | rfl
    · exact hsorted.2.2 x hx a (List.mem_singleton_self a)
    · exact le_rfl

end Digdigdig3
