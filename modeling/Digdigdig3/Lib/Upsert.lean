import Mathlib.Tactic
import Mathlib.Data.List.Basic

/-!
# Last-write-wins lists

`replaceLast p a xs` overwrites the last element of `xs` that satisfies `p`;
`upsertBy key xs a` overwrites the last element with the key of `a`, or appends
`a` when there is none. `lastWins` stores a list of writes this way.

* `upsertBy_append_of_mem`, `keys_upsertBy_of_mem`: where a write lands, and what it keeps.
* `nodup_keys_lastWins`: one element for each key.
* `mem_lastWins`: the element of a key is its last write.
-/

namespace Digdigdig3

variable {α κ : Type*}

/-- Overwrite the last element that satisfies `p`; `none` if no element does. -/
def replaceLast (p : α → Bool) (a : α) : List α → Option (List α)
  | [] => none
  | x :: xs =>
    match replaceLast p a xs with
    | some ys => some (x :: ys)
    | none => if p x then some (a :: xs) else none

theorem replaceLast_eq_none_iff {p : α → Bool} {a : α} {xs : List α} :
    replaceLast p a xs = none ↔ ∀ x ∈ xs, p x = false := by
  induction xs with
  | nil => simp [replaceLast]
  | cons x xs ih =>
    rw [replaceLast, List.forall_mem_cons]
    cases h : replaceLast p a xs with
    | some ys =>
      rw [h] at ih
      simp only [reduceCtorEq, false_iff] at ih ⊢
      exact fun hall => ih hall.2
    | none =>
      rw [h] at ih
      have hall := ih.mp rfl
      by_cases hx : p x
      · simp [hx]
      · simpa [hx] using hall

theorem length_of_replaceLast {p : α → Bool} {a : α} {xs ys : List α}
    (h : replaceLast p a xs = some ys) : ys.length = xs.length := by
  induction xs generalizing ys with
  | nil => cases h
  | cons x xs ih =>
    rw [replaceLast] at h
    cases hrec : replaceLast p a xs with
    | some zs =>
      rw [hrec] at h
      cases h
      rw [List.length_cons, List.length_cons, ih hrec]
    | none =>
      rw [hrec] at h
      simp only at h
      split_ifs at h
      cases h
      rfl

theorem replaceLast_concat {p : α → Bool} {a x : α} (xs : List α) (hx : p x = true) :
    replaceLast p a (xs ++ [x]) = some (xs ++ [a]) := by
  induction xs with
  | nil => simp [replaceLast, hx]
  | cons y ys ih => rw [List.cons_append, replaceLast, ih]; rfl

variable [DecidableEq κ] (key : α → κ)

/-- Insert or replace by key. -/
def upsertBy (xs : List α) (a : α) : List α :=
  (replaceLast (fun x => decide (key x = key a)) a xs).getD (xs ++ [a])

/-- The writes `as` stored one after the other, the last write of each key winning. -/
def lastWins (as : List α) : List α := as.foldl (upsertBy key) []

theorem upsertBy_of_new {xs : List α} {a : α} (h : ∀ x ∈ xs, key x ≠ key a) :
    upsertBy key xs a = xs ++ [a] := by
  have hnone : replaceLast (fun x => decide (key x = key a)) a xs = none :=
    replaceLast_eq_none_iff.mpr fun x hx => decide_eq_false (h x hx)
  rw [upsertBy, hnone]
  rfl

theorem upsertBy_of_last {xs : List α} {x a : α} (h : key x = key a) :
    upsertBy key (xs ++ [x]) a = xs ++ [a] := by
  rw [upsertBy, replaceLast_concat xs (decide_eq_true h)]
  rfl

@[simp] theorem lastWins_nil : lastWins key ([] : List α) = [] := rfl

theorem lastWins_concat (as : List α) (a : α) :
    lastWins key (as ++ [a]) = upsertBy key (lastWins key as) a := by
  simp [lastWins]

/-! ## Keys -/

theorem replaceLast_append (p : α → Bool) (a : α) (xs ys : List α) :
    replaceLast p a (xs ++ ys) =
      match replaceLast p a ys with
      | some zs => some (xs ++ zs)
      | none => (replaceLast p a xs).map (· ++ ys) := by
  induction xs with
  | nil =>
    rw [List.nil_append]
    cases replaceLast p a ys <;> rfl
  | cons x xs ih =>
    rw [List.cons_append, replaceLast, ih, replaceLast]
    cases replaceLast p a ys with
    | some zs => rfl
    | none =>
      cases replaceLast p a xs with
      | some zs => rfl
      | none =>
        show (if p x then some (a :: (xs ++ ys)) else none) =
          (if p x then some (a :: xs) else none).map (· ++ ys)
        split_ifs <;> rfl

theorem replaceLast_isSome {xs : List α} {a : α} (h : ∃ x ∈ xs, key x = key a) :
    ∃ ys, replaceLast (fun x => decide (key x = key a)) a xs = some ys := by
  rw [← Option.isSome_iff_exists, ← Option.ne_none_iff_isSome]
  intro hnone
  obtain ⟨x, hx, hkey⟩ := h
  exact absurd (replaceLast_eq_none_iff.mp hnone x hx) (by simp [hkey])

theorem upsertBy_append_of_mem (xs : List α) {ys : List α} {a : α}
    (h : ∃ y ∈ ys, key y = key a) : upsertBy key (xs ++ ys) a = xs ++ upsertBy key ys a := by
  obtain ⟨zs, hzs⟩ := replaceLast_isSome key h
  rw [upsertBy, upsertBy, replaceLast_append, hzs]
  rfl

theorem upsertBy_append_of_not_mem {xs ys : List α} {a : α} (hxs : ∃ x ∈ xs, key x = key a)
    (hys : ∀ y ∈ ys, key y ≠ key a) :
    upsertBy key (xs ++ ys) a = upsertBy key xs a ++ ys := by
  obtain ⟨zs, hzs⟩ := replaceLast_isSome key hxs
  have hnone : replaceLast (fun x => decide (key x = key a)) a ys = none :=
    replaceLast_eq_none_iff.mpr fun y hy => decide_eq_false (hys y hy)
  rw [upsertBy, upsertBy, replaceLast_append, hnone, hzs]
  rfl

/-- Replacing keeps the keys. -/
theorem keys_upsertBy_of_mem {xs : List α} {a : α} (h : ∃ x ∈ xs, key x = key a) :
    (upsertBy key xs a).map key = xs.map key := by
  induction xs with
  | nil => simp at h
  | cons x xs ih =>
    by_cases htail : ∃ y ∈ xs, key y = key a
    · have hsplit := upsertBy_append_of_mem key [x] htail
      rw [List.singleton_append, List.singleton_append] at hsplit
      rw [hsplit, List.map_cons, List.map_cons, ih htail]
    · have hhead : key x = key a := by
        obtain ⟨y, hy, hkey⟩ := h
        rcases List.mem_cons.mp hy with rfl | hy
        · exact hkey
        · exact absurd ⟨y, hy, hkey⟩ htail
      have hsplit : upsertBy key ([x] ++ xs) a = upsertBy key [x] a ++ xs :=
        upsertBy_append_of_not_mem key ⟨x, List.mem_singleton_self x, hhead⟩
          fun y hy hkey => htail ⟨y, hy, hkey⟩
      have hlast : upsertBy key ([] ++ [x]) a = [] ++ [a] := upsertBy_of_last key hhead
      rw [List.nil_append, List.nil_append] at hlast
      rw [List.singleton_append, hlast, List.singleton_append] at hsplit
      rw [hsplit, List.map_cons, List.map_cons, hhead]

/-- One element for each key. -/
theorem nodup_keys_lastWins (as : List α) : ((lastWins key as).map key).Nodup := by
  induction as using List.reverseRecOn with
  | nil => exact List.nodup_nil
  | append_singleton as a ih =>
    rw [lastWins_concat]
    by_cases h : ∃ x ∈ lastWins key as, key x = key a
    · rw [keys_upsertBy_of_mem key h]
      exact ih
    · have hnew : ∀ x ∈ lastWins key as, key x ≠ key a := fun x hx hkey => h ⟨x, hx, hkey⟩
      rw [upsertBy_of_new key hnew, List.map_append]
      refine List.nodup_append.mpr ⟨ih, List.nodup_singleton _, ?_⟩
      intro k hk k' hk'
      obtain ⟨x, hx, rfl⟩ := List.mem_map.mp hk
      rw [List.map_singleton, List.mem_singleton] at hk'
      rw [hk']
      exact hnew x hx

/-- A write takes the place of the element with its key. -/
theorem mem_upsertBy {xs : List α} (hxs : (xs.map key).Nodup) {a x : α} :
    x ∈ upsertBy key xs a ↔ x = a ∨ x ∈ xs ∧ key x ≠ key a := by
  by_cases h : ∃ y ∈ xs, key y = key a
  · obtain ⟨y, hy, hkey⟩ := h
    obtain ⟨pre, post, rfl⟩ := List.append_of_mem hy
    rw [List.map_append, List.map_cons, List.nodup_middle, List.nodup_cons, ← List.map_append,
      hkey] at hxs
    have hother : ∀ z ∈ pre ++ post, key z ≠ key a :=
      fun z hz heq => hxs.1 (heq ▸ List.mem_map_of_mem hz)
    have hpost : ∀ z ∈ post, key z ≠ key a := fun z hz => hother z (List.mem_append_right _ hz)
    have hplace : upsertBy key (pre ++ y :: post) a = pre ++ a :: post := by
      rw [List.append_cons, upsertBy_append_of_not_mem key ⟨y, by simp, hkey⟩ hpost,
        upsertBy_of_last key hkey, ← List.append_cons]
    rw [hplace]
    constructor
    · intro hx
      rcases List.mem_append.mp hx with hx | hx
      · have hx' := List.mem_append_left post hx
        exact Or.inr ⟨List.mem_append_left _ hx, hother x hx'⟩
      · rcases List.mem_cons.mp hx with rfl | hx
        · exact Or.inl rfl
        · exact Or.inr ⟨List.mem_append_right _ (List.mem_cons_of_mem _ hx), hpost x hx⟩
    · rintro (rfl | ⟨hx, hne⟩)
      · simp
      · rcases List.mem_append.mp hx with hx | hx
        · exact List.mem_append_left _ hx
        · rcases List.mem_cons.mp hx with rfl | hx
          · exact absurd hkey hne
          · exact List.mem_append_right _ (List.mem_cons_of_mem _ hx)
  · have hnew : ∀ y ∈ xs, key y ≠ key a := fun y hy heq => h ⟨y, hy, heq⟩
    rw [upsertBy_of_new key hnew, List.mem_append, List.mem_singleton]
    constructor
    · rintro (hx | rfl)
      · exact Or.inr ⟨hx, hnew x hx⟩
      · exact Or.inl rfl
    · rintro (rfl | ⟨hx, -⟩)
      · exact Or.inr rfl
      · exact Or.inl hx

/-- What is left of some writes: those that no later write of their key follows. -/
theorem mem_lastWins {as : List α} {x : α} :
    x ∈ lastWins key as ↔ ∃ pre post, as = pre ++ x :: post ∧ ∀ y ∈ post, key y ≠ key x := by
  induction as using List.reverseRecOn with
  | nil => simp
  | append_singleton as a ih =>
    rw [lastWins_concat, mem_upsertBy key (nodup_keys_lastWins key as), ih]
    constructor
    · rintro (rfl | ⟨⟨pre, post, rfl, hpost⟩, hne⟩)
      · exact ⟨as, [], rfl, by simp⟩
      · refine ⟨pre, post ++ [a], by simp, fun y hy => ?_⟩
        rcases List.mem_append.mp hy with hy | hy
        · exact hpost y hy
        · rw [List.mem_singleton.mp hy]
          exact hne.symm
    · rintro ⟨pre, post, has, hpost⟩
      rcases List.eq_nil_or_concat post with rfl | ⟨post, b, rfl⟩
      · exact Or.inl (List.append_inj_right' has rfl |> List.cons.inj |>.1).symm
      · rw [List.concat_eq_append] at has hpost
        rw [← List.cons_append, ← List.append_assoc] at has
        obtain ⟨rfl, hab⟩ := List.append_inj' has rfl
        obtain rfl := (List.cons.inj hab).1
        exact Or.inr ⟨⟨pre, post, rfl, fun y hy => hpost y (List.mem_append_left _ hy)⟩,
          (hpost a (by simp)).symm⟩

end Digdigdig3
