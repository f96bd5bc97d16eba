import Mathlib.Tactic

/-!
# Splitting texts at separators and at listed suffixes

Two fields that are written one after the other are found again by a separator that the first
one does not contain, or by looking for a suffix that is listed.

* `splitOnce_eq_some`: the first separator.
* `split_append`, `splitN_four_eq_four`, `splitN_four_eq_two`: the parts between separators.
* `splitBySuffix_append_iff`: a listed suffix is found again just when no suffix listed before it
  ends the text as well.
-/

namespace Digdigdig3

variable {α : Type*} [DecidableEq α]

/-! ## Separators -/

/-- The text before the first separator and the text after it. -/
def splitOnce (sep : α) : List α → Option (List α × List α)
  | [] => none
  | c :: cs =>
    if c = sep then some ([], cs) else (splitOnce sep cs).map fun p => (c :: p.1, p.2)

/-- All texts between separators. -/
def split (sep : α) : List α → List (List α)
  | [] => [[]]
  | c :: cs =>
    if c = sep then [] :: split sep cs
    else
      match split sep cs with
      | [] => [[c]]
      | part :: parts => (c :: part) :: parts

/-- The texts between separators, with everything from the `n`-th on in one. -/
def splitN (sep : α) : ℕ → List α → List (List α)
  | 0, _ => []
  | 1, s => [s]
  | n + 2, s =>
    match splitOnce sep s with
    | none => [s]
    | some (a, b) => a :: splitN sep (n + 1) b

theorem splitOnce_append {sep : α} {a : List α} (h : sep ∉ a) (b : List α) :
    splitOnce sep (a ++ sep :: b) = some (a, b) := by
  induction a with
  | nil => simp [splitOnce]
  | cons c a ih =>
    rw [List.mem_cons, not_or] at h
    rw [List.cons_append, splitOnce, if_neg (Ne.symm h.1), ih h.2]
    rfl

theorem splitOnce_of_notMem {sep : α} {s : List α} (h : sep ∉ s) : splitOnce sep s = none := by
  induction s with
  | nil => rfl
  | cons c s ih =>
    rw [List.mem_cons, not_or] at h
    rw [splitOnce, if_neg (Ne.symm h.1), ih h.2]
    rfl

theorem splitOnce_eq_some {sep : α} {s a b : List α} :
    splitOnce sep s = some (a, b) ↔ s = a ++ sep :: b ∧ sep ∉ a := by
  constructor
  · intro h
    by_cases hsep : sep ∈ s
    · obtain ⟨x, y, rfl, hx⟩ := List.eq_append_cons_of_mem hsep
      rw [splitOnce_append hx] at h
      cases h
      exact ⟨rfl, hx⟩
    · rw [splitOnce_of_notMem hsep] at h
      cases h
  · rintro ⟨rfl, h⟩
    exact splitOnce_append h b

theorem splitOnce_eq_none {sep : α} {s : List α} : splitOnce sep s = none ↔ sep ∉ s := by
  refine ⟨fun h hsep => ?_, splitOnce_of_notMem⟩
  obtain ⟨x, y, rfl, hx⟩ := List.eq_append_cons_of_mem hsep
  rw [splitOnce_append hx] at h
  cases h

theorem split_append {sep : α} {a : List α} (h : sep ∉ a) (b : List α) :
    split sep (a ++ sep :: b) = a :: split sep b := by
  induction a with
  | nil => simp [split]
  | cons c a ih =>
    rw [List.mem_cons, not_or] at h
    rw [List.cons_append, split, if_neg (Ne.symm h.1), ih h.2]

theorem split_of_notMem {sep : α} {a : List α} (h : sep ∉ a) : split sep a = [a] := by
  induction a with
  | nil => rfl
  | cons c a ih =>
    rw [List.mem_cons, not_or] at h
    rw [split, if_neg (Ne.symm h.1), ih h.2]

theorem split_ne_nil (sep : α) (s : List α) : split sep s ≠ [] := by
  by_cases h : sep ∈ s
  · obtain ⟨a, b, rfl, ha⟩ := List.eq_append_cons_of_mem h
    rw [split_append ha]
    exact List.cons_ne_nil _ _
  · rw [split_of_notMem h]
    exact List.cons_ne_nil _ _

/-- Splitting at one separator splits both sides. -/
theorem split_append_sep (sep : α) (a b : List α) :
    split sep (a ++ sep :: b) = split sep a ++ split sep b := by
  induction a with
  | nil => simp [split]
  | cons c a ih =>
    by_cases hc : c = sep
    · simp [split, hc, ih]
    · rw [List.cons_append, split, if_neg hc, ih, split, if_neg hc]
      cases h : split sep a with
      | nil => exact absurd h (split_ne_nil sep a)
      | cons part parts => rfl

theorem notMem_of_mem_split {sep : α} {s p : List α} (h : p ∈ split sep s) : sep ∉ p := by
  induction s generalizing p with
  | nil =>
    rw [split, List.mem_singleton] at h
    rw [h]
    exact List.not_mem_nil
  | cons c s ih =>
    by_cases hc : c = sep
    · rw [split, if_pos hc, List.mem_cons] at h
      rcases h with rfl | h
      · exact List.not_mem_nil
      · exact ih h
    · rw [split, if_neg hc] at h
      cases hs : split sep s with
      | nil => exact absurd hs (split_ne_nil sep s)
      | cons part parts =>
        rw [hs] at h ih
        rcases List.mem_cons.mp h with rfl | h
        · rw [List.mem_cons, not_or]
          exact ⟨Ne.symm hc, ih List.mem_cons_self⟩
        · exact ih (List.mem_cons_of_mem _ h)

/-- The last part after a separator is the text after it just when that has none. -/
theorem getLast?_split_append {sep : α} {a b : List α} :
    (split sep (a ++ sep :: b)).getLast? = some b ↔ sep ∉ b := by
  rw [split_append_sep, List.getLast?_append_of_ne_nil _ (split_ne_nil sep b)]
  constructor
  · intro h
    exact notMem_of_mem_split (List.mem_of_getLast? h)
  · intro h
    rw [split_of_notMem h]
    rfl

/-- A separator-free text with the separator after it begins just the texts whose first part it
    is. -/
theorem concat_sep_prefix_iff {sep : α} {a b : List α} (ha : sep ∉ a) (hb : sep ∉ b)
    (s : List α) : a ++ [sep] <+: b ++ sep :: s ↔ a = b := by
  constructor
  · rintro ⟨t, h⟩
    have hsplit := splitOnce_append hb s
    rw [← h, List.append_assoc, List.singleton_append, splitOnce_append ha] at hsplit
    cases hsplit
    rfl
  · rintro rfl
    exact ⟨s, by simp⟩

theorem splitN_of_notMem {sep : α} {s : List α} (h : sep ∉ s) (n : ℕ) :
    splitN sep (n + 1) s = [s] := by
  cases n with
  | zero => rfl
  | succ n => rw [splitN, splitOnce_of_notMem h]

theorem splitN_append {sep : α} {a : List α} (h : sep ∉ a) (b : List α) (n : ℕ) :
    splitN sep (n + 2) (a ++ sep :: b) = a :: splitN sep (n + 1) b := by
  rw [splitN, splitOnce_append h]

theorem splitN_ne_nil (sep : α) (n : ℕ) (s : List α) : splitN sep (n + 1) s ≠ [] := by
  by_cases h : sep ∈ s
  · obtain ⟨a, b, rfl, ha⟩ := List.eq_append_cons_of_mem h
    cases n with
    | zero => simp [splitN]
    | succ n => simp [splitN_append ha]
  · simp [splitN_of_notMem h]

theorem splitN_eq_cons {sep : α} {n : ℕ} {s a : List α} {parts : List (List α)}
    (hparts : parts ≠ []) :
    splitN sep (n + 2) s = a :: parts ↔
      ∃ b, s = a ++ sep :: b ∧ sep ∉ a ∧ splitN sep (n + 1) b = parts := by
  constructor
  · intro h
    by_cases hsep : sep ∈ s
    · obtain ⟨x, y, rfl, hx⟩ := List.eq_append_cons_of_mem hsep
      rw [splitN_append hx] at h
      cases h
      exact ⟨y, rfl, hx, rfl⟩
    · rw [splitN_of_notMem hsep] at h
      cases h
      exact absurd rfl hparts
  · rintro ⟨b, rfl, ha, rfl⟩
    exact splitN_append ha b n

theorem splitN_eq_singleton {sep : α} {n : ℕ} {s a : List α} :
    splitN sep (n + 2) s = [a] ↔ s = a ∧ sep ∉ a := by
  constructor
  · intro h
    by_cases hsep : sep ∈ s
    · obtain ⟨x, y, rfl, hx⟩ := List.eq_append_cons_of_mem hsep
      rw [splitN_append hx, List.cons.injEq] at h
      exact absurd h.2 (splitN_ne_nil sep n y)
    · rw [splitN_of_notMem hsep] at h
      cases h
      exact ⟨rfl, hsep⟩
  · rintro ⟨rfl, h⟩
    exact splitN_of_notMem h (n + 1)

theorem splitN_four_eq_two {sep : α} {s a b : List α} :
    splitN sep 4 s = [a, b] ↔ s = a ++ sep :: b ∧ sep ∉ a ∧ sep ∉ b := by
  rw [splitN_eq_cons (List.cons_ne_nil _ _)]
  constructor
  · rintro ⟨y, rfl, ha, hy⟩
    obtain ⟨rfl, hb⟩ := splitN_eq_singleton.mp hy
    exact ⟨rfl, ha, hb⟩
  · rintro ⟨rfl, ha, hb⟩
    exact ⟨b, rfl, ha, splitN_eq_singleton.mpr ⟨rfl, hb⟩⟩

theorem splitN_four_eq_four {sep : α} {s a b c d : List α} :
    splitN sep 4 s = [a, b, c, d] ↔
      s = a ++ sep :: (b ++ sep :: (c ++ sep :: d)) ∧ sep ∉ a ∧ sep ∉ b ∧ sep ∉ c := by
  rw [splitN_eq_cons (List.cons_ne_nil _ _)]
  constructor
  · rintro ⟨y, rfl, ha, hy⟩
    obtain ⟨z, rfl, hb, hz⟩ := (splitN_eq_cons (List.cons_ne_nil _ _)).mp hy
    obtain ⟨w, rfl, hc, hw⟩ := (splitN_eq_cons (List.cons_ne_nil _ _)).mp hz
    cases hw
    exact ⟨rfl, ha, hb, hc⟩
  · rintro ⟨rfl, ha, hb, hc⟩
    refine ⟨_, rfl, ha, (splitN_eq_cons (List.cons_ne_nil _ _)).mpr ⟨_, rfl, hb, ?_⟩⟩
    exact (splitN_eq_cons (List.cons_ne_nil _ _)).mpr ⟨_, rfl, hc, rfl⟩

theorem dropSuffix?_append (a q : List α) : (a ++ q).dropSuffix? q = some a :=
  List.dropSuffix?_eq_some_iff.mpr ⟨q, rfl, beq_self_eq_true q⟩

theorem eq_append_of_dropSuffix? {s q a : List α} (h : s.dropSuffix? q = some a) : s = a ++ q := by
  obtain ⟨q', rfl, hq⟩ := List.dropSuffix?_eq_some_iff.mp h
  rw [eq_of_beq hq]

theorem dropSuffix?_eq_none {s q : List α} (h : ¬q <:+ s) : s.dropSuffix? q = none := by
  cases hs : s.dropSuffix? q with
  | none => rfl
  | some a => exact absurd ⟨a, (eq_append_of_dropSuffix? hs).symm⟩ h

omit [DecidableEq α] in
/-- A text does not end in a suffix with another last element. -/
theorem not_suffix_append {s q t : List α} (ht : t ≠ []) (hq : q ≠ [])
    (hlast : q.getLast? ≠ t.getLast?) : ¬q <:+ s ++ t := by
  rintro ⟨pre, hpre⟩
  have := congrArg List.getLast? hpre
  rw [List.getLast?_append_of_ne_nil _ hq, List.getLast?_append_of_ne_nil _ ht] at this
  exact hlast this

theorem dropPrefix?_append (q a : List α) : (q ++ a).dropPrefix? q = some a :=
  List.dropPrefix?_append_of_beq a (beq_self_eq_true q)

theorem eq_append_of_dropPrefix? {s q a : List α} (h : s.dropPrefix? q = some a) : s = q ++ a := by
  obtain ⟨q', rfl, hq⟩ := List.dropPrefix?_eq_some_iff.mp h
  rw [eq_of_beq hq]

theorem dropPrefix?_eq_none {s q : List α} (h : ¬q <+: s) : s.dropPrefix? q = none := by
  cases hs : s.dropPrefix? q with
  | none => rfl
  | some a => exact absurd ⟨a, (eq_append_of_dropPrefix? hs).symm⟩ h

/-! ## Listed suffixes -/

/-- `s` ends in `q` and has something before it. -/
def ProperSuffix (q s : List α) : Prop := q <:+ s ∧ q.length < s.length

instance (q s : List α) : Decidable (ProperSuffix q s) := instDecidableAnd

/-- What stands before the suffix `q`, when that is something. -/
def beforeSuffix (q s : List α) : Option (List α) :=
  if ProperSuffix q s then some (s.take (s.length - q.length)) else none

/-- The first listed suffix of `s`, with what stands before it. -/
def splitBySuffix (quotes : List (List α)) (s : List α) : Option (List α × List α) :=
  quotes.findSome? fun q => (beforeSuffix q s).map fun base => (base, q)

/-- `quote` is listed, and no suffix that is listed before it is a proper suffix of
    `base ++ quote`. -/
def Unambiguous (quotes : List (List α)) (base quote : List α) : Prop :=
  quote ∈ quotes ∧
    ∀ q ∈ quotes.takeWhile fun q => q ≠ quote, ¬ProperSuffix q (base ++ quote)

instance (quotes : List (List α)) (base quote : List α) :
    Decidable (Unambiguous quotes base quote) := instDecidableAnd

omit [DecidableEq α] in
theorem properSuffix_append {base : List α} (h : base ≠ []) (quote : List α) :
    ProperSuffix quote (base ++ quote) := by
  refine ⟨List.suffix_append base quote, ?_⟩
  rw [List.length_append]
  exact Nat.lt_add_of_pos_left (List.length_pos_iff.mpr h)

theorem beforeSuffix_eq_some {q s base : List α} :
    beforeSuffix q s = some base ↔ s = base ++ q ∧ base ≠ [] := by
  constructor
  · intro h
    rw [beforeSuffix] at h
    split_ifs at h with hq
    obtain ⟨⟨pre, rfl⟩, hlt⟩ := hq
    rw [List.length_append, Nat.add_sub_cancel, List.take_left] at h
    cases h
    refine ⟨rfl, ?_⟩
    rintro rfl
    exact lt_irrefl _ hlt
  · rintro ⟨rfl, h⟩
    rw [beforeSuffix, if_pos (properSuffix_append h q), List.length_append, Nat.add_sub_cancel,
      List.take_left]

theorem beforeSuffix_eq_none {q s : List α} : beforeSuffix q s = none ↔ ¬ProperSuffix q s := by
  rw [beforeSuffix]
  split_ifs with h <;> simp [h]

theorem splitBySuffix_eq_none {quotes : List (List α)} {s : List α} :
    splitBySuffix quotes s = none ↔ ∀ q ∈ quotes, ¬ProperSuffix q s := by
  simp only [splitBySuffix, List.findSome?_eq_none_iff, Option.map_eq_none_iff,
    beforeSuffix_eq_none]

theorem splitBySuffix_sound {quotes : List (List α)} {s base q : List α}
    (h : splitBySuffix quotes s = some (base, q)) : q ∈ quotes ∧ s = base ++ q ∧ base ≠ [] := by
  obtain ⟨q', hmem, hq'⟩ := List.exists_of_findSome?_eq_some h
  obtain ⟨base', hbase, heq⟩ := Option.map_eq_some_iff.mp hq'
  cases heq
  exact ⟨hmem, beforeSuffix_eq_some.mp hbase⟩

/-- **Main theorem.** A suffix is found again just when it is listed and nothing listed before it
    ends the text. -/
theorem splitBySuffix_append_iff (quotes : List (List α)) {base : List α} (h : base ≠ [])
    (quote : List α) :
    splitBySuffix quotes (base ++ quote) = some (base, quote) ↔
      Unambiguous quotes base quote := by
  have hfound : beforeSuffix quote (base ++ quote) = some base :=
    beforeSuffix_eq_some.mpr ⟨rfl, h⟩
  simp only [splitBySuffix, Unambiguous]
  induction quotes with
  | nil => simp
  | cons q quotes ih =>
    by_cases hq : q = quote
    · subst hq
      simp [hfound]
    · have htake : (q :: quotes).takeWhile (fun q => decide (q ≠ quote)) =
          q :: quotes.takeWhile fun q => q ≠ quote := by simp [hq]
      rw [htake, List.findSome?_cons, List.forall_mem_cons, List.mem_cons,
        or_iff_right (Ne.symm hq)]
      by_cases hproper : ProperSuffix q (base ++ quote)
      · -- an earlier suffix ends the text and wins
        obtain ⟨pre, hpre⟩ : ∃ pre, beforeSuffix q (base ++ quote) = some pre := by
          rw [beforeSuffix, if_pos hproper]
          exact ⟨_, rfl⟩
        rw [hpre]
        simp [hproper, hq]
      · rw [beforeSuffix_eq_none.mpr hproper]
        simp only [Option.map_none, hproper, not_false_eq_true, true_and]
        exact ih

end Digdigdig3
