import Mathlib.Tactic
import Digdigdig3.Lib.Affixes

/-!
# Glob patterns

A pattern is a text in which every `star` stands for some text, possibly the empty one. Split at
its stars it is a list of literals: the first begins the matched text, the last ends it, and the
others occur between them one after the other.

* `glob_iff_split`: the texts of a pattern are those of its literals.
* `joined_iff`: first literal, literals in order, last literal.
* `occurInOrder_cons_iff`: looking for the leftmost occurrence of each literal in turn loses
  nothing.
-/

namespace Digdigdig3

variable {α : Type*}

/-! ## The language of a pattern -/

/-- The texts that a pattern stands for: every star is replaced by some text. -/
inductive Glob (star : α) : List α → List α → Prop
  | nil : Glob star [] []
  | literal {c : α} {pattern key : List α} (h : c ≠ star) :
      Glob star pattern key → Glob star (c :: pattern) (c :: key)
  | gap {pattern key : List α} (text : List α) :
      Glob star pattern key → Glob star (star :: pattern) (text ++ key)

theorem glob_nil_iff {star : α} {key : List α} : Glob star [] key ↔ key = [] := by
  constructor
  · intro h
    cases h
    rfl
  · rintro rfl
    exact .nil

theorem glob_star_iff {star : α} {pattern key : List α} :
    Glob star (star :: pattern) key ↔ ∃ text rest, key = text ++ rest ∧ Glob star pattern rest := by
  constructor
  · intro h
    cases h with
    | literal h _ => exact absurd rfl h
    | gap text h => exact ⟨text, _, rfl, h⟩
  · rintro ⟨text, rest, rfl, h⟩
    exact .gap text h

theorem glob_literal_iff {star c : α} (hc : c ≠ star) {pattern key : List α} :
    Glob star (c :: pattern) key ↔ ∃ rest, key = c :: rest ∧ Glob star pattern rest := by
  constructor
  · intro h
    cases h with
    | literal _ h => exact ⟨_, rfl, h⟩
    | gap text h => exact absurd rfl hc
  · rintro ⟨rest, rfl, h⟩
    exact .literal hc h

/-- A star-free beginning of the pattern begins its texts. -/
theorem glob_append_iff {star : α} {a : List α} (ha : star ∉ a) {pattern key : List α} :
    Glob star (a ++ pattern) key ↔ ∃ rest, key = a ++ rest ∧ Glob star pattern rest := by
  induction a generalizing key with
  | nil => simp
  | cons c a ih =>
    rw [List.mem_cons, not_or] at ha
    rw [List.cons_append, glob_literal_iff (Ne.symm ha.1)]
    constructor
    · rintro ⟨rest, rfl, h⟩
      obtain ⟨rest', rfl, h'⟩ := (ih ha.2).mp h
      exact ⟨rest', rfl, h'⟩
    · rintro ⟨rest, rfl, h⟩
      exact ⟨a ++ rest, rfl, (ih ha.2).mpr ⟨rest, rfl, h⟩⟩

theorem glob_of_notMem {star : α} {pattern : List α} (h : star ∉ pattern) {key : List α} :
    Glob star pattern key ↔ key = pattern := by
  have hglob : Glob star (pattern ++ []) key ↔ ∃ rest, key = pattern ++ rest ∧ Glob star [] rest :=
    glob_append_iff h
  rw [List.append_nil] at hglob
  rw [hglob]
  constructor
  · rintro ⟨rest, rfl, hrest⟩
    rw [glob_nil_iff.mp hrest, List.append_nil]
  · rintro rfl
    exact ⟨[], (List.append_nil _).symm, .nil⟩

/-! ## Its literals -/

/-- The literals `segments` with some text between any two neighbours. -/
def Joined : List (List α) → List α → Prop
  | [], _ => False
  | [segment], key => key = segment
  | segment :: next :: segments, key =>
    ∃ text rest, key = segment ++ (text ++ rest) ∧ Joined (next :: segments) rest

/-- The literals `segments` one after the other somewhere in the text. -/
def OccurInOrder : List (List α) → List α → Prop
  | [], _ => True
  | segment :: segments, s =>
    ∃ text rest, s = text ++ (segment ++ rest) ∧ OccurInOrder segments rest

theorem joined_cons_iff {segment : List α} {segments : List (List α)} (h : segments ≠ [])
    {key : List α} :
    Joined (segment :: segments) key ↔
      ∃ text rest, key = segment ++ (text ++ rest) ∧ Joined segments rest := by
  cases segments with
  | nil => exact absurd rfl h
  | cons next segments => exact Iff.rfl

theorem glob_iff_split [DecidableEq α] {star : α} (pattern : List α) {key : List α} :
    Glob star pattern key ↔ Joined (split star pattern) key := by
  induction hn : pattern.length using Nat.strong_induction_on generalizing pattern key with
  | _ n ih =>
    by_cases hstar : star ∈ pattern
    · obtain ⟨a, b, rfl, ha⟩ := List.eq_append_cons_of_mem hstar
      have hlt : b.length < n := by
        rw [← hn, List.length_append, List.length_cons]
        omega
      rw [split_append ha, joined_cons_iff (split_ne_nil star b), glob_append_iff ha]
      constructor
      · rintro ⟨rest, rfl, h⟩
        obtain ⟨text, rest', rfl, h'⟩ := glob_star_iff.mp h
        exact ⟨text, rest', rfl, (ih _ hlt b rfl).mp h'⟩
      · rintro ⟨text, rest, rfl, h⟩
        exact ⟨text ++ rest, rfl, glob_star_iff.mpr ⟨text, rest, rfl, (ih _ hlt b rfl).mpr h⟩⟩
    · rw [split_of_notMem hstar, glob_of_notMem hstar]
      rfl

/-- Text in front does no harm. -/
theorem OccurInOrder.append_left {segments : List (List α)} {s : List α}
    (h : OccurInOrder segments s) (t : List α) : OccurInOrder segments (t ++ s) := by
  cases segments with
  | nil => trivial
  | cons segment segments =>
    obtain ⟨text, rest, rfl, hrest⟩ := h
    exact ⟨t ++ text, rest, (List.append_assoc _ _ _).symm, hrest⟩

theorem occurInOrder_nil_cons {segments : List (List α)} {s : List α} :
    OccurInOrder ([] :: segments) s ↔ OccurInOrder segments s := by
  constructor
  · rintro ⟨text, rest, rfl, h⟩
    exact h.append_left text
  · intro h
    exact ⟨[], s, rfl, h⟩

/-- The inner literals, together with the last one at the end. -/
theorem exists_joined_concat_iff {segments : List (List α)} {last s : List α} :
    (∃ text rest, s = text ++ rest ∧ Joined (segments ++ [last]) rest) ↔
      ∃ inner, s = inner ++ last ∧ OccurInOrder segments inner := by
  induction segments generalizing s with
  | nil =>
    constructor
    · rintro ⟨text, rest, rfl, h⟩
      exact ⟨text, congrArg (text ++ ·) h, trivial⟩
    · rintro ⟨inner, rfl, -⟩
      exact ⟨inner, last, rfl, rfl⟩
  | cons segment segments ih =>
    have hne : segments ++ [last] ≠ [] := by simp
    constructor
    · rintro ⟨text, rest, rfl, h⟩
      obtain ⟨text', rest', rfl, h'⟩ := (joined_cons_iff hne).mp h
      obtain ⟨inner, hinner, horder⟩ := ih.mp ⟨text', rest', rfl, h'⟩
      refine ⟨text ++ (segment ++ inner), ?_, text, inner, rfl, horder⟩
      rw [hinner, List.append_assoc, List.append_assoc]
    · rintro ⟨inner, rfl, text, rest, rfl, horder⟩
      obtain ⟨text', rest', hrest, hjoined⟩ := ih.mpr ⟨rest, rfl, horder⟩
      refine ⟨text, segment ++ (text' ++ rest'), ?_,
        (joined_cons_iff hne).mpr ⟨text', rest', rfl, hjoined⟩⟩
      rw [← hrest, List.append_assoc, List.append_assoc]

/-- **Main theorem.** First literal, inner literals in order, last literal, without overlap. -/
theorem joined_iff {first last : List α} {segments : List (List α)} {key : List α} :
    Joined (first :: (segments ++ [last])) key ↔
      ∃ inner, key = first ++ (inner ++ last) ∧ OccurInOrder segments inner := by
  rw [joined_cons_iff (by simp)]
  constructor
  · rintro ⟨text, rest, rfl, h⟩
    obtain ⟨inner, hinner, horder⟩ := exists_joined_concat_iff.mp ⟨text, rest, rfl, h⟩
    exact ⟨inner, congrArg (first ++ ·) hinner, horder⟩
  · rintro ⟨inner, rfl, horder⟩
    obtain ⟨text, rest, hrest, h⟩ := exists_joined_concat_iff.mpr ⟨inner, rfl, horder⟩
    exact ⟨text, rest, congrArg (first ++ ·) hrest, h⟩

/-! ## Leftmost search -/

variable [DecidableEq α]

/-- The least offset at which `needle` stands in the text. -/
def leftmost (needle : List α) : List α → Option ℕ
  | [] => if needle = [] then some 0 else none
  | c :: s => if needle <+: c :: s then some 0 else (leftmost needle s).map (· + 1)

theorem leftmost_eq_some {needle s : List α} {off : ℕ} (h : leftmost needle s = some off) :
    ∃ text rest, s = text ++ (needle ++ rest) ∧ text.length = off := by
  induction s generalizing off with
  | nil =>
    rw [leftmost] at h
    split_ifs at h with hn
    cases h
    exact ⟨[], [], by simp [hn], rfl⟩
  | cons c s ih =>
    rw [leftmost] at h
    split_ifs at h with hpre
    · obtain ⟨rest, hrest⟩ := hpre
      cases h
      exact ⟨[], rest, hrest.symm, rfl⟩
    · obtain ⟨off', hoff, rfl⟩ := Option.map_eq_some_iff.mp h
      obtain ⟨text, rest, rfl, rfl⟩ := ih hoff
      exact ⟨c :: text, rest, rfl, rfl⟩

/-- What is found stands no further right than any other occurrence. -/
theorem leftmost_append (needle text rest : List α) :
    ∃ off ≤ text.length, leftmost needle (text ++ (needle ++ rest)) = some off := by
  induction text with
  | nil =>
    refine ⟨0, le_rfl, ?_⟩
    rw [List.nil_append]
    cases h : needle ++ rest with
    | nil => rw [leftmost, if_pos (List.append_eq_nil_iff.mp h).1]
    | cons c s => rw [leftmost, if_pos ⟨rest, h⟩]
  | cons c text ih =>
    obtain ⟨off, hle, hoff⟩ := ih
    rw [List.cons_append, leftmost]
    split_ifs with hpre
    · exact ⟨0, Nat.zero_le _, rfl⟩
    · refine ⟨off + 1, Nat.succ_le_succ hle, ?_⟩
      rw [hoff]
      rfl

/-- **Main theorem.** The literals stand in order in a text just when the first one is found and
    the others stand in order behind its leftmost occurrence. -/
theorem occurInOrder_cons_iff {segment : List α} {segments : List (List α)} {s : List α} :
    OccurInOrder (segment :: segments) s ↔
      ∃ off, leftmost segment s = some off ∧
        OccurInOrder segments (s.drop (off + segment.length)) := by
  constructor
  · rintro ⟨text, rest, rfl, h⟩
    obtain ⟨off, hle, hoff⟩ := leftmost_append segment text rest
    refine ⟨off, hoff, ?_⟩
    -- what stands behind the leftmost occurrence ends in what stands behind this one
    have hdrop : (text ++ (segment ++ rest)).drop (off + segment.length) =
        (text ++ segment).drop (off + segment.length) ++ rest := by
      rw [← List.append_assoc, List.drop_append_of_le_length]
      rw [List.length_append]
      omega
    rw [hdrop]
    exact h.append_left _
  · rintro ⟨off, hoff, h⟩
    obtain ⟨text, rest, rfl, rfl⟩ := leftmost_eq_some hoff
    refine ⟨text, rest, rfl, ?_⟩
    rwa [← List.append_assoc, ← List.length_append, List.drop_left] at h

end Digdigdig3
