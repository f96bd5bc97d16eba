import Mathlib.Tactic
import Mathlib.Data.List.Basic

/-!
# Cutting a list into maximal blocks

A rule `joins b a` decides whether the element `a` still belongs to the block `b`
that is being filled. `segments joins l` cuts `l` into blocks by that rule, and
`IsSegmentation` says what such a cut is without running it.

* `isSegmentation_segments`: the cut satisfies the specification.
* `eq_segments`: nothing else does.
-/

namespace Digdigdig3

variable {α : Type*} (joins : List α → α → Bool)

/-- The cut after one more element: it joins the last block or starts a new one. -/
def addToLast (blocks : List (List α)) (a : α) : List (List α) :=
  match blocks.getLast? with
  | none => [[a]]
  | some b => if joins b a then blocks.dropLast ++ [b ++ [a]] else blocks ++ [[a]]

/-- The blocks of `l`. -/
def segments (l : List α) : List (List α) := l.foldl (addToLast joins) []

/-- `blocks` are non-empty, in order they make up `l`, every element of a block but the
first joins the part of the block in front of it, and the first element of a block
does not join the block before it. -/
structure IsSegmentation (blocks : List (List α)) (l : List α) : Prop where
  flatten_eq : blocks.flatten = l
  ne_nil : ∀ b ∈ blocks, b ≠ []
  joined : ∀ b ∈ blocks, ∀ front a back, b = front ++ a :: back → front ≠ [] → joins front a
  maximal : ∀ before b a rest after, blocks = before ++ b :: (a :: rest) :: after →
    joins b a = false

@[simp] theorem addToLast_nil (a : α) : addToLast joins [] a = [[a]] := rfl

theorem addToLast_concat (blocks : List (List α)) (b : List α) (a : α) :
    addToLast joins (blocks ++ [b]) a =
      if joins b a then blocks ++ [b ++ [a]] else blocks ++ [b] ++ [[a]] := by
  simp [addToLast]

theorem addToLast_of_not_joins {blocks : List (List α)} {a : α}
    (h : ∀ b ∈ blocks.getLast?, joins b a = false) :
    addToLast joins blocks a = blocks ++ [[a]] := by
  rcases List.eq_nil_or_concat blocks with rfl | ⟨blocks, b, rfl⟩
  · rfl
  · rw [List.concat_eq_append] at h ⊢
    rw [addToLast_concat, if_neg (by simp [h b (by simp)])]

@[simp] theorem segments_nil : segments joins [] = [] := rfl

theorem segments_concat (l : List α) (a : α) :
    segments joins (l ++ [a]) = addToLast joins (segments joins l) a := by
  simp [segments]

theorem IsSegmentation.nil : IsSegmentation joins [] [] where
  flatten_eq := rfl
  ne_nil := by simp
  joined := by simp
  maximal := by simp

variable {joins} {blocks : List (List α)} {b l : List α} {a : α}

/-- An element that joins the last block extends it. -/
theorem IsSegmentation.extend (h : IsSegmentation joins (blocks ++ [b]) l) (ha : joins b a) :
    IsSegmentation joins (blocks ++ [b ++ [a]]) (l ++ [a]) where
  flatten_eq := by
    have := h.flatten_eq
    simp only [List.flatten_append, List.flatten_singleton] at this ⊢
    rw [← this, List.append_assoc]
  ne_nil := by
    intro c hc
    rcases List.mem_append.mp hc with hc | hc
    · exact h.ne_nil c (List.mem_append_left _ hc)
    · simp at hc; simp [hc]
  joined := by
    intro c hc front x back hsplit hfront
    rcases List.mem_append.mp hc with hc | hc
    · exact h.joined c (List.mem_append_left _ hc) front x back hsplit hfront
    · rw [List.mem_singleton] at hc
      subst hc
      -- the new element is the last one of the block, or the split lies inside `b`
      rcases List.eq_nil_or_concat back with rfl | ⟨back, y, rfl⟩
      · obtain ⟨rfl, hx⟩ := List.append_inj' hsplit rfl
        cases hx
        exact ha
      · have hsplit' : b ++ [a] = (front ++ x :: back) ++ [y] := by simpa using hsplit
        obtain ⟨hb, -⟩ := List.append_inj' hsplit' rfl
        exact h.joined b (by simp) front x back hb hfront
  maximal := by
    intro before c x rest after hsplit
    rcases List.eq_nil_or_concat after with rfl | ⟨after, y, rfl⟩
    · have hsplit' : blocks ++ [b ++ [a]] = (before ++ [c]) ++ [x :: rest] := by simpa using hsplit
      obtain ⟨hblocks, hlast⟩ := List.append_inj' hsplit' rfl
      obtain ⟨z, zs, hz⟩ := List.exists_cons_of_ne_nil (h.ne_nil b (by simp))
      have hx : z = x := by
        rw [hz] at hlast
        simp at hlast
        exact hlast.1
      exact h.maximal before c x zs [] (by simp [hblocks, hz, hx])
    · have hsplit' : blocks ++ [b ++ [a]] = (before ++ c :: (x :: rest) :: after) ++ [y] := by
        simpa using hsplit
      obtain ⟨hblocks, -⟩ := List.append_inj' hsplit' rfl
      exact h.maximal before c x rest (after ++ [b]) (by simp [hblocks])

/-- An element that does not join the last block starts a new one. -/
theorem IsSegmentation.start (h : IsSegmentation joins blocks l)
    (ha : ∀ b ∈ blocks.getLast?, joins b a = false) :
    IsSegmentation joins (blocks ++ [[a]]) (l ++ [a]) where
  flatten_eq := by simp [h.flatten_eq]
  ne_nil := by
    intro c hc
    rcases List.mem_append.mp hc with hc | hc
    · exact h.ne_nil c hc
    · simp at hc; simp [hc]
  joined := by
    intro c hc front x back hsplit hfront
    rcases List.mem_append.mp hc with hc | hc
    · exact h.joined c hc front x back hsplit hfront
    · rw [List.mem_singleton] at hc
      subst hc
      obtain ⟨y, ys, rfl⟩ := List.exists_cons_of_ne_nil hfront
      simp at hsplit
  maximal := by
    intro before c x rest after hsplit
    rcases List.eq_nil_or_concat after with rfl | ⟨after, y, rfl⟩
    · have hsplit' : blocks ++ [[a]] = (before ++ [c]) ++ [x :: rest] := by simpa using hsplit
      obtain ⟨hblocks, hlast⟩ := List.append_inj' hsplit' rfl
      simp only [List.cons.injEq, and_true] at hlast
      rw [← hlast.1]
      exact ha c (by simp [hblocks])
    · have hsplit' : blocks ++ [[a]] = (before ++ c :: (x :: rest) :: after) ++ [y] := by
        simpa using hsplit
      obtain ⟨hblocks, -⟩ := List.append_inj' hsplit' rfl
      exact h.maximal before c x rest after hblocks

theorem isSegmentation_segments (l : List α) : IsSegmentation joins (segments joins l) l := by
  induction l using List.reverseRecOn with
  | nil => exact IsSegmentation.nil joins
  | append_singleton l a ih =>
    rw [segments_concat]
    rcases List.eq_nil_or_concat (segments joins l) with hnil | ⟨blocks, b, hb⟩
    · rw [hnil] at ih ⊢
      exact ih.start (by simp)
    · rw [List.concat_eq_append] at hb
      rw [hb] at ih ⊢
      rw [addToLast_concat]
      split_ifs with hj
      · exact ih.extend hj
      · exact ih.start (by simpa using hj)

theorem IsSegmentation.of_start (h : IsSegmentation joins (blocks ++ [[a]]) (l ++ [a])) :
    IsSegmentation joins blocks l ∧ ∀ b ∈ blocks.getLast?, joins b a = false := by
  refine ⟨⟨?_, fun c hc => h.ne_nil c (List.mem_append_left _ hc),
    fun c hc => h.joined c (List.mem_append_left _ hc), ?_⟩, ?_⟩
  · have hflat := h.flatten_eq
    rw [List.flatten_append, List.flatten_singleton] at hflat
    exact (List.append_inj' hflat rfl).1
  · rintro before c x rest after rfl
    exact h.maximal before c x rest (after ++ [[a]]) (by simp)
  · intro c hc
    obtain ⟨before, rfl⟩ := List.getLast?_eq_some_iff.mp hc
    exact h.maximal before c a [] [] (by simp)

theorem IsSegmentation.of_extend (h : IsSegmentation joins (blocks ++ [b ++ [a]]) (l ++ [a]))
    (hb : b ≠ []) : IsSegmentation joins (blocks ++ [b]) l ∧ joins b a = true := by
  refine ⟨⟨?_, ?_, ?_, ?_⟩, h.joined _ (by simp) b a [] rfl hb⟩
  · have hflat := h.flatten_eq
    rw [List.flatten_append, List.flatten_singleton, ← List.append_assoc] at hflat
    rw [List.flatten_append, List.flatten_singleton]
    exact (List.append_inj' hflat rfl).1
  · intro c hc
    rcases List.mem_append.mp hc with hc | hc
    · exact h.ne_nil c (List.mem_append_left _ hc)
    · rw [List.mem_singleton] at hc
      rwa [hc]
  · intro c hc front x back hsplit hfront
    rcases List.mem_append.mp hc with hc | hc
    · exact h.joined c (List.mem_append_left _ hc) front x back hsplit hfront
    · rw [List.mem_singleton] at hc
      exact h.joined (b ++ [a]) (by simp) front x (back ++ [a]) (by rw [← hc, hsplit]; simp) hfront
  · intro before c x rest after hsplit
    rcases List.eq_nil_or_concat after with rfl | ⟨after, y, rfl⟩
    · have hsplit' : blocks ++ [b] = (before ++ [c]) ++ [x :: rest] := by simpa using hsplit
      obtain ⟨hblocks, hlast⟩ := List.append_inj' hsplit' rfl
      obtain rfl : b = x :: rest := by simpa using hlast
      exact h.maximal before c x (rest ++ [a]) [] (by simp [hblocks])
    · have hsplit' : blocks ++ [b] = (before ++ c :: (x :: rest) :: after) ++ [y] := by
        simpa using hsplit
      obtain ⟨hblocks, -⟩ := List.append_inj' hsplit' rfl
      exact h.maximal before c x rest (after ++ [b ++ [a]]) (by simp [hblocks])

/-- The specification determines the cut. -/
theorem IsSegmentation.eq_segments (h : IsSegmentation joins blocks l) :
    blocks = segments joins l := by
  induction l using List.reverseRecOn generalizing blocks with
  | nil =>
    rcases blocks with _ | ⟨b, blocks⟩
    · rfl
    · have hflat := h.flatten_eq
      rw [List.flatten_cons] at hflat
      exact absurd (List.append_eq_nil_iff.mp hflat).1 (h.ne_nil b (by simp))
  | append_singleton l a ih =>
    rw [segments_concat]
    rcases List.eq_nil_or_concat blocks with rfl | ⟨blocks, c, rfl⟩
    · have := h.flatten_eq
      simp at this
    rw [List.concat_eq_append] at h ⊢
    rcases List.eq_nil_or_concat c with rfl | ⟨b, a', rfl⟩
    · exact absurd rfl (h.ne_nil [] (by simp))
    rw [List.concat_eq_append] at h ⊢
    obtain rfl : a' = a := by
      have hflat := h.flatten_eq
      rw [List.flatten_append, List.flatten_singleton, ← List.append_assoc] at hflat
      simpa using (List.append_inj' hflat rfl).2
    rcases eq_or_ne b [] with rfl | hb
    · obtain ⟨hblocks, hlast⟩ := h.of_start
      rw [← ih hblocks]
      rw [addToLast_of_not_joins joins hlast]
      rfl
    · obtain ⟨hblocks, hj⟩ := h.of_extend hb
      rw [← ih hblocks, addToLast_concat, if_pos hj]

end Digdigdig3
