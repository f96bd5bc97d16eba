import Mathlib.Tactic
import Mathlib.Data.List.Basic

/-!
# Cutting a stream where a moving threshold is reached

A stream is cut into blocks, each closed by the first element with which its measure reaches a
threshold. The measure of a block may depend on the blocks before it. The threshold is the
product of two moving averages over the blocks closed so far, that of their measures and that of
their lengths, or a floor when that is more.

* `eq_cut`: there is one cut.
* `expectedMeasure_mono`: the average of the measures never falls.
* `le_expectedMeasure`: a measure of at most one for each element makes it grow geometrically.
-/

namespace Digdigdig3

/-- The weight of the newest block, the measure, the seeds of the averages, and the floor. -/
structure CutRule (α K : Type*) where
  alpha : K
  measure : List (List α) → List α → K
  measureSeed : K
  lengthSeed : K
  floor : K

namespace CutRule

variable {α K : Type*} [Field K] [LinearOrder K] (R : CutRule α K)

/-- The averages after one more block, with the blocks so far. -/
def average (acc : List (List α) × K × K) (block : List α) : List (List α) × K × K :=
  (acc.1 ++ [block], R.alpha * R.measure acc.1 block + (1 - R.alpha) * acc.2.1,
    R.alpha * block.length + (1 - R.alpha) * acc.2.2)

/-- The average of the measures after the blocks `closed`. -/
def expectedMeasure (closed : List (List α)) : K :=
  (closed.foldl R.average ([], R.measureSeed, R.lengthSeed)).2.1

/-- The average of the lengths after the blocks `closed`. -/
def expectedLength (closed : List (List α)) : K :=
  (closed.foldl R.average ([], R.measureSeed, R.lengthSeed)).2.2

/-- What the block after the blocks `closed` has to reach. -/
def threshold (closed : List (List α)) : K :=
  max (R.expectedMeasure closed * R.expectedLength closed) R.floor

/-- After the blocks `closed`, a block that begins with `front` may end there. -/
def Reaches (closed : List (List α)) (front : List α) : Prop :=
  R.threshold closed ≤ R.measure closed front

instance (closed : List (List α)) (front : List α) : Decidable (R.Reaches closed front) :=
  inferInstanceAs (Decidable (_ ≤ _))

/-- `block` is the first of its non-empty prefixes that may end a block. -/
def FirstReaches (before : List (List α)) (block : List α) : Prop :=
  block ≠ [] ∧ R.Reaches before block ∧
    ∀ front, front <+: block → front ≠ [] → front ≠ block → ¬ R.Reaches before front

/-- Every block was closed by the first element with which it reached its threshold. -/
def Closes (closed : List (List α)) : Prop :=
  ∀ before block after, closed = before ++ block :: after → R.FirstReaches before block

/-- The elements are cut into the blocks `closed` and the open block `current`. -/
structure IsCut (xs : List α) (closed : List (List α)) (current : List α) : Prop where
  flatten_eq : closed.flatten ++ current = xs
  closes : R.Closes closed
  isOpen : ∀ front, front <+: current → front ≠ [] → ¬ R.Reaches closed front

/-- The cut after one more element. -/
def addToCut (cut : List (List α) × List α) (x : α) : List (List α) × List α :=
  if R.Reaches cut.1 (cut.2 ++ [x]) then (cut.1 ++ [cut.2 ++ [x]], [])
  else (cut.1, cut.2 ++ [x])

/-- The closed blocks and the open one. -/
def cut (xs : List α) : List (List α) × List α := xs.foldl R.addToCut ([], [])

omit [LinearOrder K] in
theorem foldl_average (closed : List (List α)) :
    (closed.foldl R.average ([], R.measureSeed, R.lengthSeed)).1 = closed := by
  induction closed using List.reverseRecOn with
  | nil => rfl
  | append_singleton closed block ih =>
    rw [List.foldl_concat]
    show _ ++ [block] = _
    rw [ih]

omit [LinearOrder K] in
theorem expectedMeasure_concat (closed : List (List α)) (block : List α) :
    R.expectedMeasure (closed ++ [block]) =
      R.alpha * R.measure closed block + (1 - R.alpha) * R.expectedMeasure closed := by
  unfold expectedMeasure
  rw [List.foldl_concat]
  show R.alpha * R.measure (closed.foldl R.average _).1 block + _ = _
  rw [R.foldl_average]

omit [LinearOrder K] in
theorem expectedLength_concat (closed : List (List α)) (block : List α) :
    R.expectedLength (closed ++ [block]) =
      R.alpha * block.length + (1 - R.alpha) * R.expectedLength closed := by
  unfold expectedLength
  rw [List.foldl_concat]
  rfl

/-! ## There is one cut -/

section Cut

variable {R} {xs current block : List α} {closed : List (List α)}

theorem Closes.of_concat (h : R.Closes (closed ++ [block])) :
    R.Closes closed ∧ R.FirstReaches closed block :=
  ⟨fun before b after heq => h before b (after ++ [block]) (by rw [heq]; simp),
    h closed block [] rfl⟩

theorem Closes.ne_nil (h : R.Closes closed) : ∀ block ∈ closed, block ≠ [] := by
  intro block hmem
  obtain ⟨before, after, heq⟩ := List.append_of_mem hmem
  exact (h before block after heq).1

theorem IsCut.nil : R.IsCut [] [] [] where
  flatten_eq := rfl
  closes before block after h := by simp at h
  isOpen front hfront hne := absurd (List.prefix_nil.mp hfront) hne

theorem IsCut.grow (h : R.IsCut xs closed current) {x : α}
    (hbelow : ¬ R.Reaches closed (current ++ [x])) :
    R.IsCut (xs ++ [x]) closed (current ++ [x]) where
  flatten_eq := by rw [← List.append_assoc, h.flatten_eq]
  closes := h.closes
  isOpen front hfront hne := by
    rcases List.prefix_concat_iff.mp hfront with rfl | hfront
    · exact hbelow
    · exact h.isOpen front hfront hne

theorem IsCut.close (h : R.IsCut xs closed current) {x : α}
    (hreach : R.Reaches closed (current ++ [x])) :
    R.IsCut (xs ++ [x]) (closed ++ [current ++ [x]]) [] where
  flatten_eq := by
    rw [List.flatten_concat, List.append_nil, ← List.append_assoc, h.flatten_eq]
  closes before block after hsplit := by
    rcases List.eq_nil_or_concat after with rfl | ⟨after, last, rfl⟩
    · obtain ⟨rfl, hblock⟩ := List.append_inj' hsplit rfl
      obtain rfl := (List.cons.inj hblock).1
      refine ⟨by simp, hreach, fun front hfront hne hlt => ?_⟩
      exact h.isOpen front ((List.prefix_concat_iff.mp hfront).resolve_left hlt) hne
    · have hsplit' : closed ++ [current ++ [x]] = (before ++ block :: after) ++ [last] := by
        simpa using hsplit
      exact h.closes before block after (List.append_inj' hsplit' rfl).1
  isOpen front hfront hne := absurd (List.prefix_nil.mp hfront) hne

variable (R) in
theorem cut_concat (xs : List α) (x : α) : R.cut (xs ++ [x]) = R.addToCut (R.cut xs) x :=
  List.foldl_concat ..

variable (R) in
theorem isCut_cut (xs : List α) : R.IsCut xs (R.cut xs).1 (R.cut xs).2 := by
  induction xs using List.reverseRecOn with
  | nil => exact IsCut.nil
  | append_singleton xs x ih =>
    rw [cut_concat, addToCut]
    split_ifs with hreach
    · exact ih.close hreach
    · exact ih.grow hreach

/-- Neither of two first blocks of the same elements is longer than the other. -/
theorem FirstReaches.eq {before : List (List α)} {block block' rest rest' : List α}
    (h : R.FirstReaches before block) (h' : R.FirstReaches before block')
    (heq : block ++ rest = block' ++ rest') : block = block' := by
  by_contra hne
  have hpre : block <+: block' ++ rest' := heq ▸ List.prefix_append block rest
  rcases List.prefix_or_prefix_of_prefix hpre (List.prefix_append block' rest') with hle | hle
  · exact h'.2.2 block hle h.1 hne h.2.1
  · exact h.2.2 block' hle h'.1 (Ne.symm hne) h'.2.1

/-- An open block does not begin with a whole block. -/
theorem FirstReaches.not_isOpen {before : List (List α)} {block rest : List α}
    (h : R.FirstReaches before block) (heq : block ++ rest = current)
    (hopen : ∀ front, front <+: current → front ≠ [] → ¬ R.Reaches before front) : False :=
  hopen block (heq ▸ List.prefix_append block rest) h.1 h.2.1

/-- Two cuts that agree on their first blocks agree on the rest. -/
theorem eq_of_append (before : List (List α)) {rest rest' : List (List α)} {current' : List α}
    (heq : rest.flatten ++ current = rest'.flatten ++ current')
    (hcloses : ∀ pre block after, rest = pre ++ block :: after →
      R.FirstReaches (before ++ pre) block)
    (hcloses' : ∀ pre block after, rest' = pre ++ block :: after →
      R.FirstReaches (before ++ pre) block)
    (hopen : ∀ front, front <+: current → front ≠ [] → ¬ R.Reaches (before ++ rest) front)
    (hopen' : ∀ front, front <+: current' → front ≠ [] → ¬ R.Reaches (before ++ rest') front) :
    rest = rest' ∧ current = current' := by
  induction rest generalizing before rest' with
  | nil =>
    cases rest' with
    | nil => exact ⟨rfl, heq⟩
    | cons block' rest' =>
      have hfirst := hcloses' [] block' rest' rfl
      rw [List.append_nil] at hfirst hopen
      rw [List.flatten_nil, List.nil_append, List.flatten_cons, List.append_assoc] at heq
      exact (hfirst.not_isOpen heq.symm hopen).elim
  | cons block rest ih =>
    have hfirst := hcloses [] block rest rfl
    rw [List.append_nil] at hfirst
    rw [List.flatten_cons, List.append_assoc] at heq
    cases rest' with
    | nil =>
      rw [List.append_nil] at hopen'
      exact (hfirst.not_isOpen heq hopen').elim
    | cons block' rest' =>
      have hfirst' := hcloses' [] block' rest' rfl
      rw [List.append_nil] at hfirst'
      rw [List.flatten_cons, List.append_assoc] at heq
      obtain rfl := hfirst.eq hfirst' heq
      have hshift : ∀ pre : List (List α), before ++ [block] ++ pre = before ++ block :: pre :=
        fun pre => by rw [List.append_assoc, List.singleton_append]
      obtain ⟨rfl, hcurrent⟩ := ih (before ++ [block]) (List.append_cancel_left heq)
        (fun pre b after hb => by
          rw [hshift]
          exact hcloses (block :: pre) b after (by rw [hb]; rfl))
        (fun pre b after hb => by
          rw [hshift]
          exact hcloses' (block :: pre) b after (by rw [hb]; rfl))
        (by rwa [hshift]) (by rwa [hshift])
      exact ⟨rfl, hcurrent⟩

/-- The elements leave no choice for the cut. -/
theorem IsCut.eq_cut (h : R.IsCut xs closed current) :
    closed = (R.cut xs).1 ∧ current = (R.cut xs).2 :=
  eq_of_append [] (h.flatten_eq.trans (R.isCut_cut xs).flatten_eq.symm) h.closes
    (R.isCut_cut xs).closes h.isOpen (R.isCut_cut xs).isOpen

/-- More elements leave the closed blocks as they are. -/
theorem cut_append (xs ys : List α) : (R.cut xs).1 <+: (R.cut (xs ++ ys)).1 := by
  induction ys using List.reverseRecOn with
  | nil => rw [List.append_nil]
  | append_singleton ys y ih =>
    refine ih.trans ?_
    rw [← List.append_assoc, cut_concat, addToCut]
    split_ifs
    · exact List.prefix_append _ _
    · exact List.prefix_refl _

end Cut

/-! ## How the averages move -/

section Averages

variable {R} [IsStrictOrderedRing K] {closed : List (List α)} {block : List α}

/-- A block has an element, so the average length does not fall below one. -/
theorem one_le_expectedLength (hnonneg : 0 ≤ R.alpha) (hle : R.alpha ≤ 1)
    (hseed : 1 ≤ R.lengthSeed) (hne : ∀ block ∈ closed, block ≠ []) :
    1 ≤ R.expectedLength closed := by
  induction closed using List.reverseRecOn with
  | nil => exact hseed
  | append_singleton closed block ih =>
    have hlength : (1 : K) ≤ block.length := by
      exact_mod_cast List.length_pos_iff.mpr (hne block (by simp))
    have hbefore := ih fun b hb => hne b (List.mem_append_left _ hb)
    rw [expectedLength_concat]
    calc (1 : K) = R.alpha * 1 + (1 - R.alpha) * 1 := by ring
      _ ≤ R.alpha * block.length + (1 - R.alpha) * R.expectedLength closed :=
        add_le_add (mul_le_mul_of_nonneg_left hlength hnonneg)
          (mul_le_mul_of_nonneg_left hbefore (sub_nonneg.mpr hle))

/-- A block that reaches the product of the averages raises that of the measures. -/
theorem mul_le_expectedMeasure (hnonneg : 0 ≤ R.alpha) (hreach : R.Reaches closed block) :
    R.expectedMeasure closed * (1 + R.alpha * (R.expectedLength closed - 1)) ≤
      R.expectedMeasure (closed ++ [block]) := by
  have hproduct : R.expectedMeasure closed * R.expectedLength closed ≤ R.measure closed block :=
    (le_max_left _ _).trans hreach
  rw [expectedMeasure_concat]
  calc R.expectedMeasure closed * (1 + R.alpha * (R.expectedLength closed - 1))
      = R.alpha * (R.expectedMeasure closed * R.expectedLength closed) +
          (1 - R.alpha) * R.expectedMeasure closed := by ring
    _ ≤ _ := add_le_add_left (mul_le_mul_of_nonneg_left hproduct hnonneg) _

/-- **Step lemma.** -/
theorem expectedMeasure_le_concat (hnonneg : 0 ≤ R.alpha) (hmeasure : 0 ≤ R.expectedMeasure closed)
    (hlength : 1 ≤ R.expectedLength closed) (hreach : R.Reaches closed block) :
    R.expectedMeasure closed ≤ R.expectedMeasure (closed ++ [block]) := by
  refine le_trans ?_ (mul_le_expectedMeasure hnonneg hreach)
  have hfactor : 1 ≤ 1 + R.alpha * (R.expectedLength closed - 1) :=
    le_add_of_nonneg_right (mul_nonneg hnonneg (sub_nonneg.mpr hlength))
  exact le_mul_of_one_le_right hmeasure hfactor

theorem measureSeed_le (hnonneg : 0 ≤ R.alpha) (hle : R.alpha ≤ 1) (hmeasure : 0 ≤ R.measureSeed)
    (hlength : 1 ≤ R.lengthSeed) (h : R.Closes closed) :
    R.measureSeed ≤ R.expectedMeasure closed := by
  induction closed using List.reverseRecOn with
  | nil => exact le_refl _
  | append_singleton closed block ih =>
    obtain ⟨hfront, hlast⟩ := h.of_concat
    have hbefore := ih hfront
    exact hbefore.trans (expectedMeasure_le_concat hnonneg (hmeasure.trans hbefore)
      (one_le_expectedLength hnonneg hle hlength hfront.ne_nil) hlast.2.1)

/-- **Run lemma.** With a block of any length the average of the measures never falls. -/
theorem expectedMeasure_mono (hnonneg : 0 ≤ R.alpha) (hle : R.alpha ≤ 1)
    (hmeasure : 0 ≤ R.measureSeed) (hlength : 1 ≤ R.lengthSeed) {before after : List (List α)}
    (h : R.Closes (before ++ after)) :
    R.expectedMeasure before ≤ R.expectedMeasure (before ++ after) := by
  induction after using List.reverseRecOn with
  | nil => rw [List.append_nil]
  | append_singleton after block ih =>
    rw [← List.append_assoc] at h ⊢
    obtain ⟨hfront, hlast⟩ := h.of_concat
    exact (ih hfront).trans (expectedMeasure_le_concat hnonneg
      (hmeasure.trans (measureSeed_le hnonneg hle hmeasure hlength hfront))
      (one_le_expectedLength hnonneg hle hlength hfront.ne_nil) hlast.2.1)

/-- A block whose measure is at most its length raises the average length too. -/
theorem mul_le_expectedLength (hnonneg : 0 ≤ R.alpha)
    (hlen : R.measure closed block ≤ block.length) (hreach : R.Reaches closed block) :
    R.expectedLength closed * (1 + R.alpha * (R.expectedMeasure closed - 1)) ≤
      R.expectedLength (closed ++ [block]) := by
  have hproduct : R.expectedMeasure closed * R.expectedLength closed ≤ block.length :=
    ((le_max_left _ _).trans hreach).trans hlen
  rw [expectedLength_concat]
  calc R.expectedLength closed * (1 + R.alpha * (R.expectedMeasure closed - 1))
      = R.alpha * (R.expectedMeasure closed * R.expectedLength closed) +
          (1 - R.alpha) * R.expectedLength closed := by ring
    _ ≤ _ := add_le_add_left (mul_le_mul_of_nonneg_left hproduct hnonneg) _

/-- **Run lemma.** With a measure of at most one for each element and seeds of at least one,
    the average length never falls below its seed, and that of the measures grows by the same
    factor with every block. -/
theorem le_expectedMeasure (hnonneg : 0 ≤ R.alpha) (hmeasure : 1 ≤ R.measureSeed)
    (hlength : 1 ≤ R.lengthSeed)
    (hlen : ∀ before (block : List α), R.measure before block ≤ block.length)
    (h : R.Closes closed) :
    R.measureSeed * (1 + R.alpha * (R.lengthSeed - 1)) ^ closed.length ≤
        R.expectedMeasure closed ∧
      R.lengthSeed ≤ R.expectedLength closed := by
  have hfactor : 1 ≤ 1 + R.alpha * (R.lengthSeed - 1) :=
    le_add_of_nonneg_right (mul_nonneg hnonneg (sub_nonneg.mpr hlength))
  induction closed using List.reverseRecOn with
  | nil => exact ⟨by rw [List.length_nil, pow_zero, mul_one]; rfl, le_refl _⟩
  | append_singleton closed block ih =>
    obtain ⟨hfront, hlast⟩ := h.of_concat
    obtain ⟨hgrown, hlong⟩ := ih hfront
    have hone : 1 ≤ R.expectedMeasure closed :=
      (one_le_mul_of_one_le_of_one_le hmeasure (one_le_pow₀ hfactor)).trans hgrown
    constructor
    · rw [List.length_append, List.length_singleton, pow_succ, ← mul_assoc]
      refine le_trans ?_ (mul_le_expectedMeasure hnonneg hlast.2.1)
      refine mul_le_mul hgrown ?_ (zero_le_one.trans hfactor) (zero_le_one.trans hone)
      exact add_le_add_right (mul_le_mul_of_nonneg_left (sub_le_sub_right hlong 1) hnonneg) 1
    · refine hlong.trans (le_trans ?_ (mul_le_expectedLength hnonneg (hlen _ _) hlast.2.1))
      exact le_mul_of_one_le_right (zero_le_one.trans (hlength.trans hlong))
        (le_add_of_nonneg_right (mul_nonneg hnonneg (sub_nonneg.mpr hone)))

/-- So the blocks get longer and longer. -/
theorem le_length (hnonneg : 0 ≤ R.alpha) (hmeasure : 1 ≤ R.measureSeed)
    (hlength : 1 ≤ R.lengthSeed)
    (hlen : ∀ before (block : List α), R.measure before block ≤ block.length)
    {before after : List (List α)} (h : R.Closes (before ++ block :: after)) :
    R.measureSeed * (1 + R.alpha * (R.lengthSeed - 1)) ^ before.length * R.lengthSeed ≤
      block.length := by
  have hfirst := h before block after rfl
  have hbefore : R.Closes before := fun pre b rest heq =>
    h pre b (rest ++ block :: after) (by rw [heq]; simp)
  obtain ⟨hgrown, hlong⟩ := le_expectedMeasure hnonneg hmeasure hlength hlen hbefore
  have hone : (0 : K) ≤ R.expectedMeasure before := by
    refine le_trans (mul_nonneg (zero_le_one.trans hmeasure) (pow_nonneg ?_ _)) hgrown
    exact zero_le_one.trans (le_add_of_nonneg_right (mul_nonneg hnonneg (sub_nonneg.mpr hlength)))
  calc R.measureSeed * (1 + R.alpha * (R.lengthSeed - 1)) ^ before.length * R.lengthSeed
      ≤ R.expectedMeasure before * R.expectedLength before :=
        mul_le_mul hgrown hlong (zero_le_one.trans hlength) hone
    _ ≤ R.threshold before := le_max_left _ _
    _ ≤ R.measure before block := hfirst.2.1
    _ ≤ block.length := hlen before block

end Averages

end CutRule

end Digdigdig3
