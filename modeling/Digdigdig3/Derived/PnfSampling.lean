import Digdigdig3.Derived.PointAndFigure

/-!
# Sampling a move in Point-and-Figure columns

A move from the extreme of the current column to a target price can be fed in one trade or
with prices on the way. An extension floors against the edge of the column, but a reversal
(`derived.rs` lines 1219–1222 and 1249–1252) draws one box more than the price has cleared,
so a column that has been reversed on the way is ahead of the price and misses one box later.

Results:
* `trail_append_of_extending`: a move in the direction of the column can be sampled freely.
* `trail_append_iff`: a move against it gives the same columns exactly when all prices that
  reverse the column lie in the box of the target.
* `pnf_sampling_iff`: the same for the emitted columns of every reachable state.
-/

namespace Digdigdig3.Derived

namespace Column

variable {box : ℚ} {rev : ℕ} {c : Column} {p t u x : ℚ} {k : ℤ} {prices ts : List ℚ}

/-- The columns that a list of prices leads through, in order, each in its last form. -/
def trail (box : ℚ) (rev : ℕ) (c : Column) : List ℚ → List Column
  | [] => [c]
  | price :: prices =>
    if (c.step box rev price).columnId = c.columnId then
      trail box rev (c.step box rev price) prices
    else c :: trail box rev (c.step box rev price) prices

/-- A price that reverses the column and lies on the edge of a box. -/
def OnEdge (box : ℚ) (c : Column) (price : ℚ) : Prop :=
  c.dist price = -((c.boxesBack box price + 1) * box)

/-- The prices on the way to `p` reverse the column in the box of `p` only, and, for a
    reversal of one box, none of them is fed again when it lies on the edge of its box. -/
structure SampledAlike (box : ℚ) (rev : ℕ) (c : Column) (ts : List ℚ) (p : ℚ) : Prop where
  sameBox : ∀ t ∈ ts, c.Reverses box rev t → c.boxesBack box t = c.boxesBack box p
  once : rev = 1 → (ts ++ [p]).Pairwise fun t u => c.Reverses box rev t → c.OnEdge box t → u ≠ t

theorem trail_ne_nil : trail box rev c prices ≠ [] := by
  induction prices generalizing c with
  | nil => simp [trail]
  | cons price prices ih =>
    rw [trail]
    split_ifs
    · exact ih
    · simp

theorem trail_cons_of_same (h : (c.step box rev p).columnId = c.columnId) :
    trail box rev c (p :: prices) = trail box rev (c.step box rev p) prices := if_pos h

theorem trail_cons_of_flip {d : Column} (hid : d.columnId = c.columnId)
    (h : c.step box rev p = d.flip box k) :
    trail box rev c (p :: prices) = c :: trail box rev (d.flip box k) prices := by
  have hne : (c.step box rev p).columnId ≠ c.columnId := by
    rw [h, ← hid]
    exact Nat.succ_ne_self _
  rw [trail, if_neg hne, h]

theorem trail_cons_of_step_eq (h : c.step box rev p = c) :
    trail box rev c (p :: prices) = trail box rev c prices := by
  rw [trail_cons_of_same (by rw [h]), h]

/-! ## Distances and boxes -/

theorem dist_le_dist_iff : c.dist p ≤ c.dist t ↔ if c.isX then p ≤ t else t ≤ p := by
  cases hx : c.isX with
  | true =>
    simp only [dist, hx, directionSign, if_true, one_mul]
    exact sub_le_sub_iff_right _
  | false =>
    simp only [dist, hx, directionSign, Bool.false_eq_true, if_false, neg_one_mul]
    exact neg_le_neg_iff.trans (sub_le_sub_iff_right _)

theorem dist_inj : c.dist p = c.dist t ↔ p = t := by
  refine ⟨fun h => ?_, fun h => h ▸ rfl⟩
  have h₁ := dist_le_dist_iff.mp h.le
  have h₂ := dist_le_dist_iff.mp h.ge
  split_ifs at h₁ h₂
  · exact le_antisymm h₁ h₂
  · exact le_antisymm h₂ h₁

theorem dist_advance : (c.advance box k).dist p = c.dist p - k * box := by
  have hsign := directionSign_mul_self c.isX
  simp only [dist, advance]
  linear_combination -(k * box) * hsign

theorem dist_flip : (c.flip box k).dist p = -c.dist p - (k + 1) * box := by
  have hsign := directionSign_mul_self c.isX
  simp only [dist, flip, directionSign_not]
  linear_combination -((k + 1) * box) * hsign

theorem flip_advance (m : ℤ) : (c.flip box k).advance box m = c.flip box (k + m) := by
  simp only [advance, flip, directionSign_not, Column.mk.injEq, true_and]
  push_cast
  ring

theorem flip_inj (hbox : 0 < box) {m : ℤ} (h : c.flip box k = c.flip box m) : k = m := by
  have hdist : (c.flip box k).dist 0 = (c.flip box m).dist 0 := by rw [h]
  rw [dist_flip, dist_flip] at hdist
  have hmul : (k : ℚ) * box = m * box := by linarith
  exact_mod_cast mul_right_cancel₀ hbox.ne' hmul

theorem advance_zero : c.advance box 0 = c := by
  simp [advance]

theorem not_reverses_of_nonneg (hbox : 0 < box) (hrev : 0 < rev) (h : 0 ≤ c.dist p) :
    ¬ c.Reverses box rev p := by
  have hpos : 0 < box * rev := mul_pos hbox (by exact_mod_cast hrev)
  rw [Reverses]
  linarith

/-- Past the edge the column grows by the boxes that the price has cleared. -/
theorem step_of_nonneg (hbox : 0 < box) (hrev : 0 < rev) (h : 0 ≤ c.dist p) :
    c.step box rev p = c.advance box ⌊c.dist p / box⌋ := by
  by_cases hgrow : box ≤ c.dist p
  · rw [step, if_pos hgrow]
  · have hback := not_reverses_of_nonneg hbox hrev h
    have hfloor : ⌊c.dist p / box⌋ = 0 := by
      rw [Int.floor_eq_zero_iff]
      exact ⟨div_nonneg h hbox.le, (div_lt_one hbox).mpr (not_le.mp hgrow)⟩
    rw [step, if_neg hgrow, if_neg hback, hfloor, advance_zero]

/-- A price short of the next box and not far enough back changes nothing. -/
theorem step_of_idle (hgrow : c.dist p < box) (hback : ¬ c.Reverses box rev p) :
    c.step box rev p = c := by
  rw [step, if_neg (not_le.mpr hgrow), if_neg hback]

section Back

variable (hbox : 0 < box) (hrev : 0 < rev)

include hbox in
theorem boxesBack_le_iff {n : ℤ} : n ≤ c.boxesBack box p ↔ c.dist p ≤ -((n + 1) * box) := by
  rw [boxesBack, Int.le_floor, le_div_iff₀ hbox]
  constructor <;> intro h <;> linarith

include hbox in
theorem boxesBack_anti (h : c.dist p ≤ c.dist t) : c.boxesBack box t ≤ c.boxesBack box p :=
  (boxesBack_le_iff hbox).mpr (h.trans ((boxesBack_le_iff hbox).mp le_rfl))

include hbox in
theorem lt_dist : -((c.boxesBack box p + 2) * box) < c.dist p := by
  by_contra hle
  have : c.boxesBack box p + 1 ≤ c.boxesBack box p :=
    (boxesBack_le_iff hbox).mpr (by push_cast; linarith)
  omega

include hbox hrev in
theorem boxesBack_nonneg (h : c.Reverses box rev p) : 0 ≤ c.boxesBack box p := by
  have hone : (1 : ℚ) ≤ rev := by exact_mod_cast hrev
  have hmul : box * 1 ≤ box * rev := mul_le_mul_of_nonneg_left hone hbox.le
  rw [boxesBack_le_iff hbox]
  rw [Reverses] at h
  push_cast
  linarith

include hbox hrev in
theorem dist_lt_of_reverses (h : c.Reverses box rev p) : ¬ box ≤ c.dist p := by
  have hpos : 0 < box * rev := mul_pos hbox (by exact_mod_cast hrev)
  rw [Reverses] at h
  linarith

include hbox hrev in
/-- A reversal draws one box more than lies between its start and the price. -/
theorem step_of_reverses (h : c.Reverses box rev p) :
    c.step box rev p = c.flip box (c.boxesBack box p + 1) := by
  have hnonneg := boxesBack_nonneg hbox hrev h
  rw [step, if_neg (dist_lt_of_reverses hbox hrev h), if_pos h, max_eq_left (by omega)]

end Back

/-! ## Moves in the direction of the column -/

/-- **Step lemma.** A price on the way to one farther out does not change where that leads. -/
theorem step_step_of_extending (hbox : 0 < box) (hrev : 0 < rev) (ht : 0 ≤ c.dist t)
    (htp : c.dist t ≤ c.dist p) :
    0 ≤ (c.step box rev t).dist p ∧ (c.step box rev t).step box rev p = c.step box rev p ∧
      (c.step box rev t).columnId = c.columnId := by
  have hle : (⌊c.dist t / box⌋ : ℚ) * box ≤ c.dist t := by
    rw [← le_div_iff₀ hbox]
    exact Int.floor_le _
  have hnonneg : 0 ≤ (c.advance box ⌊c.dist t / box⌋).dist p := by
    rw [dist_advance]
    linarith
  have hfloor : ⌊(c.dist p - ⌊c.dist t / box⌋ * box) / box⌋ =
      ⌊c.dist p / box⌋ - ⌊c.dist t / box⌋ := by
    rw [sub_div, mul_div_assoc, div_self hbox.ne', mul_one, Int.floor_sub_intCast]
  rw [step_of_nonneg hbox hrev ht]
  refine ⟨hnonneg, ?_, rfl⟩
  rw [step_of_nonneg hbox hrev hnonneg, step_of_nonneg hbox hrev (ht.trans htp), dist_advance,
    hfloor]
  simp only [advance, Column.mk.injEq, true_and]
  push_cast
  ring

/-- **Run lemma.** A move in the direction of the column can be sampled freely. -/
theorem trail_append_of_extending (hbox : 0 < box) (hrev : 0 < rev)
    (hnonneg : ∀ t ∈ ts ++ [p], 0 ≤ c.dist t)
    (hmono : (ts ++ [p]).Pairwise fun t u => c.dist t ≤ c.dist u) :
    trail box rev c (ts ++ [p]) = trail box rev c [p] := by
  induction ts generalizing c with
  | nil => rfl
  | cons t ts ih =>
    have ht : 0 ≤ c.dist t := hnonneg t (by simp)
    obtain ⟨hfirst, hrest⟩ := List.pairwise_cons.mp hmono
    have hnext := fun u (hu : u ∈ ts ++ [p]) =>
      step_step_of_extending hbox hrev ht (hfirst u hu)
    have hp := hnext p (by simp)
    have hx : ∀ u v, (c.step box rev t).dist u ≤ (c.step box rev t).dist v ↔
        c.dist u ≤ c.dist v := by
      intro u v
      rw [step_of_nonneg hbox hrev ht, dist_advance, dist_advance]
      exact sub_le_sub_iff_right _
    have hid : (c.step box rev p).columnId = c.columnId := by
      rw [← hp.2.1, step_of_nonneg hbox hrev hp.1, step_of_nonneg hbox hrev ht]
      rfl
    rw [List.cons_append, trail_cons_of_same hp.2.2, ih (fun u hu => (hnext u hu).1)
      (hrest.imp fun h => (hx _ _).mpr h), trail_cons_of_same (by rw [hp.2.1, hid, hp.2.2]),
      trail_cons_of_same hid, hp.2.1]

/-! ## Moves against the column -/

/-- The reversed column stays as it is while the prices stay in the box of the reversal. -/
theorem trail_flip_of_sameBox (hbox : 0 < box) (hrev : 0 < rev)
    (h : ∀ u ∈ prices, c.boxesBack box u + 1 = k ∧ (rev = 1 → c.dist u ≠ -(k * box))) :
    trail box rev (c.flip box k) prices = [c.flip box k] := by
  induction prices with
  | nil => rfl
  | cons u prices ih =>
    obtain ⟨hk, honce⟩ := h u List.mem_cons_self
    have hle : c.dist u ≤ -(k * box) := by
      have := (boxesBack_le_iff hbox (c := c) (p := u)).mp le_rfl
      rw [← hk]
      push_cast
      exact this
    have hlt : -((k + 1) * box) < c.dist u := by
      have := lt_dist hbox (c := c) (p := u)
      rw [← hk]
      push_cast
      linarith
    rw [trail_cons_of_step_eq, ih fun v hv => h v (List.mem_cons_of_mem _ hv)]
    refine step_of_idle ?_ ?_
    · rw [dist_flip]
      linarith
    · rw [Reverses, dist_flip]
      intro hback
      rcases Nat.lt_or_ge 1 rev with htwo | hone
      · have htwo' : (2 : ℚ) ≤ rev := by exact_mod_cast htwo
        have hmul : box * 2 ≤ box * rev := mul_le_mul_of_nonneg_left htwo' hbox.le
        linarith
      · obtain rfl : rev = 1 := by omega
        refine honce rfl (le_antisymm hle ?_)
        push_cast at hback
        linarith

/-- If the reversed column is not reversed again, it never catches up with a price beyond the
    box of the reversal. -/
theorem trail_flip_eq_singleton {e : Column} {n : ℤ}
    (h : trail box rev (c.flip box k) prices = [e])
    (hn : ∀ u ∈ prices, c.boxesBack box u ≤ n) (hbox : 0 < box) :
    ∃ m, m ≤ max k n ∧ e = c.flip box m := by
  induction prices generalizing k with
  | nil => exact ⟨k, le_max_left _ _, (List.singleton_inj.mp h).symm⟩
  | cons u prices ih =>
    have hrest := fun v hv => hn v (List.mem_cons_of_mem u hv)
    by_cases hgrow : box ≤ (c.flip box k).dist u
    · have hstep : (c.flip box k).step box rev u =
          c.flip box (k + ⌊(c.flip box k).dist u / box⌋) := by
        rw [step, if_pos hgrow, flip_advance]
      rw [trail_cons_of_same (by rw [hstep]; rfl), hstep] at h
      obtain ⟨m, hm, he⟩ := ih h hrest
      refine ⟨m, hm.trans (max_le ?_ (le_max_right _ _)), he⟩
      refine (le_trans ?_ (hn u List.mem_cons_self)).trans (le_max_right _ _)
      rw [boxesBack_le_iff hbox]
      have hfloor : (⌊(c.flip box k).dist u / box⌋ : ℚ) * box ≤ (c.flip box k).dist u := by
        rw [← le_div_iff₀ hbox]
        exact Int.floor_le _
      rw [dist_flip] at hfloor
      rw [dist_flip]
      push_cast
      linarith
    · by_cases hback : (c.flip box k).Reverses box rev u
      · rw [trail_cons_of_flip rfl (by rw [step, if_neg hgrow, if_pos hback])] at h
        exact absurd (List.cons.inj h).2 trail_ne_nil
      · rw [trail_cons_of_step_eq (step_of_idle (not_le.mp hgrow) hback)] at h
        exact ih h hrest

/-- A reversed column is in its final form after the first reversing price exactly when the
    target lies in the same box and the price is not fed again from the edge of a box. -/
theorem trail_flip_iff (hbox : 0 < box) (hrev : 0 < rev)
    (hmono : (t :: (ts ++ [p])).Pairwise fun u v => c.dist v ≤ c.dist u) :
    trail box rev (c.flip box (c.boxesBack box t + 1)) (ts ++ [p]) =
        [c.flip box (c.boxesBack box p + 1)] ↔
      c.boxesBack box t = c.boxesBack box p ∧
        (rev = 1 → ∀ u ∈ ts ++ [p], c.OnEdge box t → u ≠ t) := by
  obtain ⟨hfirst, hrest⟩ := List.pairwise_cons.mp hmono
  have hle : ∀ u ∈ ts ++ [p], c.boxesBack box t ≤ c.boxesBack box u :=
    fun u hu => boxesBack_anti hbox (hfirst u hu)
  have hup : ∀ u ∈ ts ++ [p], c.boxesBack box u ≤ c.boxesBack box p := by
    intro u hu
    rcases List.mem_append.mp hu with hu | hu
    · exact boxesBack_anti hbox ((List.pairwise_append.mp hrest).2.2 u hu p (by simp))
    · rw [List.mem_singleton.mp hu]
  constructor
  · intro h
    have hsame : c.boxesBack box t = c.boxesBack box p := by
      obtain ⟨m, hm, he⟩ := trail_flip_eq_singleton h hup hbox
      have hm' := flip_inj hbox he
      have := hle p (by simp)
      omega
    refine ⟨hsame, fun hone u hu hedge heq => ?_⟩
    -- the next price is on the edge too, so it reverses the new column
    obtain ⟨v, rest, hv⟩ := List.exists_cons_of_ne_nil (l := ts ++ [p]) (by simp)
    have hvt : c.dist v = c.dist t := by
      refine le_antisymm (hfirst v (by simp [hv])) ?_
      rw [hv] at hu hrest
      rcases List.mem_cons.mp hu with rfl | hu
      · rw [heq]
      · rw [← heq]
        exact (List.pairwise_cons.mp hrest).1 u hu
    have hdist : (c.flip box (c.boxesBack box t + 1)).dist v = -(box * rev) := by
      rw [dist_flip, hvt, hedge, hone]
      push_cast
      ring
    have hgrow : ¬ box ≤ (c.flip box (c.boxesBack box t + 1)).dist v := by
      rw [hdist, hone]
      push_cast
      linarith
    rw [hv, trail_cons_of_flip rfl (by rw [step, if_neg hgrow,
      if_pos (show Reverses _ _ _ _ from hdist.le)])] at h
    exact absurd (List.cons.inj h).2 trail_ne_nil
  · rintro ⟨hsame, honce⟩
    rw [← hsame]
    refine trail_flip_of_sameBox hbox hrev fun u hu => ⟨?_, fun hone hdist => ?_⟩
    · have := hle u hu
      have := hup u hu
      omega
    · -- a price on the edge of this box is the reversing price itself
      have hedge : c.dist t = c.dist u := by
        refine le_antisymm ?_ (hfirst u hu)
        rw [hdist]
        have := (boxesBack_le_iff hbox (c := c) (p := t)).mp le_rfl
        push_cast
        exact this
      refine honce hone u hu ?_ (dist_inj.mp hedge.symm)
      rw [OnEdge, hedge, hdist]
      push_cast
      rfl

/-- **Run lemma.** A move against the column gives the same columns with prices on the way
    exactly when these are `SampledAlike`. -/
theorem trail_append_iff (hbox : 0 < box) (hrev : 0 < rev)
    (hlt : ∀ t ∈ ts ++ [p], c.dist t < box)
    (hmono : (ts ++ [p]).Pairwise fun t u => c.dist u ≤ c.dist t) :
    trail box rev c (ts ++ [p]) = trail box rev c [p] ↔ SampledAlike box rev c ts p := by
  induction ts with
  | nil => exact iff_of_true rfl ⟨nofun, fun _ => List.pairwise_singleton _ _⟩
  | cons t ts ih =>
    obtain ⟨hfirst, hrest⟩ := List.pairwise_cons.mp hmono
    have hih := ih (fun u hu => hlt u (List.mem_cons_of_mem t hu)) hrest
    by_cases hback : c.Reverses box rev t
    · have hreverses : ∀ u ∈ ts ++ [p], c.Reverses box rev u :=
        fun u hu => (hfirst u hu).trans hback
      have htrail : ∀ u rest, c.Reverses box rev u → trail box rev c (u :: rest) =
          c :: trail box rev (c.flip box (c.boxesBack box u + 1)) rest := by
        intro u rest hu
        exact trail_cons_of_flip rfl (step_of_reverses hbox hrev hu)
      rw [List.cons_append, htrail t _ hback, htrail p [] (hreverses p (by simp)),
        List.cons.injEq, eq_self, true_and, show trail box rev
          (c.flip box (c.boxesBack box p + 1)) [] = [c.flip box (c.boxesBack box p + 1)] from rfl]
      refine (trail_flip_iff hbox hrev hmono).trans ⟨fun ⟨hsame, honce⟩ => ?_, fun h => ?_⟩
      · have hbetween : ∀ u ∈ ts, c.boxesBack box u = c.boxesBack box p := by
          intro u hu
          have h₁ := boxesBack_anti hbox (hfirst u (by simp [hu]))
          have h₂ := boxesBack_anti hbox ((List.pairwise_append.mp hrest).2.2 u hu p (by simp))
          omega
        refine ⟨?_, fun hone => ?_⟩
        · rintro u hu -
          rcases List.mem_cons.mp hu with rfl | hu
          · exact hsame
          · exact hbetween u hu
        · rw [List.cons_append, List.pairwise_cons]
          refine ⟨fun u hu _ => honce hone u hu, ?_⟩
          refine hrest.imp_of_mem fun {u v} hu hv huv _ hedge heq => ?_
          -- a second price on the edge repeats the first reversing one
          have hu' : c.boxesBack box u = c.boxesBack box t := by
            rcases List.mem_append.mp hu with hu | hu
            · rw [hbetween u hu, hsame]
            · rw [List.mem_singleton.mp hu, hsame]
          have heq' : c.dist u = c.dist t := by
            refine le_antisymm (hfirst u hu) ?_
            rw [hedge, hu']
            exact (boxesBack_le_iff hbox).mp le_rfl
          have hut : u = t := dist_inj.mp heq'
          exact honce hone u hu (hut ▸ hedge) hut
      · refine ⟨h.sameBox t List.mem_cons_self hback, fun hone u hu => ?_⟩
        exact (List.pairwise_cons.mp (h.once hone)).1 u hu hback
    · rw [List.cons_append, trail_cons_of_step_eq
        (step_of_idle (hlt t (by simp)) hback), hih]
      constructor
      · intro h
        refine ⟨fun u hu hru => ?_, fun hone => ?_⟩
        · rcases List.mem_cons.mp hu with rfl | hu
          · exact absurd hru hback
          · exact h.sameBox u hu hru
        · exact List.pairwise_cons.mpr ⟨fun _ _ hrt => absurd hrt hback, h.once hone⟩
      · intro h
        exact ⟨fun u hu => h.sameBox u (List.mem_cons_of_mem t hu),
          fun hone => (List.pairwise_cons.mp (h.once hone)).2⟩

end Column

namespace TradeToPnfBarDerived

/-! ## The emitted columns -/

/-- The states of the stream of a key: fresh, with a preset grid, or after a trade. -/
inductive Reachable (b r : ℕ) : TradeToPnfBarDerived → Prop
  | fresh : Reachable b r (newForKey b r)
  | preset (bottom top : ℚ) (isX : Bool) : Reachable b r ((newForKey b r).presetGrid bottom top isX)
  | fed {s : TradeToPnfBarDerived} (h : Reachable b r s) (point : TradePoint) :
      Reachable b r (s.foldTrade point).1

/-- The steps and then the target leave the same current column, and lead through the same
    columns from `col` on, as the target alone. -/
structure SameColumns (s : TradeToPnfBarDerived) (col : PnfColumnPoint) (steps : List TradePoint)
    (target : TradePoint) : Prop where
  current : ((Mealy.mk foldTrade).final s (steps ++ [target])).cur.map (·.column) =
    ((Mealy.mk foldTrade).final s [target]).cur.map (·.column)
  sequence : (columnsOf (col :: (Mealy.mk foldTrade).emitted s (steps ++ [target]))).map
      (·.column) =
    (columnsOf (col :: (Mealy.mk foldTrade).emitted s [target])).map (·.column)

section Emitted

variable {b r : ℕ} {s : TradeToPnfBarDerived} {col : PnfColumnPoint}

theorem Reachable.params (hb : 0 < b) (h : Reachable b r s) :
    s.boxSize = b / 10 ^ 8 ∧ s.reversalCount = max r 1 ∧
      (∀ col ∈ s.cur, s.nextColumnId = col.columnId + 1) ∧ (s.cur = none → s.nextColumnId = 1) := by
  induction h with
  | fresh => exact ⟨if_pos hb, if_pos hb, nofun, fun _ => rfl⟩
  | preset bottom top isX =>
    refine ⟨if_pos hb, if_pos hb, fun col hcol => ?_, nofun⟩
    obtain rfl := Option.some.inj hcol
    rfl
  | @fed s h point ih =>
    obtain ⟨hbox, hrev, hid, hnone⟩ := ih
    obtain ⟨hbox', hrev'⟩ := next_boxSize s point
    refine ⟨hbox'.trans hbox, hrev'.trans hrev, ?_, ?_⟩
    · intro c hc
      rcases hcur : s.cur with _ | col
      · simp only [foldTrade, next_of_none point hcur, openColumn, Option.mem_some_iff] at hc ⊢
        rw [← hc]
      · obtain ⟨c', hcur', -, hid', -⟩ := next_cases point hcur (hid col hcur)
        obtain rfl : c' = c := Option.some.inj (hcur'.symm.trans hc)
        exact hid'
    · intro hc
      rcases hcur : s.cur with _ | col
      · simp [foldTrade, next_of_none point hcur, openColumn] at hc
      · obtain ⟨c', hcur', -⟩ := next_cases point hcur (hid col hcur)
        exact absurd (hcur'.symm.trans hc) (by simp)

/-- The columns that trades lead through are the trail of the current one. -/
theorem map_column_record (closed : List PnfColumnPoint) (trades : List TradePoint)
    (hcur : s.cur = some col) (hid : s.nextColumnId = col.columnId + 1) :
    (((Mealy.mk foldTrade).emitted s trades).foldl recordColumn (closed ++ [col])).map (·.column) =
        closed.map (·.column) ++
          col.column.trail s.boxSize s.reversalCount (trades.map (·.price)) ∧
      ((Mealy.mk foldTrade).final s trades).cur.map (·.column) =
        (col.column.trail s.boxSize s.reversalCount (trades.map (·.price))).getLast? := by
  induction trades generalizing s col closed with
  | nil => simp [hcur, Column.trail]
  | cons point trades ih =>
    obtain ⟨c, hcur', hcolumn, hid', hcases⟩ := next_cases point hcur hid
    obtain ⟨hbox, hrev⟩ := next_boxSize s point
    have hemitted : (Mealy.mk foldTrade).emitted s (point :: trades) =
        c :: (Mealy.mk foldTrade).emitted (s.next point) trades := by
      rw [Mealy.emitted_cons]
      simp only [foldTrade, hcur', Option.toList_some, List.singleton_append]
    rw [hemitted, List.foldl_cons, List.map_cons, Column.trail, ← hcolumn, Mealy.final_cons]
    rcases hcases with ⟨-, -, -, hcid, -⟩ | ⟨-, -, -, hcid, -⟩
    · have hsame : c.column.columnId = col.column.columnId := hcid
      rw [recordColumn_of_same hcid, if_pos hsame, ← hbox, ← hrev]
      exact ih closed hcur' hid'
    · have hnew : c.column.columnId ≠ col.column.columnId := by
        show c.columnId ≠ col.columnId
        omega
      obtain ⟨hrecord, hlast⟩ := ih (closed ++ [col]) hcur' hid'
      rw [recordColumn_of_new (by omega), if_neg hnew, ← hbox, ← hrev]
      refine ⟨?_, hlast.trans ?_⟩
      · rw [hrecord]
        simp
      · rw [List.getLast?_cons]
        have hne : c.column.trail (s.next point).boxSize (s.next point).reversalCount
            (trades.map (·.price)) ≠ [] := Column.trail_ne_nil
        obtain ⟨e, he⟩ := Option.isSome_iff_exists.mp (List.getLast?_isSome.mpr hne)
        rw [he]
        rfl

theorem sameColumns_iff (hcur : s.cur = some col) (hid : s.nextColumnId = col.columnId + 1)
    (steps : List TradePoint) (target : TradePoint) :
    SameColumns s col steps target ↔
      col.column.trail s.boxSize s.reversalCount (steps.map (·.price) ++ [target.price]) =
        col.column.trail s.boxSize s.reversalCount [target.price] := by
  have hall := map_column_record [] (steps ++ [target]) hcur hid
  have hone := map_column_record [] [target] hcur hid
  rw [List.map_append] at hall
  simp only [List.map_cons, List.map_nil, List.nil_append] at hall hone
  have hseq : ∀ trades, columnsOf (col :: trades) = trades.foldl recordColumn [col] :=
    fun trades => rfl
  constructor
  · intro h
    have hsequence := h.sequence
    rwa [hseq, hseq, hall.1, hone.1] at hsequence
  · intro h
    refine ⟨?_, ?_⟩
    · rw [hall.2, hone.2, h]
    · rw [hseq, hseq, hall.1, hone.1, h]

/-- **Main theorem.** In every reachable state, with `x` a price in the last box of the current
    column: prices on a monotone way from `x` to the target lead to the same columns as the
    target alone exactly when they are `SampledAlike`: those that reverse the column lie in the
    box of the target, and for a reversal of one box none is fed again from the edge of a
    box. -/
theorem pnf_sampling_iff (hb : 0 < b) (h : Reachable b r s) (hcur : s.cur = some col) {x : ℚ}
    (hx : 0 ≤ col.column.dist x) (hx' : col.column.dist x < b / 10 ^ 8) (steps : List TradePoint)
    (target : TradePoint)
    (hmono : (x :: (steps ++ [target]).map (·.price)).Pairwise (· ≤ ·) ∨
      (x :: (steps ++ [target]).map (·.price)).Pairwise (· ≥ ·)) :
    SameColumns s col steps target ↔
      col.column.SampledAlike (b / 10 ^ 8) (max r 1) (steps.map (·.price)) target.price := by
  obtain ⟨hbox, hrev, hid, -⟩ := h.params hb
  have hq : (0 : ℚ) < b / 10 ^ 8 := by positivity
  have hr : 0 < max r 1 := by omega
  rw [sameColumns_iff hcur (hid col hcur), hbox, hrev]
  rw [List.map_append, List.map_cons, List.map_nil] at hmono
  have hdist := fun p t => Column.dist_le_dist_iff (c := col.column) (p := p) (t := t)
  -- the prices move away from the edge, or back from it
  have hway : (x :: (steps.map (·.price) ++ [target.price])).Pairwise
        (fun t u => col.column.dist t ≤ col.column.dist u) ∨
      (x :: (steps.map (·.price) ++ [target.price])).Pairwise
        (fun t u => col.column.dist u ≤ col.column.dist t) := by
    simp only [hdist]
    cases col.column.isX with
    | true => exact hmono
    | false => exact hmono.symm
  rcases hway with hout | hback
  · obtain ⟨hfirst, hrest⟩ := List.pairwise_cons.mp hout
    have hnonneg := fun t ht => hx.trans (hfirst t ht)
    refine iff_of_true (Column.trail_append_of_extending hq hr hnonneg hrest) ⟨?_, fun _ => ?_⟩
    · intro t ht hback
      have := hnonneg t (List.mem_append_left _ ht)
      exact absurd hback (Column.not_reverses_of_nonneg hq hr this)
    · refine hrest.imp_of_mem fun ht _ _ hback => ?_
      exact absurd hback (Column.not_reverses_of_nonneg hq hr (hnonneg _ ht))
  · obtain ⟨hfirst, hrest⟩ := List.pairwise_cons.mp hback
    exact Column.trail_append_iff hq hr (fun t ht => (hfirst t ht).trans_lt hx') hrest

end Emitted

/-- Box `1`, reversal `3`, after a trade at `9`: prices `8` and `5` reverse the column
    `[9, 10]` once. -/
theorem pnf_sampling_iff_five :
    SameColumns ((newForKey 100000000 3).foldTrade (buyAt 1 9 1)).1 ⟨1, 1, true, 9, 10, 1, 1⟩
        [buyAt 2 8 1] (buyAt 3 5 1) ↔
      (PnfColumnPoint.column ⟨1, 1, true, 9, 10, 1, 1⟩).SampledAlike
        ((100000000 : ℕ) / 10 ^ 8) (max 3 1) ([buyAt 2 8 1].map (·.price)) (buyAt 3 5 1).price :=
  pnf_sampling_iff (by decide) (.fed .fresh _) (by decide +kernel) (x := 10) (by decide +kernel)
    (by decide +kernel) [buyAt 2 8 1] (buyAt 3 5 1) (.inr (by decide +kernel))

/-- The same state: the price `7` on the way reverses the column first, and the column ends at
    `5` instead of `4`. -/
theorem not_sameColumns_of_seven :
    ¬ SameColumns ((newForKey 100000000 3).foldTrade (buyAt 1 9 1)).1 ⟨1, 1, true, 9, 10, 1, 1⟩
      [buyAt 2 7 1] (buyAt 3 5 1) := by
  intro h
  exact absurd h.current (by decide +kernel)

end TradeToPnfBarDerived

end Digdigdig3.Derived
