import Digdigdig3.Derived.TradeBars

/-!
# The cut of tick-imbalance bars

`TradeToTickImbalanceDerived` (`derived.rs` lines 1993–2117) closes a bar when the buys and the
sells of the bar differ by `E[|θ|] × E[T]`, two averages over the bars closed so far, or by
`min_ticks / 2` when that is more. The seeds are `E[|θ|] = min_ticks / 2` and
`E[T] = min_ticks`, so the first bar is cut at `min_ticks ² / 2`, not at the `min_ticks / 2`
that the documentation of the seed speaks of.

Results:
* `Tracks.step`: the state holds the averages of the closed bars and the count of the open one.
* `tick_imbalance_lawful_iff`: the bars are always cut by the documented rule; the first one as
  documented exactly when `min_ticks` is one or the imbalance never gets there.
-/

namespace Digdigdig3.Derived.TickImbalance

variable {alpha : ℚ} {minTicks : ℕ} {trades current : List TradePoint}
  {closed : List (List TradePoint)} {point : TradePoint}

/-! ## Specification -/

/-- `θ`: buys less sells. -/
def theta (trades : List TradePoint) : ℚ := (trades.map signedTick).sum

/-- `E[T]` after the bars `closed`. -/
def expectedTicks (alpha : ℚ) (minTicks : ℕ) (closed : List (List TradePoint)) : ℚ :=
  closed.foldl (fun e bar => alpha * bar.length + (1 - alpha) * e) minTicks

/-- `E[|θ|]` after the bars `closed`. -/
def expectedThetaAbs (alpha : ℚ) (minTicks : ℕ) (closed : List (List TradePoint)) : ℚ :=
  closed.foldl (fun e bar => alpha * |theta bar| + (1 - alpha) * e) (minTicks * (1 / 2))

/-- What the bar after the bars `closed` has to reach. -/
def threshold (alpha : ℚ) (minTicks : ℕ) (closed : List (List TradePoint)) : ℚ :=
  max (expectedThetaAbs alpha minTicks closed * expectedTicks alpha minTicks closed)
    (minTicks * (1 / 2))

/-- `front` is the first of its prefixes with an imbalance of `level`. -/
def FirstReaches (level : ℚ) (front : List TradePoint) : Prop :=
  level ≤ |theta front| ∧ ∀ pre, pre <+: front → pre ≠ front → |theta pre| < level

/-- The trades are cut into the bars `closed`, each closed by the first trade with which it
    reaches its threshold, and the open bar `current`, which has not reached its own. -/
structure IsCut (alpha : ℚ) (minTicks : ℕ) (trades : List TradePoint)
    (closed : List (List TradePoint)) (current : List TradePoint) : Prop where
  flatten_eq : closed.flatten ++ current = trades
  closes : ∀ before bar after, closed = before ++ bar :: after →
    FirstReaches (threshold alpha minTicks before) bar
  isOpen : ∀ front, front <+: current → |theta front| < threshold alpha minTicks closed

/-- The bars with a trade. -/
def blocksOf (closed : List (List TradePoint)) (current : List TradePoint) :
    List (List TradePoint) :=
  if current = [] then closed else closed ++ [current]

/-- The state after the trades. -/
def finalState (alphaX100 minTicks : ℕ) (exchange : ExchangeId) (symbol : String)
    (trades : List TradePoint) : TradeToImbalanceDerived :=
  TradeToTickImbalanceDerived.machine.final (.newForKey alphaX100 minTicks)
    (trades.map (.trade exchange symbol))

/-- The bars as they are stored, the last emission for each open time. -/
def storedBars (alphaX100 minTicks : ℕ) (exchange : ExchangeId) (symbol : String)
    (trades : List TradePoint) : List BarPoint :=
  lastWins BarPoint.openTime (TradeToTickImbalanceDerived.machine.emitted
    (.newForKey alphaX100 minTicks) (trades.map (.trade exchange symbol)))

/-- The stored bars are those of the documented cut, with increasing open times, and the first
    of them was closed by the trade with which the imbalance reached `min_ticks / 2`. -/
def Lawful (alphaX100 minTicks : ℕ) (exchange : ExchangeId) (symbol : String)
    (trades : List TradePoint) : Prop :=
  ∃ closed current, IsCut ((alphaX100 : ℚ) / 100) minTicks trades closed current ∧
    ((finalState alphaX100 minTicks exchange symbol trades).current = none ↔ current = []) ∧
    List.Forall₂ Summarises (blocksOf closed current)
      (storedBars alphaX100 minTicks exchange symbol trades) ∧
    (storedBars alphaX100 minTicks exchange symbol trades).map (·.openTime) =
      openTimes 0 (blocksOf closed current) ∧
    (storedBars alphaX100 minTicks exchange symbol trades).Pairwise (·.openTime < ·.openTime) ∧
    ∀ front, front <+: trades → FirstReaches ((minTicks : ℚ) / 2) front →
      closed.head? = some front

/-! ## The cut -/

@[simp] theorem theta_nil : theta [] = 0 := rfl

theorem theta_concat (trades : List TradePoint) (point : TradePoint) :
    theta (trades ++ [point]) = theta trades + signedTick point := by
  rw [theta, List.map_append, List.sum_append, List.map_singleton, List.sum_singleton]
  rfl

theorem abs_signedTick (point : TradePoint) : |signedTick point| = 1 := by
  rw [signedTick]
  split_ifs <;> norm_num

theorem threshold_pos (alpha : ℚ) (hmin : 0 < minTicks) (closed : List (List TradePoint)) :
    0 < threshold alpha minTicks closed := by
  have hhalf : (0 : ℚ) < minTicks * (1 / 2) := by positivity
  exact lt_max_of_lt_right hhalf

/-- The seeds: the first bar has to reach half the square of `min_ticks`. -/
theorem threshold_nil (alpha : ℚ) (hmin : 0 < minTicks) :
    threshold alpha minTicks [] = minTicks * minTicks / 2 := by
  have hone : (1 : ℚ) ≤ minTicks := by exact_mod_cast hmin
  have hle : (minTicks : ℚ) * (1 / 2) ≤ minTicks * (1 / 2) * minTicks := by nlinarith
  rw [threshold, expectedThetaAbs, expectedTicks, List.foldl_nil, List.foldl_nil, max_eq_left hle]
  ring

theorem IsCut.nil (alpha : ℚ) (hmin : 0 < minTicks) : IsCut alpha minTicks [] [] [] where
  flatten_eq := rfl
  closes before bar after h := by simp at h
  isOpen front hfront := by
    rw [List.prefix_nil.mp hfront, theta_nil, abs_zero]
    exact threshold_pos alpha hmin []

theorem IsCut.grow (h : IsCut alpha minTicks trades closed current)
    (hbelow : |theta (current ++ [point])| < threshold alpha minTicks closed) :
    IsCut alpha minTicks (trades ++ [point]) closed (current ++ [point]) where
  flatten_eq := by rw [← List.append_assoc, h.flatten_eq]
  closes := h.closes
  isOpen front hfront := by
    rcases List.prefix_concat_iff.mp hfront with rfl | hfront
    · exact hbelow
    · exact h.isOpen front hfront

theorem IsCut.close (h : IsCut alpha minTicks trades closed current) (hmin : 0 < minTicks)
    (hreach : threshold alpha minTicks closed ≤ |theta (current ++ [point])|) :
    IsCut alpha minTicks (trades ++ [point]) (closed ++ [current ++ [point]]) [] where
  flatten_eq := by
    rw [List.flatten_concat, List.append_nil, ← List.append_assoc, h.flatten_eq]
  closes before bar after hsplit := by
    rcases List.eq_nil_or_concat after with rfl | ⟨after, last, rfl⟩
    · obtain ⟨rfl, hbar⟩ := List.append_inj' hsplit rfl
      obtain rfl := (List.cons.inj hbar).1
      refine ⟨hreach, fun pre hpre hne => ?_⟩
      exact h.isOpen pre ((List.prefix_concat_iff.mp hpre).resolve_left hne)
    · have hsplit' : closed ++ [current ++ [point]] = (before ++ bar :: after) ++ [last] := by
        simpa using hsplit
      exact h.closes before bar after (List.append_inj' hsplit' rfl).1
  isOpen front hfront := by
    rw [List.prefix_nil.mp hfront, theta_nil, abs_zero]
    exact threshold_pos alpha hmin _

theorem blocksOf_concat (closed : List (List TradePoint)) (current : List TradePoint)
    (point : TradePoint) : blocksOf closed (current ++ [point]) = closed ++ [current ++ [point]] :=
  if_neg (by simp)

theorem blocksOf_nil (closed : List (List TradePoint)) : blocksOf closed [] = closed := if_pos rfl

/-! ## The machine -/

/-- What the state holds after the trades `trades`, cut into `closed` and `current`. -/
structure Tracks (alpha : ℚ) (minTicks : ℕ) (trades : List TradePoint)
    (s : TradeToImbalanceDerived) (emitted : List BarPoint) (closed : List (List TradePoint))
    (current : List TradePoint) : Prop where
  alpha_eq : s.alpha = alpha
  minTicks_eq : s.minTicks = minTicks
  theta_eq : s.theta = theta current
  tickCount_eq : s.tickCount = current.length
  expectedTicks_eq : s.expectedTicks = expectedTicks alpha minTicks closed
  expectedThetaAbs_eq : s.expectedThetaAbs = expectedThetaAbs alpha minTicks closed
  cut : IsCut alpha minTicks trades closed current
  none_iff : s.current = none ↔ current = []
  bars : BarsOf (blocksOf closed current) s.lastEmittedOpenTime (lastWins BarPoint.openTime emitted)
  last_eq : ∀ bar, s.current = some bar →
    (lastWins BarPoint.openTime emitted).getLast? = some bar

section Machine

variable {s : TradeToImbalanceDerived} {emitted : List BarPoint}

theorem Tracks.threshold_eq (h : Tracks alpha minTicks trades s emitted closed current) :
    s.closeThreshold = threshold alpha minTicks closed := by
  rw [TradeToImbalanceDerived.closeThreshold, h.expectedThetaAbs_eq, h.expectedTicks_eq,
    h.minTicks_eq]
  rfl

/-- The bar of the trade, its count and its imbalance, before it is known whether it closes. -/
theorem Tracks.booked (h : Tracks alpha minTicks trades s emitted closed current)
    (point : TradePoint) :
    (if s.current.isNone then signedTick point else s.theta + signedTick point) =
        theta (current ++ [point]) ∧
      (if s.current.isNone then 1 else s.tickCount + 1) = (current ++ [point]).length ∧
      BarsOf (closed ++ [current ++ [point]])
        (openOrUpdate s.current s.lastEmittedOpenTime point).2 (lastWins BarPoint.openTime
          (emitted ++ [(openOrUpdate s.current s.lastEmittedOpenTime point).1])) ∧
      (lastWins BarPoint.openTime
        (emitted ++ [(openOrUpdate s.current s.lastEmittedOpenTime point).1])).getLast? =
        some (openOrUpdate s.current s.lastEmittedOpenTime point).1 := by
  rw [theta_concat, List.length_append, List.length_singleton]
  have hbars := h.bars
  rcases hcur : s.current with _ | bar
  · obtain rfl := h.none_iff.mp hcur
    rw [blocksOf_nil] at hbars
    refine ⟨?_, rfl, hbars.push point⟩
    rw [theta_nil, zero_add]
    rfl
  · have hne : current ≠ [] := by
      rw [← h.none_iff.ne, hcur]
      simp
    rw [blocksOf, if_neg hne] at hbars
    exact ⟨by rw [← h.theta_eq]; rfl, by rw [← h.tickCount_eq]; rfl,
      hbars.extend (h.last_eq bar hcur) point⟩

/-- **Step lemma.** -/
theorem Tracks.step (h : Tracks alpha minTicks trades s emitted closed current)
    (hmin : 0 < minTicks) (point : TradePoint) :
    ∃ closed' current', Tracks alpha minTicks (trades ++ [point]) (s.foldSigned signedTick point).1
      (emitted ++ (s.foldSigned signedTick point).2.toList) closed' current' := by
  obtain ⟨htheta, hcount, hbars, hlast⟩ := h.booked point
  have hthreshold := h.threshold_eq
  simp only [TradeToImbalanceDerived.foldSigned, htheta, hcount, hthreshold]
  by_cases hreach : threshold alpha minTicks closed ≤ |theta (current ++ [point])|
  · rw [if_pos hreach]
    refine ⟨closed ++ [current ++ [point]], [], h.alpha_eq, h.minTicks_eq, rfl, rfl, ?_, ?_,
      h.cut.close hmin hreach, iff_of_true rfl rfl, ?_, ?_⟩
    · simp only [expectedTicks, List.foldl_concat, h.alpha_eq]
      rw [h.expectedTicks_eq, expectedTicks]
    · simp only [expectedThetaAbs, List.foldl_concat, h.alpha_eq]
      rw [h.expectedThetaAbs_eq, expectedThetaAbs]
    · rw [blocksOf_nil]
      exact hbars
    · rintro _ ⟨⟩
  · rw [if_neg hreach]
    refine ⟨closed, current ++ [point], h.alpha_eq, h.minTicks_eq, rfl, rfl, h.expectedTicks_eq,
      h.expectedThetaAbs_eq, h.cut.grow (not_le.mp hreach), ?_, ?_, ?_⟩
    · exact iff_of_false (Option.some_ne_none _) (by simp)
    · rw [blocksOf_concat]
      exact hbars
    · rintro _ ⟨⟩
      exact hlast

/-- **Run lemma.** -/
theorem exists_tracks {alphaX100 : ℕ} (halpha : 0 < alphaX100) (hmin : 0 < minTicks)
    (exchange : ExchangeId) (symbol : String) (trades : List TradePoint) :
    ∃ closed current, Tracks ((alphaX100 : ℚ) / 100) minTicks trades
      (finalState alphaX100 minTicks exchange symbol trades)
      (TradeToTickImbalanceDerived.machine.emitted (.newForKey alphaX100 minTicks)
        (trades.map (.trade exchange symbol))) closed current := by
  have hne : (alphaX100 : ℚ) / 100 ≠ 0 := by positivity
  induction trades using List.reverseRecOn with
  | nil =>
    refine ⟨[], [], if_pos hmin, rfl, rfl, rfl, rfl, rfl, IsCut.nil _ hmin, iff_of_true rfl rfl,
      ?_, nofun⟩
    rw [blocksOf_nil]
    exact BarsOf.nil
  | append_singleton trades point ih =>
    obtain ⟨closed, current, h⟩ := ih
    obtain ⟨closed', current', hnext⟩ := h.step hmin point
    refine ⟨closed', current', ?_⟩
    have hon : ¬ ((finalState alphaX100 minTicks exchange symbol trades).alpha = 0 ∨
        (finalState alphaX100 minTicks exchange symbol trades).minTicks = 0) := by
      rw [h.alpha_eq, h.minTicks_eq]
      exact not_or.mpr ⟨hne, hmin.ne'⟩
    have hstep : TradeToTickImbalanceDerived.machine.step
        (finalState alphaX100 minTicks exchange symbol trades) (.trade exchange symbol point) =
        (finalState alphaX100 minTicks exchange symbol trades).foldSigned signedTick point :=
      if_neg hon
    rw [finalState] at hstep hnext
    rw [finalState, List.map_append, List.map_singleton, Mealy.final_concat, Mealy.emitted_concat,
      hstep]
    exact hnext

end Machine

/-! ## The first bar -/

/-- Of two prefixes of the trades, one is a prefix of the other. -/
theorem eq_or_ne_prefix {front bar : List TradePoint} (hfront : front <+: trades)
    (hbar : bar <+: trades) : front = bar ∨ (front <+: bar ∧ front ≠ bar) ∨
      (bar <+: front ∧ bar ≠ front) := by
  by_cases heq : front = bar
  · exact .inl heq
  · rcases List.prefix_or_prefix_of_prefix hfront hbar with h | h
    · exact .inr (.inl ⟨h, heq⟩)
    · exact .inr (.inr ⟨h, Ne.symm heq⟩)

/-- The first bar ends where the imbalance first reaches its threshold. -/
theorem IsCut.head?_eq (h : IsCut alpha minTicks trades closed current) {front : List TradePoint}
    (hfront : front <+: trades) (hreach : FirstReaches (threshold alpha minTicks []) front) :
    closed.head? = some front := by
  cases closed with
  | nil =>
    have hcurrent : current = trades := h.flatten_eq
    exact absurd hreach.1 (not_le.mpr (h.isOpen front (hcurrent ▸ hfront)))
  | cons bar rest =>
    have hcloses := h.closes [] bar rest rfl
    have hbar : bar <+: trades := ⟨rest.flatten ++ current, by simpa using h.flatten_eq⟩
    rcases eq_or_ne_prefix hfront hbar with rfl | ⟨hpre, hne⟩ | ⟨hpre, hne⟩
    · rfl
    · exact absurd hreach.1 (not_le.mpr (hcloses.2 front hpre hne))
    · exact absurd hcloses.1 (not_le.mpr (hreach.2 bar hpre hne))

/-- The imbalance moves by one, so the first time at a level of one or more it is less than one
    above it. -/
theorem FirstReaches.lt_add_one {level : ℚ} {front : List TradePoint} (hlevel : 0 < level)
    (h : FirstReaches level front) : |theta front| < level + 1 := by
  rcases List.eq_nil_or_concat front with rfl | ⟨front, point, rfl⟩
  · have hreach := h.1
    rw [theta_nil, abs_zero] at hreach
    exact absurd hreach (not_le.mpr hlevel)
  · rw [List.concat_eq_append] at h ⊢
    have hbefore := h.2 front (List.prefix_append _ _) (by simp)
    rw [theta_concat]
    calc |theta front + signedTick point| ≤ |theta front| + |signedTick point| := abs_add_le _ _
      _ = |theta front| + 1 := by rw [abs_signedTick]
      _ < level + 1 := by linarith

/-- If the imbalance gets to a level, it gets there for a first time. -/
theorem exists_firstReaches {level : ℚ}
    (h : ∃ front, front <+: trades ∧ level ≤ |theta front|) :
    ∃ first, first <+: trades ∧ FirstReaches level first := by
  induction trades using List.reverseRecOn with
  | nil =>
    obtain ⟨front, hfront, hreach⟩ := h
    obtain rfl := List.prefix_nil.mp hfront
    exact ⟨[], hfront, hreach, fun pre hpre hne => absurd (List.prefix_nil.mp hpre) hne⟩
  | append_singleton trades point ih =>
    by_cases hearlier : ∃ front, front <+: trades ∧ level ≤ |theta front|
    · obtain ⟨first, hfirst, hreach⟩ := ih hearlier
      exact ⟨first, hfirst.trans (List.prefix_append _ _), hreach⟩
    · obtain ⟨front, hfront, hreach⟩ := h
      have hbelow : ∀ pre, pre <+: trades → |theta pre| < level := by
        intro pre hpre
        by_contra hnot
        exact hearlier ⟨pre, hpre, not_lt.mp hnot⟩
      rcases List.prefix_concat_iff.mp hfront with rfl | hfront
      · refine ⟨trades ++ [point], List.prefix_refl _, hreach, fun pre hpre hne => ?_⟩
        exact hbelow pre ((List.prefix_concat_iff.mp hpre).resolve_left hne)
      · exact absurd hreach (not_le.mpr (hbelow front hfront))

/-- A first bar that is closed at `min_ticks / 2` is one of a single tick. -/
theorem Lawful.eq_one_or {alphaX100 : ℕ} {exchange : ExchangeId} {symbol : String}
    (h : Lawful alphaX100 minTicks exchange symbol trades) (hmin : 1 ≤ minTicks) :
    minTicks = 1 ∨ ∀ front, front <+: trades → |theta front| < (minTicks : ℚ) / 2 := by
  obtain ⟨closed, current, hcut, -, -, -, -, hfirst⟩ := h
  by_contra hnot
  rw [not_or] at hnot
  obtain ⟨hone, hreach⟩ := hnot
  have htwo : (2 : ℚ) ≤ minTicks := by exact_mod_cast (by omega : 2 ≤ minTicks)
  obtain ⟨first, hprefix, hreaches⟩ := exists_firstReaches (by
    by_contra hnone
    exact hreach fun front hfront => not_le.mp fun hle => hnone ⟨front, hfront, hle⟩)
  obtain ⟨rest, rfl⟩ := List.head?_eq_some_iff.mp (hfirst first hprefix hreaches)
  have hclosed := (hcut.closes [] first rest rfl).1
  rw [threshold_nil _ hmin] at hclosed
  have hlt := hreaches.lt_add_one (by linarith)
  nlinarith

/-- **Main theorem.** The bars are those of the documented cut, and the first one is cut as the
    seed's documentation has it exactly when `min_ticks` is one or the imbalance never gets to
    `min_ticks / 2`. -/
theorem tick_imbalance_lawful_iff {alphaX100 minTicks : ℕ} (halpha : 1 ≤ alphaX100)
    (hmin : 1 ≤ minTicks) (exchange : ExchangeId) (symbol : String)
    (trades : List TradePoint) :
    Lawful alphaX100 minTicks exchange symbol trades ↔
      minTicks = 1 ∨ ∀ front, front <+: trades → |theta front| < (minTicks : ℚ) / 2 := by
  constructor
  · exact fun h => h.eq_one_or hmin
  · intro hcond
    obtain ⟨closed, current, h⟩ := exists_tracks halpha hmin exchange symbol trades
    refine ⟨closed, current, h.cut, h.none_iff, h.bars.summaries, h.bars.stamped,
      h.bars.increasing, fun front hfront hreach => ?_⟩
    rcases hcond with rfl | hnever
    · refine h.cut.head?_eq hfront ?_
      rw [threshold_nil _ hmin, Nat.cast_one, mul_one]
      rwa [Nat.cast_one] at hreach
    · exact absurd hreach.1 (not_le.mpr (hnever front hfront))

theorem tick_imbalance_lawful_iff_one_tick :
    Lawful 20 1 .binance "BTCUSDT" [buyAt 1 100 1] ↔
      1 = 1 ∨ ∀ front, front <+: [buyAt 1 100 1] → |theta front| < ((1 : ℕ) : ℚ) / 2 :=
  tick_imbalance_lawful_iff (by decide) (by decide) .binance "BTCUSDT" [buyAt 1 100 1]

/-- One buy is an imbalance of one, half of two ticks, and the bar stays open. -/
theorem not_lawful_of_two_ticks : ¬ Lawful 20 2 .binance "BTCUSDT" [buyAt 1 100 1] := by
  intro h
  rcases h.eq_one_or (by decide) with h | h
  · cases h
  · have hone := h [buyAt 1 100 1] (List.prefix_refl _)
    norm_num [theta, signedTick, buyAt] at hone

end Digdigdig3.Derived.TickImbalance
