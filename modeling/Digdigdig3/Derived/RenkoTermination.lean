import Digdigdig3.Derived.Renko

/-!
# When the Renko loop ends

With a reversal count of two or more every round brings the anchor closer to the price. With a
reversal count of one a reversal moves the anchor two boxes, one of them consumed, and the price
may be a single box away: then the next round reverses back.

* `Stuck.round`: in this situation every round leads into its mirror image.
* `exists_bricks_of_not_stuck`: in every other one the loop ends.
* `terminates_iff`: the two together, for every reachable state.
-/

namespace Digdigdig3.Derived

namespace TradeToRenkoBarDerived

/-- `preset_grid_anchor` (lines 964–967). -/
def presetGridAnchor (s : TradeToRenkoBarDerived) (gridFloor : ℚ) : TradeToRenkoBarDerived :=
  { s with anchor := gridFloor, seeded := true }

/-- The states of a stream for `Kind::RenkoBar(b, r)`: a new one, possibly with a preset grid or a
    kline baseline, and what events make of it. -/
inductive Reachable (b r : ℕ) : KlineDeltaState → TradeToRenkoBarDerived → Prop
  | new : Reachable b r KlineDeltaState.new (newForKey b r)
  | preset (gridFloor : ℚ) :
      Reachable b r KlineDeltaState.new ((newForKey b r).presetGridAnchor gridFloor)
  | baseline {ks : KlineDeltaState} {s : TradeToRenkoBarDerived} (h : Reachable b r ks s)
      (openTime : ℤ) (volume close : ℚ) :
      Reachable b r (KlineDeltaState.seedBaseline openTime volume close) s
  | event {ks ks' : KlineDeltaState} {s s' : TradeToRenkoBarDerived} (h : Reachable b r ks s)
      {fuel : ℕ} {ev : Event} {o : Option RenkoBrickPoint}
      (call : onUpstreamEvent fuel ks s ev = some ((ks', s'), o)) : Reachable b r ks' s'

/-- One brick is enough to reverse, and the price is exactly one box from the anchor, against the
    direction of the last brick. -/
def Stuck (s : TradeToRenkoBarDerived) (point : TradePoint) : Prop :=
  s.reversalCount = 1 ∧
    (s.lastDir = some false ∧ point.price = s.anchor + s.boxSize ∨
      s.lastDir = some true ∧ point.price = s.anchor - s.boxSize)

instance (s : TradeToRenkoBarDerived) (point : TradePoint) : Decidable (s.Stuck point) := by
  unfold Stuck
  infer_instance

section Loop

variable {point : TradePoint} {s s' : TradeToRenkoBarDerived} {bricks : List RenkoBrickPoint}

/-- **Step lemma.** From a stuck state a round leads to a stuck state. -/
theorem Stuck.round (hbox : 0 < s.boxSize) (h : s.Stuck point) :
    ∃ s' brick, s.round point = some (s', brick) ∧ s'.boxSize = s.boxSize ∧ s'.Stuck point := by
  obtain ⟨hrev, ⟨hdir, hprice⟩ | ⟨hdir, hprice⟩⟩ := h
  · have hup : s.anchor + s.boxSize ≤ point.price := hprice.ge
    have henough : ¬ (s.lastDir = some false ∧
        point.price < s.anchor + s.boxSize * s.reversalCount) := by
      rw [hrev, hprice]
      simp
    rw [TradeToRenkoBarDerived.round, if_pos hup, if_neg henough]
    refine ⟨_, _, rfl, rfl, hrev, .inr ⟨rfl, ?_⟩⟩
    simp only [hdir, if_true]
    linarith
  · have hdown : point.price ≤ s.anchor - s.boxSize := hprice.le
    have hup : ¬ s.anchor + s.boxSize ≤ point.price := by
      rw [hprice]
      linarith
    have henough : ¬ (s.lastDir = some true ∧
        s.anchor - s.boxSize * s.reversalCount < point.price) := by
      rw [hrev, hprice]
      simp
    rw [TradeToRenkoBarDerived.round, if_neg hup, if_pos hdown, if_neg henough]
    refine ⟨_, _, rfl, rfl, hrev, .inl ⟨rfl, ?_⟩⟩
    simp only [hdir, if_true]
    linarith

/-- **Run lemma.** The loop does not end from a stuck state. -/
theorem Stuck.not_bricks (hbox : 0 < s.boxSize) (h : s.Stuck point) :
    ¬ Bricks point s s' bricks := by
  intro hbricks
  induction hbricks with
  | done hround =>
    obtain ⟨s', brick, hsome, -⟩ := h.round hbox
    rw [hround] at hsome
    cases hsome
  | next hround rest ih =>
    obtain ⟨s', brick, hsome, hsize, hstuck⟩ := h.round hbox
    rw [hround] at hsome
    cases hsome
    exact ih (by rw [hsize]; exact hbox) hstuck

/-- Up bricks in a row never pass the price. -/
theorem exists_bricks_up (hbox : 0 < s.boxSize) (hdir : s.lastDir ≠ some false)
    (hle : s.anchor ≤ point.price) : ∃ s' bricks, Bricks point s s' bricks := by
  obtain ⟨n, hn⟩ : ∃ n : ℕ, point.price - s.anchor < n * s.boxSize := by
    obtain ⟨n, hn⟩ := exists_nat_gt ((point.price - s.anchor) / s.boxSize)
    exact ⟨n, (div_lt_iff₀ hbox).mp hn⟩
  induction n generalizing s with
  | zero => exact absurd hn (by simp only [Nat.cast_zero, zero_mul]; linarith)
  | succ n ih =>
    cases hround : s.round point with
    | none => exact ⟨s, [], .done hround⟩
    | some r =>
      obtain ⟨s₁, brick⟩ := r
      rcases round_eq_some hround with ⟨bottom, hbottom, hup, -, -, hs₁⟩ | ⟨top, -, hdown, -⟩
      · rw [if_neg hdir] at hbottom
        have hanchor : s₁.anchor = s.anchor + s.boxSize := by rw [hs₁, hbottom]
        have hsize : s₁.boxSize = s.boxSize := by rw [hs₁]
        push_cast at hn
        obtain ⟨s', bricks, rest⟩ := ih (s := s₁) (by rw [hsize]; exact hbox) (by rw [hs₁]; simp)
          (by rw [hanchor]; exact hup) (by rw [hanchor, hsize]; linarith)
        exact ⟨s', brick :: bricks, .next hround rest⟩
      · linarith

/-- Down bricks in a row never pass the price. -/
theorem exists_bricks_down (hbox : 0 < s.boxSize) (hdir : s.lastDir ≠ some true)
    (hle : point.price ≤ s.anchor) : ∃ s' bricks, Bricks point s s' bricks := by
  obtain ⟨n, hn⟩ : ∃ n : ℕ, s.anchor - point.price < n * s.boxSize := by
    obtain ⟨n, hn⟩ := exists_nat_gt ((s.anchor - point.price) / s.boxSize)
    exact ⟨n, (div_lt_iff₀ hbox).mp hn⟩
  induction n generalizing s with
  | zero => exact absurd hn (by simp only [Nat.cast_zero, zero_mul]; linarith)
  | succ n ih =>
    cases hround : s.round point with
    | none => exact ⟨s, [], .done hround⟩
    | some r =>
      obtain ⟨s₁, brick⟩ := r
      rcases round_eq_some hround with ⟨bottom, -, hup, -⟩ | ⟨top, htop, hdown, -, -, hs₁⟩
      · linarith
      · rw [if_neg hdir] at htop
        have hanchor : s₁.anchor = s.anchor - s.boxSize := by rw [hs₁, htop]
        have hsize : s₁.boxSize = s.boxSize := by rw [hs₁]
        push_cast at hn
        obtain ⟨s', bricks, rest⟩ := ih (s := s₁) (by rw [hsize]; exact hbox) (by rw [hs₁]; simp)
          (by rw [hanchor]; exact hdown) (by rw [hanchor, hsize]; linarith)
        exact ⟨s', brick :: bricks, .next hround rest⟩

theorem round_eq_none (hlo : s.anchor - s.boxSize < point.price)
    (hhi : point.price < s.anchor + s.boxSize) : s.round point = none := by
  rw [TradeToRenkoBarDerived.round, if_neg (not_le.mpr hhi), if_neg (not_le.mpr hlo)]

/-- After a reversal by one box the anchor is past the price, or more bricks follow in the new
    direction. -/
theorem exists_bricks_of_not_stuck (hbox : 0 < s.boxSize) (hrev : s.reversalCount = 1)
    (h : ¬ s.Stuck point) : ∃ s' bricks, Bricks point s s' bricks := by
  cases hround : s.round point with
  | none => exact ⟨s, [], .done hround⟩
  | some r =>
    obtain ⟨s₁, brick⟩ := r
    rcases round_eq_some hround with ⟨bottom, hbottom, hup, -, -, hs₁⟩ |
      ⟨top, htop, hdown, -, -, hs₁⟩
    · by_cases hdir : s.lastDir = some false
      · rw [if_pos hdir] at hbottom
        have hanchor : s₁.anchor = s.anchor + s.boxSize + s.boxSize := by rw [hs₁, hbottom]
        have hsize : s₁.boxSize = s.boxSize := by rw [hs₁]
        have hpast : point.price ≠ s.anchor + s.boxSize := fun heq => h ⟨hrev, .inl ⟨hdir, heq⟩⟩
        obtain ⟨s', bricks, rest⟩ : ∃ s' bricks, Bricks point s₁ s' bricks := by
          rcases le_or_gt s₁.anchor point.price with hle | hlt
          · exact exists_bricks_up (by rw [hsize]; exact hbox) (by rw [hs₁]; simp) hle
          · refine ⟨s₁, [], .done (round_eq_none ?_ (by linarith))⟩
            rw [hanchor, hsize]
            linarith [lt_of_le_of_ne hup hpast.symm]
        exact ⟨s', brick :: bricks, .next hround rest⟩
      · exact exists_bricks_up hbox hdir (by linarith)
    · by_cases hdir : s.lastDir = some true
      · rw [if_pos hdir] at htop
        have hanchor : s₁.anchor = s.anchor - s.boxSize - s.boxSize := by rw [hs₁, htop]
        have hsize : s₁.boxSize = s.boxSize := by rw [hs₁]
        have hpast : point.price ≠ s.anchor - s.boxSize := fun heq => h ⟨hrev, .inr ⟨hdir, heq⟩⟩
        obtain ⟨s', bricks, rest⟩ : ∃ s' bricks, Bricks point s₁ s' bricks := by
          rcases le_or_gt point.price s₁.anchor with hle | hlt
          · exact exists_bricks_down (by rw [hsize]; exact hbox) (by rw [hs₁]; simp) hle
          · refine ⟨s₁, [], .done (round_eq_none (by linarith) ?_)⟩
            rw [hanchor, hsize]
            linarith [lt_of_le_of_ne hdown hpast]
        exact ⟨s', brick :: bricks, .next hround rest⟩
      · exact exists_bricks_down hbox hdir (by linarith)

theorem exists_bricks_iff (hbox : 0 < s.boxSize) (hrev : 1 ≤ s.reversalCount) :
    (∃ s' bricks, Bricks point s s' bricks) ↔ ¬ s.Stuck point := by
  constructor
  · rintro ⟨s', bricks, hbricks⟩ hstuck
    exact hstuck.not_bricks hbox hbricks
  · intro h
    rcases Nat.eq_or_lt_of_le hrev with hone | htwo
    · exact exists_bricks_of_not_stuck hbox hone.symm h
    · exact exists_bricks hbox htwo

end Loop

/-! ## Reachable states -/

section Reachable

variable {b r : ℕ} {ks : KlineDeltaState} {s s' : TradeToRenkoBarDerived} {point : TradePoint}

/-- What holds in every reachable state: the parameters of the key, and an anchor whenever there
    is a last brick. -/
structure Sound (b r : ℕ) (s : TradeToRenkoBarDerived) : Prop where
  boxSize_eq : s.boxSize = (newForKey b r).boxSize
  reversalCount_eq : s.reversalCount = (newForKey b r).reversalCount
  seeded : s.lastDir ≠ none → s.seeded = true

theorem Sound.bricks {bricks : List RenkoBrickPoint} (hseeded : s.seeded = true)
    (h : Sound b r s) (hbricks : Bricks point s s' bricks) : Sound b r s' := by
  induction hbricks with
  | done => exact h
  | next hround rest ih =>
    obtain ⟨hbox, hrev, hseed⟩ := round_params hround
    refine ih (hseed.trans hseeded) ⟨hbox.trans h.boxSize_eq, hrev.trans h.reversalCount_eq, ?_⟩
    exact fun _ => hseed.trans hseeded

theorem Sound.foldTrade {fuel : ℕ} {o : Option RenkoBrickPoint} (h : Sound b r s)
    (hfold : s.foldTrade fuel point = some (s', o)) : Sound b r s' := by
  obtain ⟨bricks, hbricks, -⟩ := (brickLoop_eq_some_iff none o).mp ⟨fuel, hfold⟩
  exact Sound.bricks (s := s.accept point) rfl
    ⟨h.boxSize_eq, h.reversalCount_eq, fun _ => rfl⟩ hbricks

theorem Reachable.sound (h : Reachable b r ks s) : Sound b r s := by
  induction h with
  | new => exact ⟨rfl, rfl, fun h => absurd rfl h⟩
  | preset => exact ⟨rfl, rfl, fun _ => rfl⟩
  | baseline _ _ _ _ ih => exact ih
  | @event ks ks' s s' _ fuel ev o call ih =>
    rw [onUpstreamEvent] at call
    split at call
    · cases call
      exact ih
    · split at call
      · rename_i point hev
        obtain ⟨⟨s₁, o₁⟩, hfold, heq⟩ := Option.map_eq_some_iff.mp call
        cases heq
        exact ih.foldTrade hfold
      · cases call
        exact ih

/-- **Main theorem.** The loop ends unless it is stuck. -/
theorem terminates_iff (hb : 0 < b) (h : Reachable b r ks s) (point : TradePoint) :
    (∃ fuel result, s.foldTrade fuel point = some result) ↔ ¬ s.Stuck point := by
  have hsound := h.sound
  have hbox : 0 < (s.accept point).boxSize := by
    show 0 < s.boxSize
    rw [hsound.boxSize_eq, newForKey, if_pos hb]
    positivity
  have hrev : 1 ≤ (s.accept point).reversalCount := by
    show 1 ≤ s.reversalCount
    rw [hsound.reversalCount_eq]
    simp [newForKey, hb]
  have hstuck : (s.accept point).Stuck point ↔ s.Stuck point := by
    by_cases hseeded : s.seeded = true
    · simp only [Stuck, accept, hseeded, if_true]
    · have hnone : s.lastDir = none := by
        by_contra hne
        exact hseeded (hsound.seeded hne)
      simp only [Stuck, accept, hnone, reduceCtorEq, false_and, or_false]
  rw [← hstuck, ← exists_bricks_iff hbox hrev]
  constructor
  · rintro ⟨fuel, ⟨s', o⟩, hfold⟩
    obtain ⟨bricks, hbricks, -⟩ := (brickLoop_eq_some_iff none o).mp ⟨fuel, hfold⟩
    exact ⟨s', bricks, hbricks⟩
  · rintro ⟨s', bricks, hbricks⟩
    obtain ⟨fuel, hfold⟩ := (brickLoop_eq_some_iff none _).mpr ⟨bricks, hbricks, rfl⟩
    exact ⟨fuel, _, hfold⟩

/-- The first trade of a stream that reverses after one brick. -/
theorem terminates_first_trade :
    ∃ fuel result, (newForKey 100000000 1).foldTrade fuel (buyAt 1 10 1) = some result :=
  (terminates_iff (by decide) Reachable.new (buyAt 1 10 1)).mpr (by decide)

/-- Trades at 10 and 11 complete an up brick; a trade at 10 then reverses for ever. -/
theorem not_always_terminates :
    ¬ ∀ (b r : ℕ) (ks : KlineDeltaState) (s : TradeToRenkoBarDerived), 0 < b →
      Reachable b r ks s → ∀ point, ∃ fuel result, s.foldTrade fuel point = some result := by
  intro h
  have hfirst : onUpstreamEvent 2 KlineDeltaState.new (newForKey 100000000 1)
      (.trade .binance "BTCUSDT" (buyAt 1 10 1)) =
        some ((KlineDeltaState.new,
          ⟨1, 1, 10, none, 1, 1, 0, true⟩), none) := by decide +kernel
  have hsecond : onUpstreamEvent 2 KlineDeltaState.new ⟨1, 1, 10, none, 1, 1, 0, true⟩
      (.trade .binance "BTCUSDT" (buyAt 2 11 1)) =
        some ((KlineDeltaState.new, ⟨1, 1, 11, some true, 0, 0, 2, true⟩),
          some ⟨2, 10, 11, true, 2, 2⟩) := by decide +kernel
  obtain ⟨fuel, ⟨s', o⟩, hfold⟩ := h 100000000 1 _ _ (by decide)
    ((Reachable.new.event hfirst).event hsecond) (buyAt 3 10 1)
  obtain ⟨bricks, hbricks, -⟩ := (brickLoop_eq_some_iff none o).mp ⟨fuel, hfold⟩
  have hstuck : Stuck (accept ⟨1, 1, 11, some true, 0, 0, 2, true⟩ (buyAt 3 10 1))
      (buyAt 3 10 1) := by decide +kernel
  exact hstuck.not_bricks (by decide) hbricks

end Reachable

end TradeToRenkoBarDerived

end Digdigdig3.Derived
