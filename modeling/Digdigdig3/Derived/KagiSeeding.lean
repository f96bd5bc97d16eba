import Digdigdig3.Derived.Kagi

/-!
# Seeding of Kagi segments

The seed phase of `TradeToKagiBarDerived::fold_trade` (`derived.rs` lines 1371–1401) starts
with `up = true` and lets the anchor follow the highest price only. A fall is measured from
the highest price so far, but a rise too, so a slow rise never seeds the direction.

Results:
* `seedsInTime_iff`: the first move is noticed exactly when, if it is a rise, it is one above
  every earlier price.
* `mirrored_iff`: reflected prices give reflected segments exactly when all prices before the
  first move are equal.
* `kagi_seeding_iff`: both together.
-/

namespace Digdigdig3.Derived

/-- The trade at the reflected price. -/
def TradePoint.reflect (c : ℚ) (point : TradePoint) : TradePoint :=
  { point with price := c - point.price }

/-- The segment with the direction flipped and the prices reflected. -/
def KagiSegmentPoint.mirror (c : ℚ) (segment : KagiSegmentPoint) : KagiSegmentPoint :=
  { segment with startPrice := c - segment.startPrice, endPrice := c - segment.endPrice
                 up := !segment.up }

namespace TradeToKagiBarDerived

/-! ## First moves -/

/-- No two of the prices are `reversal` apart. -/
def Calm (reversal : ℚ) (prices : List ℚ) : Prop :=
  prices.Pairwise fun p x => |x - p| < reversal

/-- `x` is `reversal` above one of the prices (`up`), or below one. -/
def MovedBy (reversal : ℚ) (up : Bool) (prices : List ℚ) (x : ℚ) : Prop :=
  ∃ p ∈ prices, if up then p + reversal ≤ x else x + reversal ≤ p

/-- The trade is the first at which the price has moved `reversal`, in the direction `up`, away
    from an earlier one. -/
structure FirstMove (reversal : ℚ) (trades pre : List TradePoint) (point : TradePoint)
    (up : Bool) : Prop where
  split : pre ++ [point] <+: trades
  calm : Calm reversal (pre.map (·.price))
  moved : MovedBy reversal up (pre.map (·.price)) point.price

/-- The direction is seeded when the first move is there, and it is the one of the move. -/
def SeedsInTime (r : ℕ) (trades : List TradePoint) : Prop :=
  ∀ pre point up, FirstMove (r / 10 ^ 8) trades pre point up →
    ((Mealy.mk foldTrade).final (newForKey r) (pre ++ [point])).seeded = true ∧
      ((Mealy.mk foldTrade).final (newForKey r) (pre ++ [point])).up = up

/-- The reflected trades are answered with the reflected segments, trade by trade. -/
def Mirrored (r : ℕ) (c : ℚ) (trades : List TradePoint) : Prop :=
  (Mealy.mk foldTrade).replies (newForKey r) (trades.map (·.reflect c)) =
    ((Mealy.mk foldTrade).replies (newForKey r) trades).map (Option.map (·.mirror c))

/-- A first move that is a rise is one above every earlier price. -/
def RisesAboveAll (reversal : ℚ) (trades : List TradePoint) : Prop :=
  ∀ pre point, FirstMove reversal trades pre point true →
    ∀ p ∈ pre, p.price + reversal ≤ point.price

/-- All prices before the first move are equal. -/
def FlatBeforeMove (reversal : ℚ) (trades : List TradePoint) : Prop :=
  ∀ pre point up, FirstMove reversal trades pre point up →
    ∀ p ∈ pre, ∀ q ∈ pre, p.price = q.price

section Calm

variable {reversal c x : ℚ} {prices pre post : List ℚ} {trades : List TradePoint} {up : Bool}

theorem Calm.not_seeds (h : Calm reversal (pre ++ x :: post)) : ¬ Seeds reversal up pre x := by
  rintro ⟨hne, hseeds⟩
  have hall := fun p hp => (List.pairwise_append.mp h).2.2 p hp x List.mem_cons_self
  cases up with
  | true =>
    obtain ⟨p, hp⟩ := List.exists_mem_of_ne_nil pre hne
    have := (abs_lt.mp (hall p hp)).2
    linarith [hseeds p hp]
  | false =>
    obtain ⟨p, hp, hle⟩ := hseeds
    have := (abs_lt.mp (hall p hp)).1
    linarith

theorem Calm.reflect (h : Calm reversal (trades.map (·.price))) (c : ℚ) :
    Calm reversal ((trades.map (·.reflect c)).map (·.price)) := by
  rw [Calm, List.map_map, List.pairwise_map]
  refine (List.pairwise_map.mp h).imp fun {p q} hpq => ?_
  have heq : (q.reflect c).price - (p.reflect c).price = -(q.price - p.price) := by
    simp only [TradePoint.reflect]
    ring
  rw [Function.comp, Function.comp, heq, abs_neg]
  exact hpq

theorem Calm.concat (h : Calm reversal prices) (hx : ∀ up, ¬ MovedBy reversal up prices x) :
    Calm reversal (prices ++ [x]) := by
  refine List.pairwise_append.mpr ⟨h, List.pairwise_singleton _ _, fun p hp y hy => ?_⟩
  rw [List.mem_singleton.mp hy, abs_lt]
  constructor
  · by_contra hle
    exact hx false ⟨p, hp, by simp only [Bool.false_eq_true, if_false]; linarith⟩
  · by_contra hle
    exact hx true ⟨p, hp, by simp only [if_true]; linarith⟩

/-- A path is calm, or has a first move. -/
theorem calm_or_firstMove (reversal : ℚ) (trades : List TradePoint) :
    Calm reversal (trades.map (·.price)) ∨
      ∃ pre point up, FirstMove reversal trades pre point up := by
  induction trades using List.reverseRecOn with
  | nil => exact .inl .nil
  | append_singleton trades point ih =>
    rcases ih with hcalm | ⟨pre, p, up, hmove⟩
    · by_cases hmoved : ∃ up, MovedBy reversal up (trades.map (·.price)) point.price
      · obtain ⟨up, hmoved⟩ := hmoved
        exact .inr ⟨trades, point, up, List.prefix_refl _, hcalm, hmoved⟩
      · refine .inl ?_
        rw [List.map_append]
        exact hcalm.concat fun up hup => hmoved ⟨up, hup⟩
    · exact .inr ⟨pre, p, up, hmove.split.trans (List.prefix_append _ _), hmove.calm, hmove.moved⟩

end Calm

/-! ## The seed phase -/

section Seed

variable {r : ℕ} {trades pre : List TradePoint} {point : TradePoint} {up : Bool} {a c : ℚ}

/-- Before the first move nothing is seeded or emitted, and the anchor is the highest price. -/
theorem searching_of_calm (hr : 0 < r) (hpos : ∀ p ∈ trades, 0 < p.price)
    (hcalm : Calm (r / 10 ^ 8) (trades.map (·.price))) :
    ((Mealy.mk foldTrade).final (newForKey r) trades).seeded = false ∧
      ((Mealy.mk foldTrade).final (newForKey r) trades).up = true ∧
      ((Mealy.mk foldTrade).final (newForKey r) trades).reversal = r / 10 ^ 8 ∧
      (Mealy.mk foldTrade).emitted (newForKey r) trades = [] ∧
      (trades ≠ [] → 0 < ((Mealy.mk foldTrade).final (newForKey r) trades).anchor ∧
        IsExtreme true (trades.map (·.price))
          ((Mealy.mk foldTrade).final (newForKey r) trades).anchor) := by
  have hphase := phase_run hr hpos
  revert hphase
  generalize (Mealy.mk foldTrade).final (newForKey r) trades = s
  generalize (Mealy.mk foldTrade).emitted (newForKey r) trades = segments
  generalize hprices : trades.map (·.price) = prices at hcalm
  intro hphase
  cases hphase with
  | start hrev hseed hup =>
    exact ⟨hseed, hup, hrev, rfl, fun hne => absurd (List.map_eq_nil_iff.mp hprices) hne⟩
  | searching hrev hseed hup hanchor hext => exact ⟨hseed, hup, hrev, rfl, fun _ => ⟨hanchor, hext⟩⟩
  | swing _ _ _ hx => exact absurd hx hcalm.not_seeds
  | second hswing =>
    obtain ⟨_, _, _, _, rfl, -, hx, -⟩ := hswing
    exact absurd hx hcalm.not_seeds

/-- After calm trades, a trade seeds the direction exactly when it is a move from the highest
    price, and the segment starts there. -/
theorem foldTrade_of_calm (hr : 0 < r) (hpos : ∀ p ∈ pre, 0 < p.price)
    (hcalm : Calm (r / 10 ^ 8) (pre.map (·.price))) (hne : pre ≠ []) (point : TradePoint) :
    ∃ m, IsExtreme true (pre.map (·.price)) m ∧
      ((r / 10 ^ 8 : ℚ) ≤ |point.price - m| →
        ((Mealy.mk foldTrade).final (newForKey r) (pre ++ [point])).seeded = true ∧
        ((Mealy.mk foldTrade).final (newForKey r) (pre ++ [point])).up = decide (m < point.price) ∧
        ∃ seg, (((Mealy.mk foldTrade).final (newForKey r) pre).foldTrade point).2 = some seg ∧
          seg.startPrice = m) ∧
      (|point.price - m| < r / 10 ^ 8 →
        ((Mealy.mk foldTrade).final (newForKey r) (pre ++ [point])).seeded = false ∧
        (((Mealy.mk foldTrade).final (newForKey r) pre).foldTrade point).2 = none) := by
  obtain ⟨hseed, hup, hrev, -, hanchor⟩ := searching_of_calm hr hpos hcalm
  obtain ⟨hapos, hext⟩ := hanchor hne
  rw [Mealy.final_concat]
  revert hseed hup hrev hapos hext
  generalize (Mealy.mk foldTrade).final (newForKey r) pre = s
  intro hseed hup hrev hapos hext
  have hfold : s.foldTrade point = s.foldSeed point := if_neg (by simp [hseed])
  refine ⟨s.anchor, hext, fun hmove => ?_, fun hmove => ?_⟩
  · rw [← hrev] at hmove
    obtain ⟨s', seg, hstep, -, hseed', hup', -, -, hstart, -⟩ := foldSeed_of_move hapos.ne' hmove
    show (s.foldTrade point).1.seeded = true ∧ (s.foldTrade point).1.up = _ ∧ _
    rw [hfold, hstep]
    exact ⟨hseed', hup', seg, rfl, hstart⟩
  · rw [← hrev] at hmove
    show (s.foldTrade point).1.seeded = false ∧ _
    rw [hfold, foldSeed_of_track hapos.ne' hmove hup]
    exact ⟨hseed, rfl⟩

theorem FirstMove.ne_nil (h : FirstMove (r / 10 ^ 8) trades pre point up) : pre ≠ [] := by
  rintro rfl
  obtain ⟨p, hp, -⟩ := h.moved
  simp at hp

theorem FirstMove.pos (h : FirstMove (r / 10 ^ 8) trades pre point up)
    (hpos : ∀ p ∈ trades, 0 < p.price) : ∀ p ∈ pre, 0 < p.price :=
  fun p hp => hpos p (h.split.subset (List.mem_append_left _ hp))

/-- The first move is noticed exactly when, if it is a rise, it is one above every earlier
    price. -/
theorem seedsInTime_iff (hr : 0 < r) (hpos : ∀ p ∈ trades, 0 < p.price) :
    SeedsInTime r trades ↔ RisesAboveAll (r / 10 ^ 8) trades := by
  have hq : (0 : ℚ) < r / 10 ^ 8 := by positivity
  constructor
  · intro h pre point hmove p hp
    obtain ⟨m, ⟨-, hmax⟩, hseeds, htrack⟩ :=
      foldTrade_of_calm hr (hmove.pos hpos) hmove.calm hmove.ne_nil point
    obtain ⟨hseeded, hup⟩ := h pre point true hmove
    have hle : p.price ≤ m := by simpa using hmax p.price (List.mem_map_of_mem hp)
    rcases le_or_gt (r / 10 ^ 8 : ℚ) |point.price - m| with hfar | hnear
    · obtain ⟨-, hup', -⟩ := hseeds hfar
      have hlt : m < point.price := by simpa using hup'.symm.trans hup
      rw [abs_of_pos (by linarith)] at hfar
      linarith
    · rw [(htrack hnear).1] at hseeded
      exact absurd hseeded (by simp)
  · intro h pre point up hmove
    obtain ⟨m, ⟨hmem, hmax⟩, hseeds, -⟩ :=
      foldTrade_of_calm hr (hmove.pos hpos) hmove.calm hmove.ne_nil point
    cases up with
    | true =>
      obtain ⟨p, hp, rfl⟩ := List.mem_map.mp hmem
      have hrise := h pre point hmove p hp
      obtain ⟨hseeded, hup, -⟩ := hseeds (by rw [abs_of_pos (by linarith)]; linarith)
      exact ⟨hseeded, hup.trans (decide_eq_true (by linarith))⟩
    | false =>
      obtain ⟨p, hp, hfall⟩ := hmove.moved
      simp only [Bool.false_eq_true, if_false] at hfall
      have hle : p ≤ m := by simpa using hmax p hp
      obtain ⟨hseeded, hup, -⟩ := hseeds (by rw [abs_of_neg (by linarith)]; linarith)
      exact ⟨hseeded, hup.trans (decide_eq_false (by linarith))⟩

end Seed

/-! ## The active phase -/

/-- Seeded states that mirror each other. -/
structure Reflects (c : ℚ) (s t : TradeToKagiBarDerived) : Prop where
  seeded : s.seeded = true ∧ t.seeded = true
  reversal : t.reversal = s.reversal
  up : t.up = !s.up
  anchor : t.anchor = c - s.anchor
  shoulder : ∀ q : ℚ, ((c - q : ℚ) : WithTop ℚ) < t.lastWaist ↔ s.lastShoulder < q
  waist : ∀ q : ℚ, t.lastShoulder < ((c - q : ℚ) : WithBot ℚ) ↔ (q : WithTop ℚ) < s.lastWaist
  time : t.lastEmittedOpenTime = s.lastEmittedOpenTime

section Reflect

variable {c a : ℚ} {s t : TradeToKagiBarDerived} {r : ℕ} {trades pre : List TradePoint}

/-- **Step lemma.** Seeded states that mirror each other answer reflected trades alike. -/
theorem Reflects.step (h : Reflects c s t) (point : TradePoint) :
    Reflects c (s.foldTrade point).1 (t.foldTrade (point.reflect c)).1 ∧
      (t.foldTrade (point.reflect c)).2 = (s.foldTrade point).2.map (·.mirror c) := by
  obtain ⟨⟨hs, ht⟩, hrev, hup, hanchor, hshoulder, hwaist, htime⟩ := h
  rw [foldTrade, if_pos hs, foldTrade, if_pos ht]
  cases hdir : s.up with
  | true =>
    rw [hdir] at hup
    simp only [foldActive, hdir, hup, hrev, hanchor, htime, TradePoint.reflect, Bool.not_true,
      true_and, false_and, if_false, if_true, not_true_eq_false, not_false_eq_true,
      Bool.false_eq_true, sub_lt_sub_iff_left, sub_sub_sub_cancel_left]
    by_cases hlt : s.anchor < point.price
    · simp only [hlt, if_true]
      exact ⟨⟨⟨hs, ht⟩, rfl, rfl, rfl, hshoulder, hwaist, rfl⟩, rfl⟩
    · by_cases hback : s.anchor - point.price < s.reversal
      · simp only [hlt, hback, if_true, if_false]
        exact ⟨⟨⟨hs, ht⟩, hrev, by simp [hup, hdir], hanchor, hshoulder, hwaist, htime⟩, rfl⟩
      · simp only [hlt, hback, if_false]
        refine ⟨⟨⟨hs, ht⟩, rfl, rfl, rfl, fun q => ?_, hwaist, rfl⟩, ?_⟩
        · simp only [lt_min_iff, max_lt_iff, hshoulder, WithTop.coe_lt_coe, WithBot.coe_lt_coe,
            sub_lt_sub_iff_left]
        · simp only [Option.map_some, KagiSegmentPoint.mirror, hshoulder, Bool.not_true,
            Option.some.injEq, KagiSegmentPoint.mk.injEq, true_and, and_true]
          ring
  | false =>
    rw [hdir] at hup
    simp only [foldActive, hdir, hup, hrev, hanchor, htime, TradePoint.reflect, Bool.not_false,
      true_and, false_and, if_false, if_true, not_true_eq_false, not_false_eq_true,
      Bool.false_eq_true, sub_lt_sub_iff_left, sub_sub_sub_cancel_left]
    by_cases hlt : point.price < s.anchor
    · simp only [hlt, if_true]
      exact ⟨⟨⟨hs, ht⟩, rfl, rfl, rfl, hshoulder, hwaist, rfl⟩, rfl⟩
    · by_cases hback : point.price - s.anchor < s.reversal
      · simp only [hlt, hback, if_true, if_false]
        exact ⟨⟨⟨hs, ht⟩, hrev, by simp [hup, hdir], hanchor, hshoulder, hwaist, htime⟩, rfl⟩
      · simp only [hlt, hback, if_false]
        refine ⟨⟨⟨hs, ht⟩, rfl, rfl, rfl, hshoulder, fun q => ?_, rfl⟩, ?_⟩
        · simp only [max_lt_iff, lt_min_iff, hwaist, WithTop.coe_lt_coe, WithBot.coe_lt_coe,
            sub_lt_sub_iff_left]
        · simp only [Option.map_some, KagiSegmentPoint.mirror, hwaist, Bool.not_false,
            Option.some.injEq, KagiSegmentPoint.mk.injEq, true_and, and_true]
          ring

/-- The state after trades at one price. -/
def flat (r : ℕ) (a : ℚ) : TradeToKagiBarDerived := { newForKey r with anchor := a }

theorem foldTrade_flat (hr : 0 < r) (ha : a ≠ 0) {point : TradePoint} (h : point.price = a) :
    (flat r a).foldTrade point = (flat r a, none) := by
  have hq : (0 : ℚ) < r / 10 ^ 8 := by positivity
  have htrack : (flat r a).foldSeed point =
      ({ flat r a with anchor := max (flat r a).anchor point.price }, none) :=
    foldSeed_of_track ha (by rw [h]; simp [flat, newForKey, hr]) rfl
  rw [foldTrade, if_neg (by simp [flat, newForKey]), htrack, h]
  simp [flat]

theorem final_flat (hr : 0 < r) (ha : a ≠ 0) (hflat : ∀ p ∈ pre, p.price = a) :
    (Mealy.mk foldTrade).final (flat r a) pre = flat r a := by
  induction pre with
  | nil => rfl
  | cons p pre ih =>
    have hstep : (Mealy.mk foldTrade).step (flat r a) p = (flat r a, none) :=
      foldTrade_flat hr ha (hflat p List.mem_cons_self)
    rw [Mealy.final_cons, hstep]
    exact ih fun q hq => hflat q (List.mem_cons_of_mem p hq)

theorem final_of_flat (hr : 0 < r) (ha : a ≠ 0) (hne : pre ≠ [])
    (hflat : ∀ p ∈ pre, p.price = a) :
    (Mealy.mk foldTrade).final (newForKey r) pre = flat r a := by
  obtain ⟨p, pre, rfl⟩ := List.exists_cons_of_ne_nil hne
  have hstep : (Mealy.mk foldTrade).step (newForKey r) p = (flat r a, none) := by
    show (newForKey r).foldTrade p = _
    have hzero : (newForKey r).anchor = 0 := rfl
    rw [foldTrade, if_neg (by simp [newForKey]), foldSeed, if_pos hzero,
      hflat p List.mem_cons_self]
    rfl
  rw [Mealy.final_cons, hstep]
  exact final_flat hr ha fun q hq => hflat q (List.mem_cons_of_mem p hq)

/-- A move from a flat start seeds states that mirror each other. -/
theorem reflects_of_flat (ha : a ≠ 0) (hca : c - a ≠ 0) (hr : 0 < r) {point : TradePoint}
    (hmove : (r / 10 ^ 8 : ℚ) ≤ |point.price - a|) :
    Reflects c ((flat r a).foldTrade point).1 ((flat r (c - a)).foldTrade (point.reflect c)).1 ∧
      ((flat r (c - a)).foldTrade (point.reflect c)).2 =
        ((flat r a).foldTrade point).2.map (·.mirror c) := by
  have hq : (0 : ℚ) < r / 10 ^ 8 := by positivity
  have hne : point.price ≠ a := by
    rintro rfl
    rw [sub_self, abs_zero] at hmove
    linarith
  have hmove' : (r / 10 ^ 8 : ℚ) ≤ |c - point.price - (c - a)| := by
    rwa [sub_sub_sub_cancel_left, abs_sub_comm]
  simp only [foldTrade, foldSeed, flat, newForKey, hr, ha, hca, TradePoint.reflect, hmove, hmove',
    Bool.false_eq_true, if_false, if_true, sub_lt_sub_iff_left]
  by_cases hup : a < point.price
  · have hdown : ¬ point.price < a := hup.le.not_gt
    simp only [hup, hdown, decide_true, decide_false, if_true, Bool.false_eq_true, if_false]
    refine ⟨⟨⟨rfl, rfl⟩, rfl, rfl, rfl, fun q => ?_, fun q => ?_, rfl⟩, rfl⟩
    · exact iff_of_true (WithTop.coe_lt_top _) (WithBot.bot_lt_coe _)
    · simp only [WithBot.coe_lt_coe, WithTop.coe_lt_coe, sub_lt_sub_iff_left]
  · have hdown : point.price < a := lt_of_le_of_ne (not_lt.mp hup) hne
    simp only [hup, hdown, decide_true, decide_false, if_true, Bool.false_eq_true, if_false]
    refine ⟨⟨⟨rfl, rfl⟩, rfl, rfl, rfl, fun q => ?_, fun q => ?_, rfl⟩, rfl⟩
    · simp only [WithBot.coe_lt_coe, WithTop.coe_lt_coe, sub_lt_sub_iff_left]
    · exact iff_of_true (WithBot.bot_lt_coe _) (WithTop.coe_lt_top _)

/-- Calm trades and their reflections are not answered. -/
theorem replies_of_calm (hr : 0 < r) (hpos : ∀ p ∈ pre, 0 < p.price)
    (hlt : ∀ p ∈ pre, p.price < c) (hcalm : Calm (r / 10 ^ 8) (pre.map (·.price))) :
    Mirrored r c pre := by
  have hpos' : ∀ p ∈ pre.map (·.reflect c), 0 < p.price := by
    intro p hp
    obtain ⟨q, hq, rfl⟩ := List.mem_map.mp hp
    exact sub_pos.mpr (hlt q hq)
  obtain ⟨-, -, -, hnil, -⟩ := searching_of_calm hr hpos hcalm
  obtain ⟨-, -, -, hnil', -⟩ := searching_of_calm hr hpos' (hcalm.reflect c)
  have hnone := Mealy.eq_none_of_emitted_eq_nil _ hnil
  have hnone' := Mealy.eq_none_of_emitted_eq_nil _ hnil'
  rw [Mirrored, List.eq_replicate_of_mem hnone', List.eq_replicate_of_mem hnone,
    Mealy.length_replies, Mealy.length_replies, List.map_replicate, List.length_map]
  rfl

/-- Mirrored runs are mirrored up to the first move and in the answer to it. -/
theorem Mirrored.split {post : List TradePoint} {point : TradePoint}
    (h : Mirrored r c (pre ++ point :: post)) :
    (((Mealy.mk foldTrade).final (newForKey r) (pre.map (·.reflect c))).foldTrade
        (point.reflect c)).2 =
      (((Mealy.mk foldTrade).final (newForKey r) pre).foldTrade point).2.map (·.mirror c) := by
  rw [Mirrored, List.map_append, Mealy.replies_append, Mealy.replies_append, List.map_append] at h
  have hlen : ((Mealy.mk foldTrade).replies (newForKey r) (pre.map (·.reflect c))).length =
      (((Mealy.mk foldTrade).replies (newForKey r) pre).map (Option.map (·.mirror c))).length := by
    simp [Mealy.length_replies]
  exact (List.cons.inj (List.append_inj h hlen).2).1

/-- Mirrored answers to the first move need a flat start: one run measures the move from the
    highest price, the other one from the lowest. -/
theorem flat_of_mirrored (hr : 0 < r) (hpos : ∀ p ∈ trades, 0 < p.price)
    (hlt : ∀ p ∈ trades, p.price < c) (h : Mirrored r c trades) :
    FlatBeforeMove (r / 10 ^ 8) trades := by
  intro pre point up hmove p hp q hq
  obtain ⟨post, rfl⟩ := hmove.split
  rw [List.append_assoc, List.singleton_append] at h
  have hreply := h.split
  have hpos' : ∀ p ∈ pre.map (·.reflect c), 0 < p.price := by
    intro p hp
    obtain ⟨q, hq, rfl⟩ := List.mem_map.mp hp
    exact sub_pos.mpr (hlt q (by simp [hq]))
  obtain ⟨hi, ⟨-, hmax⟩, hseeds, htrack⟩ :=
    foldTrade_of_calm hr (hmove.pos hpos) hmove.calm hmove.ne_nil point
  obtain ⟨lo, ⟨-, hmin⟩, hseeds', htrack'⟩ := foldTrade_of_calm hr hpos'
    (hmove.calm.reflect c) (by simpa using hmove.ne_nil) (point.reflect c)
  have hle : ∀ p ∈ pre, p.price ≤ hi := fun p hp => by
    simpa using hmax p.price (List.mem_map_of_mem hp)
  have hge : ∀ p ∈ pre, c - lo ≤ p.price := fun p hp => by
    have := hmin (p.reflect c).price (List.mem_map_of_mem (List.mem_map_of_mem hp))
    simp only [if_true, TradePoint.reflect] at this
    linarith
  -- both runs answer the move, each with a segment from its own extreme
  have hsame : hi = c - lo := by
    have hboth : ∀ seg seg' : KagiSegmentPoint, seg.startPrice = hi → seg'.startPrice = lo →
        some seg' = (some seg).map (·.mirror c) → hi = c - lo := by
      intro seg seg' hstart hstart' heq
      have hmirror := Option.some.inj heq
      rw [← hstart, ← hstart', hmirror]
      simp [KagiSegmentPoint.mirror]
    have hanswered : ((r / 10 ^ 8 : ℚ) ≤ |point.price - hi|) ∧
        (r / 10 ^ 8 : ℚ) ≤ |(point.reflect c).price - lo| := by
      rcases le_or_gt (r / 10 ^ 8 : ℚ) |point.price - hi| with hfar | hnear
      · refine ⟨hfar, ?_⟩
        obtain ⟨-, -, seg, hseg, -⟩ := hseeds hfar
        by_contra hnear
        rw [(htrack' (not_le.mp hnear)).2, hseg] at hreply
        simp at hreply
      · exfalso
        have hnear' : |(point.reflect c).price - lo| < r / 10 ^ 8 := by
          by_contra hfar
          obtain ⟨-, -, seg, hseg, -⟩ := hseeds' (not_lt.mp hfar)
          rw [(htrack hnear).2, hseg] at hreply
          simp at hreply
        obtain ⟨p, hp, hmoved⟩ := hmove.moved
        obtain ⟨q, hq, rfl⟩ := List.mem_map.mp hp
        have h₁ := hle q hq
        have h₂ := hge q hq
        simp only [TradePoint.reflect] at hnear'
        obtain ⟨hn₁, hn₂⟩ := abs_lt.mp hnear
        obtain ⟨hn₃, hn₄⟩ := abs_lt.mp hnear'
        cases up with
        | true =>
          simp only [if_true] at hmoved
          linarith
        | false =>
          simp only [Bool.false_eq_true, if_false] at hmoved
          linarith
    obtain ⟨-, -, seg, hseg, hstart⟩ := hseeds hanswered.1
    obtain ⟨-, -, seg', hseg', hstart'⟩ := hseeds' hanswered.2
    rw [hseg, hseg'] at hreply
    exact hboth seg seg' hstart hstart' hreply
  have h₁ := hle p hp
  have h₂ := hge p hp
  have h₃ := hle q hq
  have h₄ := hge q hq
  linarith

/-- A flat start is enough: the seeded states mirror each other from the first move on. -/
theorem mirrored_of_flat (hr : 0 < r) (hpos : ∀ p ∈ trades, 0 < p.price)
    (hlt : ∀ p ∈ trades, p.price < c) (h : FlatBeforeMove (r / 10 ^ 8) trades) :
    Mirrored r c trades := by
  rcases calm_or_firstMove (r / 10 ^ 8) trades with hcalm | ⟨pre, point, up, hmove⟩
  · exact replies_of_calm hr hpos hlt hcalm
  · obtain ⟨first, rest, hfirst⟩ := List.exists_cons_of_ne_nil hmove.ne_nil
    have hmem : first ∈ pre := by rw [hfirst]; exact List.mem_cons_self
    have hflat : ∀ p ∈ pre, p.price = first.price := fun p hp => h pre point up hmove p hp _ hmem
    have ha := (hmove.pos hpos first hmem).ne'
    obtain ⟨post, rfl⟩ := hmove.split
    have hca : c - first.price ≠ 0 := by
      have := hlt first (by simp [hmem])
      linarith [sub_pos.mpr this]
    have hfinal := final_of_flat hr ha hmove.ne_nil hflat
    have hfinal' : (Mealy.mk foldTrade).final (newForKey r) (pre.map (·.reflect c)) =
        flat r (c - first.price) := by
      refine final_of_flat hr hca (by simpa using hmove.ne_nil) fun p hp => ?_
      obtain ⟨q, hq, rfl⟩ := List.mem_map.mp hp
      rw [TradePoint.reflect, hflat q hq]
    have hfar : (r / 10 ^ 8 : ℚ) ≤ |point.price - first.price| := by
      obtain ⟨p, hp, hmoved⟩ := hmove.moved
      obtain ⟨q, hq, rfl⟩ := List.mem_map.mp hp
      rw [hflat q hq] at hmoved
      cases up with
      | true =>
        simp only [if_true] at hmoved
        exact le_abs.mpr (.inl (by linarith))
      | false =>
        simp only [Bool.false_eq_true, if_false] at hmoved
        exact le_abs.mpr (.inr (by linarith))
    obtain ⟨hreflects, hreply⟩ := reflects_of_flat (c := c) ha hca hr hfar
    have hpre : Mirrored r c pre := replies_of_calm hr (hmove.pos hpos)
      (fun p hp => hlt p (by simp [hp])) hmove.calm
    have hpost := Mealy.replies_map_of_simulation (M := .mk foldTrade) (N := .mk foldTrade)
      (R := Reflects c) (f := (·.reflect c)) (g := (·.mirror c))
      (fun s t i hst => hst.step i) hreflects post
    rw [List.append_assoc, List.singleton_append, Mirrored, List.map_append, List.map_cons,
      Mealy.replies_append, Mealy.replies_append, List.map_append, hpre, hfinal, hfinal']
    congr 1
    rw [Mealy.replies, Mealy.replies, List.map_cons, hpost]
    congr 1

end Reflect

section Main

variable {r : ℕ} {trades : List TradePoint}

/-- Some price lies above all of a list. -/
theorem exists_above (hpos : ∀ p ∈ trades, 0 < p.price) : ∃ c : ℚ, ∀ p ∈ trades, p.price < c := by
  refine ⟨(trades.map (·.price)).sum + 1, fun p hp => ?_⟩
  have hnonneg : ∀ q ∈ trades.map (·.price), (0 : ℚ) ≤ q := by
    intro q hq
    obtain ⟨t, ht, rfl⟩ := List.mem_map.mp hq
    exact (hpos t ht).le
  have := List.single_le_sum hnonneg p.price (List.mem_map_of_mem hp)
  linarith

theorem mirrored_iff (hr : 0 < r) (hpos : ∀ p ∈ trades, 0 < p.price) :
    (∀ c, (∀ p ∈ trades, p.price < c) → Mirrored r c trades) ↔
      FlatBeforeMove (r / 10 ^ 8) trades := by
  constructor
  · intro h
    obtain ⟨c, hc⟩ := exists_above hpos
    exact flat_of_mirrored hr hpos hc (h c hc)
  · exact fun h c hc => mirrored_of_flat hr hpos hc h

/-- A rise from a flat start is one above every earlier price. -/
theorem risesAboveAll_of_flat {reversal : ℚ} (h : FlatBeforeMove reversal trades) :
    RisesAboveAll reversal trades := by
  intro pre point hmove p hp
  obtain ⟨q, hq, hrise⟩ := hmove.moved
  obtain ⟨t, ht, rfl⟩ := List.mem_map.mp hq
  simp only [if_true] at hrise
  rwa [h pre point true hmove p hp t ht]

/-- **Main theorem.** For positive prices the direction is seeded in time and reflected prices
    give reflected segments exactly when all prices before the first move of `reversal` are
    equal. -/
theorem kagi_seeding_iff (hr : 0 < r) (hpos : ∀ p ∈ trades, 0 < p.price) :
    (SeedsInTime r trades ∧ ∀ c, (∀ p ∈ trades, p.price < c) → Mirrored r c trades) ↔
      FlatBeforeMove (r / 10 ^ 8) trades := by
  rw [mirrored_iff hr hpos, seedsInTime_iff hr hpos]
  exact and_iff_right_of_imp risesAboveAll_of_flat

theorem kagi_seeding_iff_two_trades :
    (SeedsInTime 500000000 [buyAt 1 100 1, buyAt 2 110 1] ∧
        ∀ c, (∀ p ∈ [buyAt 1 100 1, buyAt 2 110 1], p.price < c) →
          Mirrored 500000000 c [buyAt 1 100 1, buyAt 2 110 1]) ↔
      FlatBeforeMove ((500000000 : ℕ) / 10 ^ 8) [buyAt 1 100 1, buyAt 2 110 1] :=
  kagi_seeding_iff (by decide) (by
    intro p hp
    rcases List.mem_pair.mp hp with rfl | rfl <;> norm_num [buyAt])

end Main

/-- Reversal `5`: after `100` and `103` the price `106` is a rise of `6`, and nothing is
    seeded. -/
theorem not_seedsInTime_of_slow_rise :
    ¬ SeedsInTime 500000000 [buyAt 1 100 1, buyAt 2 103 1, buyAt 3 106 1] := by
  intro h
  have hmove : FirstMove ((500000000 : ℕ) / 10 ^ 8)
      [buyAt 1 100 1, buyAt 2 103 1, buyAt 3 106 1] [buyAt 1 100 1, buyAt 2 103 1]
      (buyAt 3 106 1) true := by
    refine ⟨⟨[], rfl⟩, ?_, 100, by simp [buyAt], by norm_num [buyAt]⟩
    exact List.pairwise_pair.mpr (by norm_num [buyAt])
  exact absurd (h _ _ _ hmove).1 (by decide +kernel)

end TradeToKagiBarDerived

end Digdigdig3.Derived
