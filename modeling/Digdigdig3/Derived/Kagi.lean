import Digdigdig3.Derived.KlineDelta

/-!
# Kagi segments

`TradeToKagiBarDerived::fold_trade` (`derived.rs` lines 1368–1447) emits a segment when
the first move of `reversal` has seeded the direction, and one each time the price has
come back by `reversal` from the extreme of the current direction. The segment that seeds
the direction is emitted again when that direction ends.

Results:
* `Phase.step`: what the state, the prices so far and the segments so far have to do
  with each other after every trade.
* `length_le_one_iff`: a second segment is emitted exactly when the price turns back after
  the seeding move.
* `kagi_polyline_iff`: the segments form a polyline exactly when there is no second one.
-/

namespace Digdigdig3.Derived

/-- `KagiSegmentPoint` (`data/kagi_segment.rs` lines 21–28). -/
structure KagiSegmentPoint where
  openTime : ℤ
  startPrice : ℚ
  endPrice : ℚ
  up : Bool
  yang : Bool
  isConnector : Bool
  deriving DecidableEq

/-- `TradeToKagiBarDerived` (lines 1305–1321); `kline_state` is kept by
    `klineSufficient`. `lastShoulder` starts at `-∞` and `lastWaist` at `+∞`. -/
structure TradeToKagiBarDerived where
  reversal : ℚ
  anchor : ℚ
  seeded : Bool
  up : Bool
  lastShoulder : WithBot ℚ
  lastWaist : WithTop ℚ
  lastEmittedOpenTime : ℤ

namespace TradeToKagiBarDerived

/-- `new_for_key` for `Kind::KagiBar(r)` (lines 1332–1347). -/
def newForKey (r : ℕ) : TradeToKagiBarDerived :=
  { reversal := if 0 < r then (r : ℚ) / 10 ^ 8 else 0
    anchor := 0, seeded := false, up := true, lastShoulder := ⊥, lastWaist := ⊤,
    lastEmittedOpenTime := 0 }

/-- The seed phase of `fold_trade` (lines 1371–1401). `anchor = 0` means that no trade has
    been seen. -/
def foldSeed (s : TradeToKagiBarDerived) (point : TradePoint) :
    TradeToKagiBarDerived × Option KagiSegmentPoint :=
  if s.anchor = 0 then ({ s with anchor := point.price }, none)
  else if s.reversal ≤ |point.price - s.anchor| then
    let up := decide (s.anchor < point.price)
    let openTime := openTimeAfter point.tsMs s.lastEmittedOpenTime
    ({ s with up := up
              lastWaist := if up then s.anchor else s.lastWaist
              lastShoulder := if up then s.lastShoulder else s.anchor
              seeded := true, lastEmittedOpenTime := openTime, anchor := point.price },
      some { openTime := openTime, startPrice := s.anchor, endPrice := point.price, up := up,
             yang := true, isConnector := false })
  else if s.up ∧ s.anchor < point.price then ({ s with anchor := point.price }, none)
  else if ¬ s.up ∧ point.price < s.anchor then ({ s with anchor := point.price }, none)
  else (s, none)

/-- The active phase of `fold_trade` (lines 1403–1446). -/
def foldActive (s : TradeToKagiBarDerived) (point : TradePoint) :
    TradeToKagiBarDerived × Option KagiSegmentPoint :=
  if s.up ∧ s.anchor < point.price then ({ s with anchor := point.price }, none)
  else if ¬ s.up ∧ point.price < s.anchor then ({ s with anchor := point.price }, none)
  else
    let against := if s.up then s.anchor - point.price else point.price - s.anchor
    if against < s.reversal then (s, none)
    else
      let yang : Bool :=
        if s.up then decide (s.lastShoulder < s.anchor) else decide (s.anchor < s.lastWaist)
      let closeTs := openTimeAfter point.tsMs s.lastEmittedOpenTime
      ({ s with lastShoulder := if s.up then max s.lastShoulder s.anchor else s.lastShoulder
                lastWaist := if s.up then s.lastWaist else min s.lastWaist s.anchor
                lastEmittedOpenTime := closeTs, up := !s.up, anchor := point.price },
        some { openTime := closeTs
               startPrice := if s.up then s.anchor - against - 0 else s.anchor + against - 0
               endPrice := s.anchor, up := s.up, yang := yang, isConnector := false })

/-- `fold_trade` (lines 1368–1447). -/
def foldTrade (s : TradeToKagiBarDerived) (point : TradePoint) :
    TradeToKagiBarDerived × Option KagiSegmentPoint :=
  if s.seeded then s.foldActive point else s.foldSeed point

/-- `on_upstream_event` (lines 1353–1364). -/
def machine : Mealy (KlineDeltaState × TradeToKagiBarDerived) Event KagiSegmentPoint :=
  klineSufficient (fun s => decide (s.reversal = 0)) foldTrade

/-! ## What one trade does -/

section Step

variable {s : TradeToKagiBarDerived} {point : TradePoint}

/-- A move of `reversal` from the anchor seeds the direction and emits a segment. -/
theorem foldSeed_of_move (h₀ : s.anchor ≠ 0) (hmove : s.reversal ≤ |point.price - s.anchor|) :
    ∃ s' seg, s.foldSeed point = (s', some seg) ∧ s'.reversal = s.reversal ∧ s'.seeded = true ∧
      s'.up = decide (s.anchor < point.price) ∧ s'.anchor = point.price ∧ seg.up = s'.up ∧
      seg.startPrice = s.anchor ∧ seg.endPrice = point.price := by
  rw [foldSeed, if_neg h₀, if_pos hmove]
  exact ⟨_, _, rfl, rfl, rfl, rfl, rfl, rfl, rfl, rfl⟩

/-- A smaller move only raises the anchor to the highest price. -/
theorem foldSeed_of_track (h₀ : s.anchor ≠ 0) (hmove : |point.price - s.anchor| < s.reversal)
    (hup : s.up = true) :
    s.foldSeed point = ({ s with anchor := max s.anchor point.price }, none) := by
  rw [foldSeed, if_neg h₀, if_neg (not_le.mpr hmove)]
  by_cases hlt : s.anchor < point.price
  · rw [if_pos ⟨hup, hlt⟩, max_eq_right hlt.le]
  · rw [if_neg (fun h => hlt h.2), if_neg (fun h => h.1 hup), max_eq_left (not_lt.mp hlt)]

/-- Either the price has not come back by `reversal`, and the anchor stays the extreme,
    or the segment is closed in its own direction. -/
theorem foldActive_cases (s : TradeToKagiBarDerived) (point : TradePoint)
    (hr : 0 < s.reversal) :
    (s.foldActive point =
        ({ s with anchor := (if s.up then max s.anchor point.price else min s.anchor point.price) },
          none) ∧
      if s.up then s.anchor < point.price + s.reversal else point.price < s.anchor + s.reversal) ∨
    (∃ s' seg, s.foldActive point = (s', some seg) ∧ seg.up = s.up ∧
      if s.up then point.price + s.reversal ≤ s.anchor
      else s.anchor + s.reversal ≤ point.price) := by
  unfold foldActive
  cases hup : s.up with
  | true =>
    simp only [true_and, not_true_eq_false, false_and, if_false, if_true]
    by_cases hlt : s.anchor < point.price
    · exact Or.inl ⟨by rw [if_pos hlt, max_eq_right hlt.le], by linarith⟩
    · rw [if_neg hlt, max_eq_left (not_lt.mp hlt)]
      by_cases hback : s.anchor - point.price < s.reversal
      · refine Or.inl ⟨?_, by linarith⟩
        rw [if_pos hback]
        cases s
        cases hup
        rfl
      · rw [if_neg hback]
        exact Or.inr ⟨_, _, rfl, rfl, by linarith⟩
  | false =>
    simp only [Bool.false_eq_true, false_and, if_false, not_false_eq_true, true_and]
    by_cases hlt : point.price < s.anchor
    · exact Or.inl ⟨by rw [if_pos hlt, min_eq_right hlt.le], by linarith⟩
    · rw [if_neg hlt, min_eq_left (not_lt.mp hlt)]
      by_cases hback : point.price - s.anchor < s.reversal
      · refine Or.inl ⟨?_, by linarith⟩
        rw [if_pos hback]
        cases s
        cases hup
        rfl
      · rw [if_neg hback]
        exact Or.inr ⟨_, _, rfl, rfl, by linarith⟩

theorem foldTrade_reversal : (s.foldTrade point).1.reversal = s.reversal := by
  simp only [foldTrade, foldActive, foldSeed]
  split_ifs <;> rfl

end Step

/-! ## Polylines -/

/-- `segments` form the vertical segments of one polyline through `prices`. -/
structure IsPolyline (reversal : ℚ) (prices : List ℚ) (segments : List KagiSegmentPoint) :
    Prop where
  chained : segments.IsChain fun a b => b.startPrice = a.endPrice
  alternating : segments.IsChain fun a b => b.up = !a.up
  direction : ∀ s ∈ segments, s.up = decide (s.startPrice < s.endPrice)
  long : ∀ s ∈ segments, reversal ≤ |s.endPrice - s.startPrice|
  turning : segments.IsChain fun a b => ∃ before stretch after,
    prices = before ++ stretch ++ after ∧ stretch.head? = some a.startPrice ∧
      a.endPrice ∈ stretch ∧ stretch.getLast? = some b.endPrice ∧
      ∀ p ∈ stretch, if a.up then p ≤ a.endPrice else a.endPrice ≤ p
  increasing : segments.Pairwise (·.openTime < ·.openTime)

/-! ## Swings of a price path -/

/-- `x` lies `reversal` above every price of `pre` (`up`), or `reversal` below one. -/
def Seeds (reversal : ℚ) (up : Bool) (pre : List ℚ) (x : ℚ) : Prop :=
  pre ≠ [] ∧ if up then ∀ p ∈ pre, p + reversal ≤ x else ∃ p ∈ pre, x + reversal ≤ p

/-- No price of `ps` lies before one of `pre` that it seeds. -/
def Unseeded (reversal : ℚ) (ps : List ℚ) : Prop :=
  ∀ pre x post up, ps = pre ++ x :: post → ¬ Seeds reversal up pre x

/-- Moving `up` (or down), the prices never come back by `reversal`. -/
def Holds (reversal : ℚ) (up : Bool) (ps : List ℚ) : Prop :=
  ps.Pairwise fun u v => if up then u < v + reversal else v < u + reversal

/-- The first seeding move of the path is followed by a move of `reversal` against it. -/
def SecondSwing (reversal : ℚ) (ps : List ℚ) : Prop :=
  ∃ pre x post up, ps = pre ++ x :: post ∧ Unseeded reversal pre ∧ Seeds reversal up pre x ∧
    ¬ Holds reversal up (x :: post)

/-- `a` is the highest (`up`) or lowest of `ps`. -/
def IsExtreme (up : Bool) (ps : List ℚ) (a : ℚ) : Prop :=
  a ∈ ps ∧ ∀ p ∈ ps, if up then p ≤ a else a ≤ p

/-- The state, the prices so far and the segments so far. -/
inductive Phase (reversal : ℚ) :
    List ℚ → TradeToKagiBarDerived → List KagiSegmentPoint → Prop
  | start {s : TradeToKagiBarDerived} (hr : s.reversal = reversal) (hseed : s.seeded = false)
      (hup : s.up = true) (hanchor : s.anchor = 0) : Phase reversal [] s []
  | searching {prices : List ℚ} {s : TradeToKagiBarDerived} (hr : s.reversal = reversal)
      (hseed : s.seeded = false) (hup : s.up = true) (hpos : 0 < s.anchor)
      (hanchor : IsExtreme true prices s.anchor) (hno : Unseeded reversal prices) :
      Phase reversal prices s []
  | swing {pre post : List ℚ} {x : ℚ} {s : TradeToKagiBarDerived} {seg : KagiSegmentPoint}
      (hr : s.reversal = reversal) (hseed : s.seeded = true) (hno : Unseeded reversal pre)
      (hx : Seeds reversal s.up pre x) (hanchor : IsExtreme s.up (x :: post) s.anchor)
      (hholds : Holds reversal s.up (x :: post)) (hup : seg.up = s.up)
      (hdir : seg.up = decide (seg.startPrice < seg.endPrice))
      (hlong : reversal ≤ |seg.endPrice - seg.startPrice|) :
      Phase reversal (pre ++ x :: post) s [seg]
  | second {prices : List ℚ} {s : TradeToKagiBarDerived} {a b : KagiSegmentPoint}
      {rest : List KagiSegmentPoint} (hswing : SecondSwing reversal prices)
      (hab : b.up = a.up) : Phase reversal prices s (a :: b :: rest)

section Phase

variable {reversal : ℚ} {prices pre post : List ℚ} {s : TradeToKagiBarDerived}
  {segments : List KagiSegmentPoint} {x : ℚ} {up : Bool}

theorem SecondSwing.concat (h : SecondSwing reversal prices) (p : ℚ) :
    SecondSwing reversal (prices ++ [p]) := by
  obtain ⟨pre, x, post, up, rfl, hno, hx, hback⟩ := h
  refine ⟨pre, x, post ++ [p], up, by simp, hno, hx, fun hholds => hback ?_⟩
  exact hholds.sublist (by simp)

theorem Unseeded.concat (h : Unseeded reversal prices) {p : ℚ}
    (hp : ∀ up, ¬ Seeds reversal up prices p) : Unseeded reversal (prices ++ [p]) := by
  intro pre x post up hsplit
  rcases List.eq_nil_or_concat post with rfl | ⟨post, y, rfl⟩
  · obtain ⟨rfl, hx⟩ := List.append_inj' hsplit rfl
    cases hx
    exact hp up
  · have hsplit' : prices ++ [p] = (pre ++ x :: post) ++ [y] := by simpa using hsplit
    obtain ⟨hprices, -⟩ := List.append_inj' hsplit' rfl
    exact h pre x post up hprices

/-- A price cannot seed both directions. -/
theorem Seeds.unique {up' : Bool} (hr : 0 < reversal) (h : Seeds reversal up pre x)
    (h' : Seeds reversal up' pre x) : up = up' := by
  obtain ⟨-, h⟩ := h
  obtain ⟨-, h'⟩ := h'
  cases up <;> cases up' <;> simp only [if_true, Bool.false_eq_true, if_false] at h h' ⊢
  · obtain ⟨p, hp, hle⟩ := h
    linarith [h' p hp]
  · obtain ⟨p, hp, hle⟩ := h'
    linarith [h p hp]

/-- The first seeding move of a path is unique. -/
theorem seeds_unique {pre' post' : List ℚ} {x' : ℚ} {up' : Bool} (hr : 0 < reversal)
    (hsplit : pre ++ x :: post = pre' ++ x' :: post') (hno : Unseeded reversal pre)
    (hx : Seeds reversal up pre x) (hno' : Unseeded reversal pre')
    (hx' : Seeds reversal up' pre' x') : x :: post = x' :: post' ∧ up = up' := by
  rcases List.append_eq_append_iff.mp hsplit with ⟨mid, hpre', hmid⟩ | ⟨mid, hpre, hmid⟩
  · rcases mid with _ | ⟨y, mid⟩
    · obtain rfl : pre' = pre := by simpa using hpre'
      obtain ⟨rfl, rfl⟩ : x = x' ∧ post = post' := by simpa using hmid
      exact ⟨rfl, hx.unique hr hx'⟩
    · obtain ⟨rfl, -⟩ : x = y ∧ _ := by simpa using hmid
      exact absurd hx (hno' pre x mid up hpre')
  · rcases mid with _ | ⟨y, mid⟩
    · obtain rfl : pre = pre' := by simpa using hpre
      obtain ⟨rfl, rfl⟩ : x' = x ∧ post' = post := by simpa using hmid
      exact ⟨rfl, hx.unique hr hx'⟩
    · obtain ⟨rfl, -⟩ : x' = y ∧ _ := by simpa using hmid
      exact absurd hx' (hno pre' x' mid up' hpre)

theorem IsExtreme.concat {a p : ℚ} (h : IsExtreme up prices a) :
    IsExtreme up (prices ++ [p]) (if up then max a p else min a p) := by
  obtain ⟨hmem, hle⟩ := h
  cases up <;> simp only [if_true, Bool.false_eq_true, if_false] at hle ⊢
  · refine ⟨?_, fun q hq => ?_⟩
    · rcases min_choice a p with h | h <;> rw [h] <;> simp [hmem]
    · simp only [Bool.false_eq_true, if_false]
      rcases List.mem_append.mp hq with hq | hq
      · exact (min_le_left a p).trans (hle q hq)
      · rw [List.mem_singleton.mp hq]
        exact min_le_right a p
  · refine ⟨?_, fun q hq => ?_⟩
    · rcases max_choice a p with h | h <;> rw [h] <;> simp [hmem]
    · simp only [if_true]
      rcases List.mem_append.mp hq with hq | hq
      · exact (hle q hq).trans (le_max_left a p)
      · rw [List.mem_singleton.mp hq]
        exact le_max_right a p

/-- A move that stays within `reversal` of the highest price seeds nothing. -/
theorem not_seeds {a p : ℚ} (h : IsExtreme true prices a) (hmove : |p - a| < reversal)
    (up : Bool) : ¬ Seeds reversal up prices p := by
  rintro ⟨-, hseeds⟩
  obtain ⟨hmem, hle⟩ := h
  obtain ⟨hlo, hhi⟩ := abs_lt.mp hmove
  cases up <;> simp only [if_true, Bool.false_eq_true, if_false] at hseeds hle
  · obtain ⟨q, hq, hqle⟩ := hseeds
    linarith [hle q hq]
  · linarith [hseeds a hmem]

/-- A move of `reversal` from the highest price seeds its direction. -/
theorem seeds_of_move {a p : ℚ} (h : IsExtreme true prices a) (hmove : reversal ≤ |p - a|) :
    Seeds reversal (decide (a < p)) prices p := by
  obtain ⟨hmem, hle⟩ := h
  refine ⟨List.ne_nil_of_mem hmem, ?_⟩
  by_cases hlt : a < p
  · rw [abs_of_pos (by linarith)] at hmove
    simp only [hlt, decide_true, if_true]
    intro q hq
    have := hle q hq
    simp only [if_true] at this
    linarith
  · rw [abs_of_nonpos (by linarith)] at hmove
    simp only [hlt, decide_false, Bool.false_eq_true, if_false]
    exact ⟨a, hmem, by linarith⟩

/-- A price that stays within `reversal` of the extreme keeps the path holding. -/
theorem Holds.concat {a p : ℚ} (h : Holds reversal up prices) (hext : IsExtreme up prices a)
    (hp : if up then a < p + reversal else p < a + reversal) :
    Holds reversal up (prices ++ [p]) := by
  refine List.pairwise_append.mpr ⟨h, List.pairwise_singleton _ _, fun u hu v hv => ?_⟩
  rw [List.mem_singleton.mp hv]
  have hle := hext.2 u hu
  cases up <;> simp only [if_true, Bool.false_eq_true, if_false] at hle hp ⊢ <;> linarith

/-- A price that is `reversal` away from the extreme is a move against the direction. -/
theorem not_holds_concat {a p : ℚ} (hext : IsExtreme up prices a)
    (hp : if up then p + reversal ≤ a else a + reversal ≤ p) :
    ¬ Holds reversal up (prices ++ [p]) := by
  intro h
  have := (List.pairwise_append.mp h).2.2 a hext.1 p (by simp)
  cases up <;> simp only [if_true, Bool.false_eq_true, if_false] at this hp <;> linarith

/-- Every trade takes the run from one phase to the next. -/
theorem Phase.step (hr : 0 < reversal) (h : Phase reversal prices s segments)
    {point : TradePoint} (hpos : 0 < point.price) :
    Phase reversal (prices ++ [point.price]) (s.foldTrade point).1
      (segments ++ (s.foldTrade point).2.toList) := by
  cases h with
  | start hrev hseed hup hanchor =>
    have hstep : s.foldTrade point = ({ s with anchor := point.price }, none) := by
      rw [foldTrade, if_neg (by simp [hseed]), foldSeed, if_pos hanchor]
    rw [hstep]
    refine Phase.searching hrev hseed hup hpos ⟨by simp, by simp⟩ ?_
    intro pre x post up hsplit hseeds
    have hlen := congrArg List.length hsplit
    have : pre = [] := List.length_eq_zero_iff.mp (by simp at hlen; omega)
    exact hseeds.1 this
  | searching hrev hseed hup hapos hanchor hno =>
    have hfold : s.foldTrade point = s.foldSeed point := if_neg (by simp [hseed])
    rw [hfold]
    by_cases hmove : s.reversal ≤ |point.price - s.anchor|
    · obtain ⟨s', seg, hstep, hr', hseed', hup', hanchor', hsegup, hstart, hend⟩ :=
        foldSeed_of_move hapos.ne' hmove
      rw [hrev] at hmove
      rw [hstep]
      have hdir : seg.up = decide (seg.startPrice < seg.endPrice) := by
        rw [hsegup, hup', hstart, hend]
      have hx : Seeds reversal s'.up prices point.price := by
        rw [hup']
        exact seeds_of_move hanchor hmove
      have hpoint : IsExtreme s'.up [point.price] s'.anchor := by
        rw [hanchor']
        exact ⟨by simp, by simp⟩
      exact Phase.swing (hr'.trans hrev) hseed' hno hx hpoint (List.pairwise_singleton _ _)
        hsegup hdir (by rw [hstart, hend]; exact hmove)
    · have hmove' := not_le.mp hmove
      rw [foldSeed_of_track hapos.ne' hmove' hup]
      rw [hrev] at hmove'
      exact Phase.searching hrev hseed hup (lt_max_of_lt_left hapos) hanchor.concat
        (hno.concat (not_seeds hanchor hmove'))
  | @swing pre post x _ seg hrev hseed hno hx hanchor hholds hup hdir hlong =>
    have hfold : s.foldTrade point = s.foldActive point := if_pos hseed
    have hsplit : pre ++ x :: post ++ [point.price] = pre ++ x :: (post ++ [point.price]) := by
      simp
    rw [hfold, hsplit]
    rcases s.foldActive_cases point (by rw [hrev]; exact hr) with
      ⟨hstep, hback⟩ | ⟨s', seg', hstep, hup', hback⟩
    · rw [hrev] at hback
      rw [hstep]
      exact Phase.swing hrev hseed hno hx hanchor.concat (hholds.concat hanchor hback) hup hdir
        hlong
    · rw [hrev] at hback
      rw [hstep]
      exact Phase.second ⟨pre, x, post ++ [point.price], s.up, rfl, hno, hx,
        not_holds_concat hanchor hback⟩ (hup'.trans hup.symm)
  | second hswing hab => exact Phase.second (hswing.concat point.price) hab

/-- A second segment is emitted exactly when the price turns back after the seeding move. -/
theorem Phase.length_le_one_iff (hr : 0 < reversal) (h : Phase reversal prices s segments) :
    segments.length ≤ 1 ↔ ¬ SecondSwing reversal prices := by
  cases h with
  | start =>
    refine iff_of_true (by simp) ?_
    rintro ⟨pre, x, post, up, hsplit, -⟩
    simp at hsplit
  | searching _ _ _ _ _ hno =>
    refine iff_of_true (by simp) ?_
    rintro ⟨pre, x, post, up, hsplit, -, hx, -⟩
    exact hno pre x post up hsplit hx
  | swing _ _ hno hx _ hholds =>
    refine iff_of_true (by simp) ?_
    rintro ⟨pre', x', post', up', hsplit, hno', hx', hback⟩
    obtain ⟨hpost, rfl⟩ := seeds_unique hr hsplit hno hx hno' hx'
    exact hback (hpost ▸ hholds)
  | second hswing => exact iff_of_false (by simp) (fun h => h hswing)

/-- The segments form a polyline exactly when there is no second one: the second has the
    direction of the first. -/
theorem Phase.isPolyline_iff (h : Phase reversal prices s segments) :
    IsPolyline reversal prices segments ↔ segments.length ≤ 1 := by
  have hnil : ∀ ps, IsPolyline reversal ps [] := fun ps =>
    ⟨.nil, .nil, by simp, by simp, .nil, .nil⟩
  cases h with
  | start => exact iff_of_true (hnil _) (by simp)
  | searching => exact iff_of_true (hnil _) (by simp)
  | @swing _ _ _ _ seg _ _ _ _ _ _ _ hdir hlong =>
    refine iff_of_true ⟨List.isChain_singleton _, List.isChain_singleton _, by simpa using hdir,
      by simpa using hlong, List.isChain_singleton _, List.pairwise_singleton _ _⟩ (by simp)
  | @second _ _ a b _ _ hab =>
    refine iff_of_false (fun hpoly => ?_) (by simp)
    have halt := (List.isChain_cons_cons.mp hpoly.alternating).1
    rw [hab] at halt
    simp at halt

/-- **Run lemma.** Positive prices keep the run in one of the phases. -/
theorem phase_run {r : ℕ} (hr : 0 < r) {trades : List TradePoint}
    (hpos : ∀ p ∈ trades, 0 < p.price) :
    Phase (r / 10 ^ 8) (trades.map (·.price)) ((Mealy.mk foldTrade).final (newForKey r) trades)
      ((Mealy.mk foldTrade).emitted (newForKey r) trades) := by
  have hq : (0 : ℚ) < r / 10 ^ 8 := by positivity
  refine Mealy.run_invariant_of_steps (M := .mk foldTrade)
    (P := fun trades s segments => Phase (r / 10 ^ 8) (trades.map (·.price)) s segments)
    (C := fun _ _ _ point => 0 < point.price)
    (Phase.start (s := newForKey r) (if_pos hr) rfl rfl rfl) ?_ ?_
  · intro pre s segments point hphase hprice
    rw [List.map_append]
    exact hphase.step hq hprice
  · intro pre point hpre
    exact hpos point (hpre.subset (List.mem_append_right _ List.mem_cons_self))

end Phase

/-- **Main theorem.** For positive prices and a positive reversal, the emitted segments
    form one polyline exactly when the price never turns back by `reversal` after the
    first move that seeds the direction. -/
theorem kagi_polyline_iff {r : ℕ} (hr : 0 < r) (exchange : ExchangeId) (symbol : String)
    (trades : List TradePoint) (hpos : ∀ p ∈ trades, 0 < p.price) :
    IsPolyline (r / 10 ^ 8) (trades.map (·.price))
        (machine.emitted (.new, newForKey r) (trades.map (.trade exchange symbol))) ↔
      ¬ SecondSwing (r / 10 ^ 8) (trades.map (·.price)) := by
  have hreversal : (newForKey r).reversal = r / 10 ^ 8 := if_pos hr
  have hq : (0 : ℚ) < r / 10 ^ 8 := by positivity
  have hkeep : ∀ (s : TradeToKagiBarDerived) (point : TradePoint), decide (s.reversal = 0) = false →
      decide ((s.foldTrade point).1.reversal = 0) = false := by
    intro s point hs
    rw [foldTrade_reversal]
    exact hs
  rw [machine, emitted_klineSufficient_trades hkeep _ (by simp [hreversal, hq.ne'])]
  have hphase := phase_run hr hpos
  rw [hphase.isPolyline_iff, hphase.length_le_one_iff hq]

theorem kagi_polyline_iff_two_trades :
    IsPolyline ((500000000 : ℕ) / 10 ^ 8) ([buyAt 1 100 1, buyAt 2 110 1].map (·.price))
        (machine.emitted (.new, newForKey 500000000)
          ([buyAt 1 100 1, buyAt 2 110 1].map (.trade .binance "BTCUSDT"))) ↔
      ¬ SecondSwing ((500000000 : ℕ) / 10 ^ 8) ([buyAt 1 100 1, buyAt 2 110 1].map (·.price)) :=
  kagi_polyline_iff (by decide) .binance "BTCUSDT" [buyAt 1 100 1, buyAt 2 110 1] (by
    intro p hp
    rcases List.mem_pair.mp hp with rfl | rfl <;> norm_num [buyAt])

/-- Prices `100`, `110`, `105` with reversal `5`: the up swing to `110` is emitted twice,
    the second time from `105`. -/
theorem not_polyline_after_reversal :
    ¬ IsPolyline 5 [100, 110, 105]
      (machine.emitted (.new, newForKey 500000000)
        ([buyAt 1 100 1, buyAt 2 110 1, buyAt 3 105 1].map (.trade .binance "BTCUSDT"))) := by
  intro h
  have hout : machine.emitted (.new, newForKey 500000000)
      ([buyAt 1 100 1, buyAt 2 110 1, buyAt 3 105 1].map (.trade .binance "BTCUSDT")) =
      [⟨2, 100, 110, true, true, false⟩, ⟨3, 105, 110, true, true, false⟩] := by decide +kernel
  rw [hout] at h
  have := (List.isChain_cons_cons.mp h.chained).1
  norm_num at this

end TradeToKagiBarDerived

end Digdigdig3.Derived
