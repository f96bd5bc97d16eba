import Digdigdig3.Derived.KlineDelta

/-!
# Renko bricks

`TradeToRenkoBarDerived::fold_trade` (`derived.rs` lines 1016–1085) completes bricks in
a loop and returns the last one it completed. The loop is modelled round by round:
`brickLoop` is the source's loop with a bound on the number of rounds, `Bricks` is the
same loop with every brick it completes recorded.

Results:
* `onUpstreamEvent_trade`: what a trade event does to the stream.
* `brickLoop_eq_some_iff`: the loop returns the last of its bricks.
* `exists_bricks`: with a reversal count of two or more the loop ends.
* `Invariant.round`, `Invariant.accept`: what a round and a trade preserve.
* `renko_sound`: the bricks of a run are contiguous on the grid and conserve volume.
-/

namespace Digdigdig3.Derived

/-- `RenkoBrickPoint` (`data/renko_brick.rs` lines 20–27). -/
structure RenkoBrickPoint where
  openTime : ℤ
  bottom : ℚ
  top : ℚ
  up : Bool
  volume : ℚ
  tradesCount : ℕ
  deriving DecidableEq

/-- `TradeToRenkoBarDerived` (lines 927–955). `boxSize = 0` means disabled, `lastDir` is
    the direction of the last brick. -/
structure TradeToRenkoBarDerived where
  boxSize : ℚ
  reversalCount : ℕ
  anchor : ℚ
  lastDir : Option Bool
  volAcc : ℚ
  tcountAcc : ℕ
  lastEmittedOpenTime : ℤ
  seeded : Bool
  deriving DecidableEq

namespace TradeToRenkoBarDerived

/-- `new_for_key` for `Kind::RenkoBar(b, r)` (lines 979–995). -/
def newForKey (b r : ℕ) : TradeToRenkoBarDerived :=
  { boxSize := if 0 < b then (b : ℚ) / 10 ^ 8 else 0
    reversalCount := if 0 < b then max r 1 else 1
    anchor := 0, lastDir := none, volAcc := 0, tcountAcc := 0, lastEmittedOpenTime := 0,
    seeded := false }

/-- `(price / box_size).floor() * box_size`. -/
def gridFloor (boxSize price : ℚ) : ℚ := ⌊price / boxSize⌋ * boxSize

/-- `fold_trade` up to the loop (lines 1017–1025). -/
def accept (s : TradeToRenkoBarDerived) (point : TradePoint) : TradeToRenkoBarDerived :=
  { s with
    anchor := if s.seeded then s.anchor else gridFloor s.boxSize point.price
    seeded := true
    volAcc := s.volAcc + point.quantity
    tcountAcc := s.tcountAcc + 1 }

/-- One round of the loop (lines 1029–1082): the state after it and the brick it
    completed, or `none` if the loop ends. -/
def round (point : TradePoint) (s : TradeToRenkoBarDerived) :
    Option (TradeToRenkoBarDerived × RenkoBrickPoint) :=
  let upTarget := s.anchor + s.boxSize
  let downTarget := s.anchor - s.boxSize
  if upTarget ≤ point.price then
    if s.lastDir = some false ∧ point.price < s.anchor + s.boxSize * s.reversalCount then none
    else
      let anchor := if s.lastDir = some false then s.anchor + s.boxSize else s.anchor
      let openTime := openTimeAfter point.tsMs s.lastEmittedOpenTime
      some ({ s with lastEmittedOpenTime := openTime, volAcc := 0, tcountAcc := 0,
                     anchor := anchor + s.boxSize, lastDir := some true },
        { openTime := openTime, bottom := anchor, top := anchor + s.boxSize, up := true,
          volume := s.volAcc, tradesCount := s.tcountAcc })
  else if point.price ≤ downTarget then
    if s.lastDir = some true ∧ s.anchor - s.boxSize * s.reversalCount < point.price then none
    else
      let anchor := if s.lastDir = some true then s.anchor - s.boxSize else s.anchor
      let openTime := openTimeAfter point.tsMs s.lastEmittedOpenTime
      some ({ s with lastEmittedOpenTime := openTime, volAcc := 0, tcountAcc := 0,
                     anchor := anchor - s.boxSize, lastDir := some false },
        { openTime := openTime, bottom := anchor - s.boxSize, top := anchor, up := false,
          volume := s.volAcc, tradesCount := s.tcountAcc })
  else none

/-- The loop (lines 1027–1084), `fuel` rounds at most; `none` if it is not done by then.
    `lastEmitted` is overwritten by every brick. -/
def brickLoop (point : TradePoint) :
    ℕ → TradeToRenkoBarDerived → Option RenkoBrickPoint →
      Option (TradeToRenkoBarDerived × Option RenkoBrickPoint)
  | 0, _, _ => none
  | fuel + 1, s, lastEmitted =>
    match s.round point with
    | none => some (s, lastEmitted)
    | some (s, brick) => brickLoop point fuel s (some brick)

/-- `fold_trade` (lines 1016–1085). -/
def foldTrade (fuel : ℕ) (s : TradeToRenkoBarDerived) (point : TradePoint) :
    Option (TradeToRenkoBarDerived × Option RenkoBrickPoint) :=
  brickLoop point fuel (s.accept point) none

/-- `on_upstream_event` (lines 1001–1012). -/
def onUpstreamEvent (fuel : ℕ) (ks : KlineDeltaState) (s : TradeToRenkoBarDerived) (ev : Event) :
    Option ((KlineDeltaState × TradeToRenkoBarDerived) × Option RenkoBrickPoint) :=
  if s.boxSize = 0 then some ((ks, s), none)
  else
    match klineTick ks ev with
    | (ks, some point) => (s.foldTrade fuel point).map fun r => ((ks, r.1), r.2)
    | (ks, none) => some ((ks, s), none)

/-- The loop with the list of the bricks it completes: from state `s` it ends in state
    `s'` after completing `bricks`. -/
inductive Bricks (point : TradePoint) :
    TradeToRenkoBarDerived → TradeToRenkoBarDerived → List RenkoBrickPoint → Prop
  | done {s : TradeToRenkoBarDerived} (h : s.round point = none) : Bricks point s s []
  | next {s s₁ s' : TradeToRenkoBarDerived} {brick : RenkoBrickPoint}
      {bricks : List RenkoBrickPoint} (h : s.round point = some (s₁, brick))
      (rest : Bricks point s₁ s' bricks) : Bricks point s s' (brick :: bricks)

/-- A run over `trades`: the stream is fed one trade after the other and returns
    `returned`; `completed` are the bricks that the loop of `fold_trade` completes in each
    call. The kline adapter stays in the state `ks`. -/
inductive Run (exchange : ExchangeId) (symbol : String) (ks : KlineDeltaState)
    (s₀ : TradeToRenkoBarDerived) : List TradePoint → TradeToRenkoBarDerived →
    List (Option RenkoBrickPoint) → List (List RenkoBrickPoint) → Prop
  | nil : Run exchange symbol ks s₀ [] s₀ [] []
  | trade {trades : List TradePoint} {s s' : TradeToRenkoBarDerived}
      {returned : List (Option RenkoBrickPoint)} {completed : List (List RenkoBrickPoint)}
      {point : TradePoint} {o : Option RenkoBrickPoint} {bricks : List RenkoBrickPoint}
      (run : Run exchange symbol ks s₀ trades s returned completed)
      (call : ∃ fuel, onUpstreamEvent fuel ks s (.trade exchange symbol point) =
        some ((ks, s'), o))
      (loop : Bricks point (s.accept point) s' bricks) :
      Run exchange symbol ks s₀ (trades ++ [point]) s' (returned ++ [o]) (completed ++ [bricks])

/-! ## The loop -/

section Loop

variable {point : TradePoint} {s s' s₁ : TradeToRenkoBarDerived} {brick : RenkoBrickPoint}
  {bricks : List RenkoBrickPoint}

/-- A stream that is not disabled folds the trade of a trade event. -/
theorem onUpstreamEvent_trade (hbox : s.boxSize ≠ 0) (fuel : ℕ) (ks : KlineDeltaState)
    (exchange : ExchangeId) (symbol : String) (o : Option RenkoBrickPoint) :
    onUpstreamEvent fuel ks s (.trade exchange symbol point) = some ((ks, s'), o) ↔
      s.foldTrade fuel point = some (s', o) := by
  unfold onUpstreamEvent klineTick
  rw [if_neg hbox]
  simp only
  cases s.foldTrade fuel point with
  | none => simp
  | some r =>
    obtain ⟨s₁, o₁⟩ := r
    simp

/-- A round completes an up brick or a down brick. -/
theorem round_eq_some (h : s.round point = some (s', brick)) :
    (∃ bottom, bottom = (if s.lastDir = some false then s.anchor + s.boxSize else s.anchor) ∧
        s.anchor + s.boxSize ≤ point.price ∧
        (s.lastDir = some false → s.anchor + s.boxSize * s.reversalCount ≤ point.price) ∧
        brick = ⟨openTimeAfter point.tsMs s.lastEmittedOpenTime, bottom, bottom + s.boxSize, true,
          s.volAcc, s.tcountAcc⟩ ∧
        s' = { s with lastEmittedOpenTime := openTimeAfter point.tsMs s.lastEmittedOpenTime,
                      volAcc := 0, tcountAcc := 0, anchor := bottom + s.boxSize,
                      lastDir := some true }) ∨
    (∃ top, top = (if s.lastDir = some true then s.anchor - s.boxSize else s.anchor) ∧
        point.price ≤ s.anchor - s.boxSize ∧
        (s.lastDir = some true → point.price ≤ s.anchor - s.boxSize * s.reversalCount) ∧
        brick = ⟨openTimeAfter point.tsMs s.lastEmittedOpenTime, top - s.boxSize, top, false,
          s.volAcc, s.tcountAcc⟩ ∧
        s' = { s with lastEmittedOpenTime := openTimeAfter point.tsMs s.lastEmittedOpenTime,
                      volAcc := 0, tcountAcc := 0, anchor := top - s.boxSize,
                      lastDir := some false }) := by
  unfold round at h
  simp only at h
  by_cases hup : s.anchor + s.boxSize ≤ point.price
  · rw [if_pos hup] at h
    by_cases hrev : s.lastDir = some false ∧ point.price < s.anchor + s.boxSize * s.reversalCount
    · rw [if_pos hrev] at h
      cases h
    · rw [if_neg hrev] at h
      cases h
      exact Or.inl ⟨_, rfl, hup, fun hdir => not_lt.mp fun hlt => hrev ⟨hdir, hlt⟩, rfl, rfl⟩
  · rw [if_neg hup] at h
    by_cases hdown : point.price ≤ s.anchor - s.boxSize
    · rw [if_pos hdown] at h
      by_cases hrev : s.lastDir = some true ∧ s.anchor - s.boxSize * s.reversalCount < point.price
      · rw [if_pos hrev] at h
        cases h
      · rw [if_neg hrev] at h
        cases h
        exact Or.inr ⟨_, rfl, hdown, fun hdir => not_lt.mp fun hlt => hrev ⟨hdir, hlt⟩, rfl, rfl⟩
    · rw [if_neg hdown] at h
      cases h

/-- The loop returns the last brick it completes. -/
theorem brickLoop_eq_some_iff (e e' : Option RenkoBrickPoint) :
    (∃ fuel, brickLoop point fuel s e = some (s', e')) ↔
      ∃ bricks, Bricks point s s' bricks ∧ e' = bricks.getLast?.or e := by
  constructor
  · rintro ⟨fuel, h⟩
    induction fuel generalizing s e with
    | zero => cases h
    | succ fuel ih =>
      rw [brickLoop] at h
      cases hround : s.round point with
      | none =>
        rw [hround] at h
        cases h
        exact ⟨[], .done hround, rfl⟩
      | some r =>
        rw [hround] at h
        obtain ⟨bricks, hbricks, rfl⟩ := ih (some r.2) h
        refine ⟨r.2 :: bricks, .next hround hbricks, ?_⟩
        rw [List.getLast?_cons]
        cases bricks.getLast? <;> rfl
  · rintro ⟨bricks, hbricks, rfl⟩
    induction hbricks generalizing e with
    | done h => exact ⟨1, by rw [brickLoop, h]; rfl⟩
    | @next s s₁ s' brick bricks h rest ih =>
      obtain ⟨fuel, hfuel⟩ := ih (some brick)
      refine ⟨fuel + 1, ?_⟩
      rw [brickLoop, h]
      simp only
      rw [hfuel, List.getLast?_cons]
      cases bricks.getLast? <;> rfl

theorem Bricks.functional {s₂ : TradeToRenkoBarDerived} {bricks₂ : List RenkoBrickPoint}
    (h : Bricks point s s' bricks) (h₂ : Bricks point s s₂ bricks₂) :
    s' = s₂ ∧ bricks = bricks₂ := by
  induction h generalizing s₂ bricks₂ with
  | done h =>
    cases h₂ with
    | done => exact ⟨rfl, rfl⟩
    | next h' => rw [h] at h'; cases h'
  | next h rest ih =>
    cases h₂ with
    | done h' => rw [h] at h'; cases h'
    | next h' rest' =>
      rw [h] at h'
      cases h'
      obtain ⟨rfl, rfl⟩ := ih rest'
      exact ⟨rfl, rfl⟩

theorem round_params (h : s.round point = some (s', brick)) :
    s'.boxSize = s.boxSize ∧ s'.reversalCount = s.reversalCount ∧ s'.seeded = s.seeded := by
  rcases round_eq_some h with ⟨_, -, -, -, -, rfl⟩ | ⟨_, -, -, -, -, rfl⟩ <;> exact ⟨rfl, rfl, rfl⟩

/-- With a reversal count of two or more, a round brings the anchor at least one box
    closer to the price and not past it, so the loop ends. -/
theorem exists_bricks (hbox : 0 < s.boxSize) (hrev : 2 ≤ s.reversalCount) :
    ∃ s' bricks, Bricks point s s' bricks := by
  obtain ⟨n, hn⟩ : ∃ n : ℕ, |point.price - s.anchor| < n * s.boxSize := by
    obtain ⟨n, hn⟩ := exists_nat_gt (|point.price - s.anchor| / s.boxSize)
    exact ⟨n, (div_lt_iff₀ hbox).mp hn⟩
  induction n generalizing s with
  | zero => exact absurd hn (by simp)
  | succ n ih =>
    cases hround : s.round point with
    | none => exact ⟨s, [], .done hround⟩
    | some r =>
      obtain ⟨s₁, brick⟩ := r
      obtain ⟨hb, hr, -⟩ := round_params hround
      have hrev' : 2 * s.boxSize ≤ s.boxSize * s.reversalCount := by
        have : (2 : ℚ) ≤ s.reversalCount := by exact_mod_cast hrev
        nlinarith
      have hcloser : |point.price - s₁.anchor| < n * s₁.boxSize := by
        rw [hb]
        push_cast at hn
        obtain ⟨hlo, hhi⟩ := abs_lt.mp hn
        rw [abs_lt]
        rcases round_eq_some hround with ⟨bottom, hbot, hup, hneed, -, rfl⟩ |
          ⟨top, htop, hdown, hneed, -, rfl⟩
        · simp only
          split_ifs at hbot with hdir
          · have := hneed hdir
            subst hbot
            constructor <;> linarith
          · subst hbot
            constructor <;> linarith
        · simp only
          split_ifs at htop with hdir
          · have := hneed hdir
            subst htop
            constructor <;> linarith
          · subst htop
            constructor <;> linarith
      obtain ⟨s', bricks, hrest⟩ := ih (by rw [hb]; exact hbox) (by rw [hr]; exact hrev) hcloser
      exact ⟨s', brick :: bricks, .next hround hrest⟩

end Loop

/-! ## What the bricks of a run satisfy -/

/-- `b` may follow `a`: an up brick starts at the top of the brick before it, a down brick
    at its bottom. In the same direction `b` starts where `a` ended; after a reversal one
    box is skipped, the one of `a`. -/
def Follows (a b : RenkoBrickPoint) : Prop :=
  if b.up then b.bottom = a.top else b.top = a.bottom

/-- `x` lies within the span of the traded prices, extended down to the grid line below
    the first of them. -/
def InSpan (box : ℚ) (trades : List TradePoint) (x : ℚ) : Prop :=
  (∃ p ∈ trades, x ≤ p.price) ∧
    ((∃ p ∈ trades, p.price ≤ x) ∨ ∃ p ∈ trades.head?, gridFloor box p.price ≤ x)

/-- What holds after any number of rounds of any number of trades. -/
structure Invariant (box : ℚ) (trades : List TradePoint) (s : TradeToRenkoBarDerived)
    (bricks : List RenkoBrickPoint) : Prop where
  boxSize_eq : s.boxSize = box
  rev : 2 ≤ s.reversalCount
  seeded : s.seeded = true ↔ trades ≠ []
  noBricks : trades = [] → bricks = []
  onGrid : trades ≠ [] → ∃ k : ℤ, s.anchor = k * box
  inSpan : trades ≠ [] → InSpan box trades s.anchor
  lastDir_eq : s.lastDir = bricks.getLast?.map (·.up)
  anchor_eq : ∀ b ∈ bricks.getLast?, s.anchor = if b.up then b.top else b.bottom
  contiguous : bricks.IsChain Follows
  height : ∀ b ∈ bricks, b.top = b.bottom + box
  grid : ∀ b ∈ bricks, ∃ k : ℤ, b.bottom = k * box
  increasing : bricks.Pairwise (·.openTime < ·.openTime)
  openTime_le : ∀ b ∈ bricks, b.openTime ≤ s.lastEmittedOpenTime
  volume : (bricks.map (·.volume)).sum + s.volAcc = (trades.map (·.quantity)).sum
  trades : (bricks.map (·.tradesCount)).sum + s.tcountAcc = trades.length

section Invariant

variable {box : ℚ} {trades : List TradePoint} {s s' : TradeToRenkoBarDerived}
  {bricks : List RenkoBrickPoint} {brick : RenkoBrickPoint} {point : TradePoint}

theorem InSpan.mono {x : ℚ} (h : InSpan box trades x) (point : TradePoint) :
    InSpan box (trades ++ [point]) x := by
  obtain ⟨⟨p, hp, hle⟩, hlow⟩ := h
  refine ⟨⟨p, by simp [hp], hle⟩, ?_⟩
  rcases hlow with ⟨q, hq, hqx⟩ | ⟨q, hq, hqx⟩
  · exact Or.inl ⟨q, by simp [hq], hqx⟩
  · exact Or.inr ⟨q, by rw [List.head?_append, hq]; rfl, hqx⟩

/-- Anything between a traded price and a point of the span is in the span. -/
theorem InSpan.between {x y : ℚ} (h : InSpan box trades x) {p : TradePoint} (hp : p ∈ trades)
    (hxy : x ≤ y ∧ y ≤ p.price ∨ p.price ≤ y ∧ y ≤ x) : InSpan box trades y := by
  obtain ⟨⟨q, hq, hle⟩, hlow⟩ := h
  rcases hxy with ⟨hx, hy⟩ | ⟨hy, hx⟩
  · refine ⟨⟨p, hp, hy⟩, ?_⟩
    rcases hlow with ⟨r, hr, hrx⟩ | ⟨r, hr, hrx⟩
    · exact Or.inl ⟨r, hr, hrx.trans hx⟩
    · exact Or.inr ⟨r, hr, hrx.trans hx⟩
  · exact ⟨⟨q, hq, hx.trans hle⟩, Or.inl ⟨p, hp, hy⟩⟩

theorem Invariant.init (b r : ℕ) (hb : 0 < b) (hr : 2 ≤ r) :
    Invariant (b / 10 ^ 8) [] (newForKey b r) [] where
  boxSize_eq := if_pos hb
  rev := by simp [newForKey, hb, hr]
  seeded := by simp [newForKey]
  noBricks := fun _ => rfl
  onGrid h := absurd rfl h
  inSpan h := absurd rfl h
  lastDir_eq := rfl
  anchor_eq := by simp
  contiguous := List.IsChain.nil
  height := by simp
  grid := by simp
  increasing := List.Pairwise.nil
  openTime_le := by simp
  volume := by simp [newForKey]
  trades := by simp [newForKey]

theorem gridFloor_le (hbox : 0 < box) (price : ℚ) : gridFloor box price ≤ price :=
  (le_div_iff₀ hbox).mp (Int.floor_le (price / box))

/-- Taking up a trade keeps the bricks; the first trade sets the anchor. -/
theorem Invariant.accept (hbox : 0 < box) (h : Invariant box trades s bricks)
    (point : TradePoint) : Invariant box (trades ++ [point]) (s.accept point) bricks := by
  have hvol : (bricks.map (·.volume)).sum + (s.volAcc + point.quantity) =
      ((trades ++ [point]).map (·.quantity)).sum := by
    rw [List.map_append, List.sum_append, ← h.volume]
    simp [add_assoc]
  have hcount : (bricks.map (·.tradesCount)).sum + (s.tcountAcc + 1) =
      (trades ++ [point]).length := by
    rw [List.length_append, ← h.trades]
    simp [add_assoc]
  rcases eq_or_ne trades [] with rfl | hne
  · have hseed : s.seeded = false := by
      rw [← Bool.not_eq_true]
      exact fun hs => h.seeded.mp hs rfl
    obtain rfl := h.noBricks rfl
    have hanchor : (s.accept point).anchor = gridFloor box point.price := by
      simp [TradeToRenkoBarDerived.accept, hseed, h.boxSize_eq]
    refine { h with seeded := by simp [TradeToRenkoBarDerived.accept], noBricks := by simp,
                    onGrid := fun _ => ⟨⌊point.price / box⌋, hanchor⟩, inSpan := fun _ => ?_,
                    anchor_eq := by simp, volume := hvol, trades := hcount }
    rw [hanchor]
    exact ⟨⟨point, by simp, gridFloor_le hbox point.price⟩, Or.inr ⟨point, by simp, le_rfl⟩⟩
  · have hseed : s.seeded = true := h.seeded.mpr hne
    have hanchor : (s.accept point).anchor = s.anchor := by
      simp [TradeToRenkoBarDerived.accept, hseed]
    exact { h with seeded := by simp [TradeToRenkoBarDerived.accept], noBricks := by simp
                   onGrid := fun _ => by rw [hanchor]; exact h.onGrid hne
                   inSpan := fun _ => by rw [hanchor]; exact (h.inSpan hne).mono point
                   anchor_eq := by rw [hanchor]; exact h.anchor_eq
                   volume := hvol, trades := hcount }

/-- A completed brick of the right height, on the grid, in the span and behind the last
    one is one more brick of the run. -/
theorem Invariant.push (h : Invariant box trades s bricks) (hne : trades ≠ [])
    (hheight : brick.top = brick.bottom + box) (hgrid : ∃ k : ℤ, brick.bottom = k * box)
    (hfollows : ∀ b ∈ bricks.getLast?, Follows b brick)
    (hstamp : s.lastEmittedOpenTime < brick.openTime)
    (hspan : InSpan box trades (if brick.up then brick.top else brick.bottom))
    (hvol : brick.volume = s.volAcc) (hcount : brick.tradesCount = s.tcountAcc)
    (hs' : s' = { s with lastEmittedOpenTime := brick.openTime, volAcc := 0, tcountAcc := 0,
                         anchor := if brick.up then brick.top else brick.bottom,
                         lastDir := some brick.up }) :
    Invariant box trades s' (bricks ++ [brick]) where
  boxSize_eq := by rw [hs']; exact h.boxSize_eq
  rev := by rw [hs']; exact h.rev
  seeded := by rw [hs']; exact h.seeded
  noBricks hnil := absurd hnil hne
  onGrid _ := by
    obtain ⟨k, hk⟩ := hgrid
    rw [hs']
    simp only
    split_ifs
    · exact ⟨k + 1, by rw [hheight, hk]; push_cast; ring⟩
    · exact ⟨k, hk⟩
  inSpan _ := by rw [hs']; exact hspan
  lastDir_eq := by rw [hs']; simp
  anchor_eq := by
    intro b hb
    obtain rfl : brick = b := by simpa using hb
    rw [hs']
  contiguous := by
    refine List.isChain_append.mpr ⟨h.contiguous, List.isChain_singleton _, ?_⟩
    intro b hb b' hb'
    obtain rfl : brick = b' := by simpa using hb'
    exact hfollows b hb
  height := List.forall_mem_append.mpr ⟨h.height, by simpa using hheight⟩
  grid := List.forall_mem_append.mpr ⟨h.grid, by simpa using hgrid⟩
  increasing := by
    refine List.pairwise_append.mpr ⟨h.increasing, List.pairwise_singleton _ _, ?_⟩
    intro b hb b' hb'
    rw [List.mem_singleton.mp hb']
    exact (h.openTime_le b hb).trans_lt hstamp
  openTime_le := by
    rw [hs']
    exact List.forall_mem_append.mpr
      ⟨fun b hb => (h.openTime_le b hb).trans hstamp.le, by simp⟩
  volume := by rw [hs', ← h.volume]; simp [hvol]
  trades := by rw [hs', ← h.trades]; simp [hcount]

/-- A round completes a brick that follows the others, in the span of the prices. -/
theorem Invariant.round (hbox : 0 < box) (h : Invariant box trades s bricks)
    (hp : point ∈ trades) (hround : s.round point = some (s', brick)) :
    Invariant box trades s' (bricks ++ [brick]) ∧ InSpan box trades brick.bottom ∧
      InSpan box trades brick.top := by
  obtain rfl : s.boxSize = box := h.boxSize_eq
  have hne : trades ≠ [] := List.ne_nil_of_mem hp
  have hspan := h.inSpan hne
  obtain ⟨k, hk⟩ := h.onGrid hne
  have hrev : 2 * s.boxSize ≤ s.boxSize * s.reversalCount := by
    have : (2 : ℚ) ≤ s.reversalCount := by exact_mod_cast h.rev
    nlinarith
  have hdir : ∀ b ∈ bricks.getLast?, s.lastDir = some b.up := by
    intro b hb
    rw [h.lastDir_eq, hb]
    rfl
  rcases round_eq_some hround with ⟨bottom, hbot, hup, hneed, rfl, hs'⟩ |
    ⟨top, htop, hdown, hneed, rfl, hs'⟩
  · -- the brick lies between the anchor and the price
    have hlow : s.anchor ≤ bottom := by split_ifs at hbot <;> linarith
    have hhigh : bottom + s.boxSize ≤ point.price := by
      split_ifs at hbot with hd
      · have := hneed hd
        linarith
      · linarith
    have hgrid : ∃ k : ℤ, bottom = k * s.boxSize := by
      split_ifs at hbot
      · exact ⟨k + 1, by rw [hbot, hk]; push_cast; ring⟩
      · exact ⟨k, by rw [hbot, hk]⟩
    have hfollows : ∀ b ∈ bricks.getLast?, bottom = b.top := by
      intro b hb
      have hheight := h.height b (List.mem_of_getLast? hb)
      rw [hbot, hdir b hb, h.anchor_eq b hb]
      cases b.up <;> simp [hheight]
    refine ⟨h.push hne rfl hgrid (fun b hb => ?_) (lt_openTimeAfter _ _) ?_ rfl rfl hs',
      hspan.between hp (Or.inl ⟨hlow, by linarith⟩),
      hspan.between hp (Or.inl ⟨by simp only; linarith, hhigh⟩)⟩
    · exact hfollows b hb
    · exact hspan.between hp (Or.inl ⟨by simp only [if_true]; linarith, hhigh⟩)
  · have hhigh : top ≤ s.anchor := by split_ifs at htop <;> linarith
    have hlow : point.price ≤ top - s.boxSize := by
      split_ifs at htop with hd
      · have := hneed hd
        linarith
      · linarith
    have hgrid : ∃ k : ℤ, top - s.boxSize = k * s.boxSize := by
      split_ifs at htop
      · exact ⟨k - 2, by rw [htop, hk]; push_cast; ring⟩
      · exact ⟨k - 1, by rw [htop, hk]; push_cast; ring⟩
    have hfollows : ∀ b ∈ bricks.getLast?, top = b.bottom := by
      intro b hb
      have hheight := h.height b (List.mem_of_getLast? hb)
      rw [htop, hdir b hb, h.anchor_eq b hb]
      cases b.up <;> simp [hheight]
    refine ⟨h.push hne (by simp) hgrid (fun b hb => ?_) (lt_openTimeAfter _ _) ?_ rfl rfl hs',
      hspan.between hp (Or.inr ⟨hlow, by simp only; linarith⟩),
      hspan.between hp (Or.inr ⟨by simp only; linarith, hhigh⟩)⟩
    · exact hfollows b hb
    · exact hspan.between hp (Or.inr ⟨hlow, by simp only [Bool.false_eq_true, if_false]; linarith⟩)

/-- The loop as a whole. -/
theorem Invariant.loop {new : List RenkoBrickPoint} (hbox : 0 < box)
    (h : Invariant box trades s bricks) (hp : point ∈ trades) (hloop : Bricks point s s' new) :
    Invariant box trades s' (bricks ++ new) ∧
      ∀ b ∈ new, InSpan box trades b.bottom ∧ InSpan box trades b.top := by
  induction hloop generalizing bricks with
  | done => exact ⟨by simpa using h, by simp⟩
  | next hround rest ih =>
    obtain ⟨hnext, hbrick⟩ := h.round hbox hp hround
    obtain ⟨hinv, hspan⟩ := ih hnext
    refine ⟨by simpa using hinv, List.forall_mem_cons.mpr ⟨hbrick, hspan⟩⟩

/-- `fold_trade` returns the last of the bricks its loop completes. -/
theorem foldTrade_returns {o : Option RenkoBrickPoint} {fuel : ℕ}
    (hfold : s.foldTrade fuel point = some (s', o))
    (hloop : Bricks point (s.accept point) s' bricks) :
    o = bricks.getLast? := by
  obtain ⟨bricks', hbricks', rfl⟩ := (brickLoop_eq_some_iff none o).mp ⟨fuel, hfold⟩
  obtain ⟨-, rfl⟩ := hloop.functional hbricks'
  simp

end Invariant

/-- What a run over `trades` must satisfy: the completed bricks are contiguous on the
    grid and one box high, a brick lies in the span of the prices traded up to the trade
    that completed it, open times increase strictly, no volume is lost, and a trade that
    completes one brick at most returns it. -/
structure RenkoSound (box : ℚ) (trades : List TradePoint) (s : TradeToRenkoBarDerived)
    (returned : List (Option RenkoBrickPoint)) (completed : List (List RenkoBrickPoint)) :
    Prop where
  contiguous : completed.flatten.IsChain Follows
  onGrid : ∀ b ∈ completed.flatten, b.top = b.bottom + box ∧ ∃ k : ℤ, b.bottom = k * box
  inSpan : ∀ n bricks, completed[n]? = some bricks → ∀ b ∈ bricks,
    InSpan box (trades.take (n + 1)) b.bottom ∧ InSpan box (trades.take (n + 1)) b.top
  increasing : completed.flatten.Pairwise (·.openTime < ·.openTime)
  volume : (completed.flatten.map (·.volume)).sum + s.volAcc = (trades.map (·.quantity)).sum
  returned : List.Forall₂ (fun o bricks => bricks.length ≤ 1 → o.toList = bricks) returned completed

section Run

variable {exchange : ExchangeId} {symbol : String} {ks : KlineDeltaState} {box : ℚ}
  {trades : List TradePoint} {s₀ s : TradeToRenkoBarDerived}
  {returned : List (Option RenkoBrickPoint)} {completed : List (List RenkoBrickPoint)}

theorem Run.length_eq (h : Run exchange symbol ks s₀ trades s returned completed) :
    completed.length = trades.length := by
  induction h with
  | nil => rfl
  | trade _ _ _ ih => simp [ih]

theorem Run.invariant (hbox : 0 < box) (h₀ : Invariant box [] s₀ [])
    (h : Run exchange symbol ks s₀ trades s returned completed) :
    Invariant box trades s completed.flatten := by
  induction h with
  | nil => exact h₀
  | trade _ _ loop ih =>
    have := ((ih.accept hbox _).loop hbox (by simp) loop).1
    simpa using this

theorem Run.inSpan (hbox : 0 < box) (h₀ : Invariant box [] s₀ [])
    (h : Run exchange symbol ks s₀ trades s returned completed) :
    ∀ n bricks, completed[n]? = some bricks → ∀ b ∈ bricks,
      InSpan box (trades.take (n + 1)) b.bottom ∧ InSpan box (trades.take (n + 1)) b.top := by
  induction h with
  | nil => simp
  | @trade trades s s' returned completed point o bricks run _ loop ih =>
    intro n bricks' hn b hb
    rcases lt_or_ge n completed.length with hlt | hge
    · have hlen : n + 1 ≤ trades.length := by rw [← run.length_eq]; exact hlt
      rw [List.getElem?_append_left hlt] at hn
      rw [List.take_append_of_le_length hlen]
      exact ih n bricks' hn b hb
    · rw [List.getElem?_append_right hge] at hn
      obtain ⟨hn', rfl⟩ : n - completed.length = 0 ∧ bricks = bricks' := by
        simpa using List.getElem?_eq_some_iff.mp hn
      have hall : trades.length + 1 ≤ n + 1 := by rw [← run.length_eq]; omega
      rw [List.take_of_length_le (by simpa using hall)]
      exact (((run.invariant hbox h₀).accept hbox point).loop hbox (by simp) loop).2 b hb

theorem Run.returns_bricks (hbox : 0 < box) (h₀ : Invariant box [] s₀ [])
    (h : Run exchange symbol ks s₀ trades s returned completed) :
    List.Forall₂ (fun o bricks => bricks.length ≤ 1 → o.toList = bricks) returned completed := by
  induction h with
  | nil => exact .nil
  | @trade trades s s' returned completed point o bricks run call loop ih =>
    obtain ⟨fuel, hfuel⟩ := call
    have hne : s.boxSize ≠ 0 := by
      rw [(run.invariant hbox h₀).boxSize_eq]
      exact hbox.ne'
    refine List.rel_append ih (.cons (fun hlen => ?_) .nil)
    rw [foldTrade_returns ((onUpstreamEvent_trade hne fuel ks exchange symbol o).mp hfuel) loop]
    match bricks, hlen with
    | [], _ => rfl
    | [b], _ => rfl

theorem exists_run (hbox : 0 < box) (h₀ : Invariant box [] s₀ []) (trades : List TradePoint) :
    ∃ s returned completed, Run exchange symbol ks s₀ trades s returned completed := by
  induction trades using List.reverseRecOn with
  | nil => exact ⟨s₀, [], [], .nil⟩
  | append_singleton trades point ih =>
    obtain ⟨s, returned, completed, run⟩ := ih
    have hinv := (run.invariant hbox h₀).accept hbox point
    have hpos : 0 < s.boxSize := by
      rw [(run.invariant hbox h₀).boxSize_eq]
      exact hbox
    obtain ⟨s', bricks, hbricks⟩ : ∃ s' bricks, Bricks point (s.accept point) s' bricks :=
      exists_bricks hpos hinv.rev
    obtain ⟨fuel, hfold⟩ := (brickLoop_eq_some_iff none _).mpr ⟨bricks, hbricks, rfl⟩
    have hcall := (onUpstreamEvent_trade hpos.ne' fuel ks exchange symbol _).mpr hfold
    exact ⟨s', _, _, run.trade ⟨fuel, hcall⟩ hbricks⟩

end Run

/-- **Main theorem.** With a positive box and a reversal count of two or more, every
    sequence of trades is folded to the end, and every run satisfies `RenkoSound`. -/
theorem renko_sound {b r : ℕ} (hb : 0 < b) (hr : 2 ≤ r) (exchange : ExchangeId)
    (symbol : String) (ks : KlineDeltaState) (trades : List TradePoint) :
    (∃ s returned completed,
      Run exchange symbol ks (newForKey b r) trades s returned completed) ∧
      ∀ s returned completed, Run exchange symbol ks (newForKey b r) trades s returned completed →
        RenkoSound (b / 10 ^ 8) trades s returned completed := by
  have hbox : (0 : ℚ) < b / 10 ^ 8 := by positivity
  have h₀ := Invariant.init b r hb hr
  refine ⟨exists_run hbox h₀ trades, fun s returned completed run => ?_⟩
  have hinv := run.invariant hbox h₀
  exact { contiguous := hinv.contiguous
          onGrid := fun brick hbrick => ⟨hinv.height brick hbrick, hinv.grid brick hbrick⟩
          inSpan := run.inSpan hbox h₀
          increasing := hinv.increasing
          volume := hinv.volume
          returned := run.returns_bricks hbox h₀ }

theorem renko_sound_box_ten :
    ∃ s returned completed, Run .binance "BTCUSDT" .new (newForKey 1000000000 2)
      [buyAt 1 105 1, buyAt 2 110 1] s returned completed :=
  (renko_sound (by decide) (by decide) .binance "BTCUSDT" .new
    [buyAt 1 105 1, buyAt 2 110 1]).1

/-- With boxes of ten and trades at `105` and `110`, the first brick is `100` to `110`: its
    bottom is below every traded price. -/
theorem first_brick_below_traded_prices :
    ¬ ∀ trades s returned completed,
      Run .binance "BTCUSDT" .new (newForKey 1000000000 2) trades s returned completed →
      ∀ b, some b ∈ returned → ∃ p ∈ trades, p.price ≤ b.bottom := by
  intro h
  have hrun : Run .binance "BTCUSDT" .new (newForKey 1000000000 2)
      [buyAt 1 105 1, buyAt 2 110 1] ⟨10, 2, 110, some true, 0, 0, 2, true⟩
      [none, some ⟨2, 100, 110, true, 2, 2⟩] [[], [⟨2, 100, 110, true, 2, 2⟩]] :=
    (Run.nil.trade ⟨1, by decide +kernel⟩ (.done (by decide +kernel))).trade
      ⟨2, by decide +kernel⟩ (.next (by decide +kernel) (.done (by decide +kernel)))
  obtain ⟨p, hp, hle⟩ := h _ _ _ _ hrun ⟨2, 100, 110, true, 2, 2⟩ (by simp)
  rcases List.mem_pair.mp hp with rfl | rfl <;> norm_num [buyAt] at hle

end TradeToRenkoBarDerived

end Digdigdig3.Derived
