import Digdigdig3.Derived.KlineDelta

/-!
# Point-and-Figure columns

`TradeToPnfBarDerived::fold_trade` (`derived.rs` lines 1194–1277) returns the current
column on every trade. A column grows by whole boxes at one edge, and a move of
`reversal_count` boxes back from that edge opens a column in the other direction.

The X and O branches of the source are one step in coordinates relative to the direction
(`Column.step`): how far a price lies past the edge where the column grows. The cast of a
number of boxes to `i64` is exact here.

Results:
* `next_cases`: the two branches of the source as one step of the column.
* `Ledger.step`: what every trade preserves.
* `pnf_accounting_iff`: the columns are lawful on every run and account for the trades
  exactly when no trade reverses a column.
-/

namespace Digdigdig3.Derived

/-- `PnfColumnPoint` (`data/pnf_column.rs` lines 21–29). -/
structure PnfColumnPoint where
  openTime : ℤ
  columnId : ℕ
  isX : Bool
  bottom : ℚ
  top : ℚ
  volume : ℚ
  tradesCount : ℕ
  deriving DecidableEq

/-- `TradeToPnfBarDerived` (lines 1112–1124); `kline_state` is kept by `klineSufficient`. -/
structure TradeToPnfBarDerived where
  boxSize : ℚ
  reversalCount : ℕ
  cur : Option PnfColumnPoint
  nextColumnId : ℕ
  lastEmittedOpenTime : ℤ
  deriving DecidableEq

namespace TradeToPnfBarDerived

/-- `new_for_key` for `Kind::PnfBar(b, r)` (lines 1160–1174). -/
def newForKey (b r : ℕ) : TradeToPnfBarDerived :=
  { boxSize := if 0 < b then (b : ℚ) / 10 ^ 8 else 0
    reversalCount := if 0 < b then max r 1 else 3
    cur := none, nextColumnId := 1, lastEmittedOpenTime := 0 }

/-- `preset_grid` (lines 1138–1148). -/
def presetGrid (s : TradeToPnfBarDerived) (bottom top : ℚ) (isX : Bool) : TradeToPnfBarDerived :=
  { s with cur := some { openTime := 0, columnId := 0, isX := isX, bottom := bottom, top := top,
                         volume := 0, tradesCount := 0 } }

/-- The current column is replaced by a new one. -/
def openColumn (s : TradeToPnfBarDerived) (tsMs : ℤ) (isX : Bool) (bottom top volume : ℚ)
    (tradesCount : ℕ) : TradeToPnfBarDerived :=
  let openTime := openTimeAfter tsMs s.lastEmittedOpenTime
  { s with
    lastEmittedOpenTime := openTime
    cur := some { openTime := openTime, columnId := s.nextColumnId, isX := isX, bottom := bottom,
                  top := top, volume := volume, tradesCount := tradesCount }
    nextColumnId := s.nextColumnId + 1 }

/-- The state after `fold_trade` (lines 1194–1277). -/
def next (s : TradeToPnfBarDerived) (point : TradePoint) : TradeToPnfBarDerived :=
  match s.cur with
  | none =>
    let bottom := ⌊point.price / s.boxSize⌋ * s.boxSize
    s.openColumn point.tsMs true bottom (bottom + s.boxSize) point.quantity 1
  | some col =>
    let col := { col with volume := col.volume + point.quantity
                          tradesCount := col.tradesCount + 1 }
    if col.isX then
      if col.top + s.boxSize ≤ point.price then
        let steps := ⌊(point.price - col.top) / s.boxSize⌋
        { s with cur := some { col with top := col.top + steps * s.boxSize } }
      else if point.price ≤ col.top - s.boxSize * s.reversalCount then
        let newTop := col.top - s.boxSize
        let dropSteps := ⌊(col.top - s.boxSize - point.price) / s.boxSize⌋ + 1
        let newBot := newTop - (max dropSteps 1 : ℤ) * s.boxSize
        s.openColumn point.tsMs false newBot newTop 0 0
      else { s with cur := some col }
    else
      if point.price ≤ col.bottom - s.boxSize then
        let steps := ⌊(col.bottom - point.price) / s.boxSize⌋
        { s with cur := some { col with bottom := col.bottom - steps * s.boxSize } }
      else if col.bottom + s.boxSize * s.reversalCount ≤ point.price then
        let newBot := col.bottom + s.boxSize
        let riseSteps := ⌊(point.price - (col.bottom + s.boxSize)) / s.boxSize⌋ + 1
        let newTop := newBot + (max riseSteps 1 : ℤ) * s.boxSize
        s.openColumn point.tsMs true newBot newTop 0 0
      else { s with cur := some col }

/-- `fold_trade` (lines 1194–1277); every path returns the current column. -/
def foldTrade (s : TradeToPnfBarDerived) (point : TradePoint) :
    TradeToPnfBarDerived × Option PnfColumnPoint :=
  (s.next point, (s.next point).cur)

/-- `on_upstream_event` (lines 1180–1191). -/
def machine : Mealy (KlineDeltaState × TradeToPnfBarDerived) Event PnfColumnPoint :=
  klineSufficient (fun s => decide (s.boxSize = 0)) foldTrade

end TradeToPnfBarDerived

/-- The last emission of every column, in order. A column is emitted again under its id until the
    next one is opened. -/
def recordColumn (columns : List PnfColumnPoint) (c : PnfColumnPoint) : List PnfColumnPoint :=
  if columns.getLast?.map (·.columnId) = some c.columnId then columns.dropLast ++ [c]
  else columns ++ [c]

def columnsOf (emitted : List PnfColumnPoint) : List PnfColumnPoint := emitted.foldl recordColumn []

/-! ## Columns relative to their direction -/

def directionSign (isX : Bool) : ℚ := if isX then 1 else -1

theorem directionSign_mul_self (isX : Bool) : directionSign isX * directionSign isX = 1 := by
  cases isX <;> norm_num [directionSign]

theorem directionSign_not (isX : Bool) : directionSign (!isX) = -directionSign isX := by
  cases isX <;> norm_num [directionSign]

/-- A column by the edge it started from and the edge at which it grows. -/
structure Column where
  columnId : ℕ
  isX : Bool
  near : ℚ
  far : ℚ
  deriving DecidableEq

namespace Column

/-- How far a price lies past the edge where the column grows. -/
def dist (c : Column) (price : ℚ) : ℚ := directionSign c.isX * (price - c.far)

/-- The column with `n` more boxes. -/
def advance (box : ℚ) (c : Column) (n : ℤ) : Column :=
  { c with far := c.far + directionSign c.isX * (n * box) }

/-- The column that starts one box back from the edge and has `n` boxes. -/
def flip (box : ℚ) (c : Column) (n : ℤ) : Column :=
  { columnId := c.columnId + 1, isX := !c.isX, near := c.far - directionSign c.isX * box
    far := c.far - directionSign c.isX * box - directionSign c.isX * (n * box) }

/-- The price is `rev` boxes behind the edge. -/
def Reverses (box : ℚ) (rev : ℕ) (c : Column) (price : ℚ) : Prop := c.dist price ≤ -(box * rev)

instance (box : ℚ) (rev : ℕ) (c : Column) (price : ℚ) : Decidable (c.Reverses box rev price) :=
  inferInstanceAs (Decidable (c.dist price ≤ -(box * rev)))

/-- The boxes between the start of a reversed column and the price. -/
def boxesBack (box : ℚ) (c : Column) (price : ℚ) : ℤ := ⌊(-c.dist price - box) / box⌋

/-- The column after a trade at `price`. -/
def step (box : ℚ) (rev : ℕ) (c : Column) (price : ℚ) : Column :=
  if box ≤ c.dist price then c.advance box ⌊c.dist price / box⌋
  else if c.Reverses box rev price then c.flip box (max (c.boxesBack box price + 1) 1)
  else c

end Column

def PnfColumnPoint.column (c : PnfColumnPoint) : Column :=
  { columnId := c.columnId, isX := c.isX, near := if c.isX then c.bottom else c.top
    far := if c.isX then c.top else c.bottom }

namespace TradeToPnfBarDerived

/-! ## What one trade does -/

section Step

variable {s : TradeToPnfBarDerived} {point : TradePoint} {col : PnfColumnPoint}

/-- The trade opens a new column. -/
def Reverses (s : TradeToPnfBarDerived) (point : TradePoint) : Prop :=
  ∃ col ∈ s.cur, ¬ s.boxSize ≤ col.column.dist point.price ∧
    col.column.Reverses s.boxSize s.reversalCount point.price

/-- With an open column, whether the trade opens a new one is a matter of that column. -/
theorem reverses_iff (point : TradePoint) (hcur : s.cur = some col) :
    s.Reverses point ↔ ¬ s.boxSize ≤ col.column.dist point.price ∧
      col.column.Reverses s.boxSize s.reversalCount point.price := by
  simp only [Reverses, hcur, Option.mem_some_iff, exists_eq_left']

/-- **Step lemma.** A trade that does not reverse the column is added to it, and leaves its id
    and direction; one that does opens the next column and is added to none. -/
theorem next_cases (point : TradePoint) (hcur : s.cur = some col)
    (hid : s.nextColumnId = col.columnId + 1) :
    ∃ c, (s.next point).cur = some c ∧
      c.column = col.column.step s.boxSize s.reversalCount point.price ∧
      (s.next point).nextColumnId = c.columnId + 1 ∧
      ((¬ s.Reverses point ∧
          (s.next point).lastEmittedOpenTime = s.lastEmittedOpenTime ∧
          c.openTime = col.openTime ∧ c.columnId = col.columnId ∧ c.isX = col.isX ∧
          c.volume = col.volume + point.quantity ∧ c.tradesCount = col.tradesCount + 1) ∨
        (s.Reverses point ∧
          (s.next point).lastEmittedOpenTime = openTimeAfter point.tsMs s.lastEmittedOpenTime ∧
          c.openTime = openTimeAfter point.tsMs s.lastEmittedOpenTime ∧
          c.columnId = col.columnId + 1 ∧ c.isX = !col.isX ∧
          c.volume = 0 ∧ c.tradesCount = 0)) := by
  rw [reverses_iff point hcur]
  obtain ⟨openTime, columnId, isX, bottom, top, volume, tradesCount⟩ := col
  simp only at hid
  cases isX with
  | true =>
    have hdist : ∀ y, (PnfColumnPoint.mk openTime columnId true bottom top volume
        tradesCount).column.dist y = y - top := by
      intro y
      simp [PnfColumnPoint.column, Column.dist, directionSign]
    simp only [next, hcur, hdist, Column.step, Column.Reverses, Column.boxesBack, if_true,
      Bool.not_true]
    by_cases hgrow : top + s.boxSize ≤ point.price
    · have hgrow' : s.boxSize ≤ point.price - top := by linarith
      rw [if_pos hgrow, if_pos hgrow']
      refine ⟨_, rfl, ?_, hid, .inl ⟨fun h => h.1 hgrow', rfl, rfl, rfl, rfl, rfl, rfl⟩⟩
      simp [PnfColumnPoint.column, Column.advance, directionSign]
    · have hgrow' : ¬ s.boxSize ≤ point.price - top := fun h => hgrow (by linarith)
      rw [if_neg hgrow, if_neg hgrow']
      by_cases hback : point.price ≤ top - s.boxSize * s.reversalCount
      · have hback' : point.price - top ≤ -(s.boxSize * s.reversalCount) := by linarith
        rw [if_pos hback, if_pos hback']
        refine ⟨_, rfl, ?_, by simp [openColumn, hid], .inr ⟨⟨hgrow', hback'⟩, rfl, rfl, hid, rfl,
          rfl, rfl⟩⟩
        have hfloor : top - s.boxSize - point.price = -(point.price - top) - s.boxSize := by ring
        simp [PnfColumnPoint.column, Column.flip, directionSign, hid, hfloor]
      · have hback' : ¬ point.price - top ≤ -(s.boxSize * s.reversalCount) :=
          fun h => hback (by linarith)
        rw [if_neg hback, if_neg hback']
        exact ⟨_, rfl, rfl, hid, .inl ⟨fun h => hback' h.2, rfl, rfl, rfl, rfl, rfl, rfl⟩⟩
  | false =>
    have hdist : ∀ y, (PnfColumnPoint.mk openTime columnId false bottom top volume
        tradesCount).column.dist y = bottom - y := by
      intro y
      simp [PnfColumnPoint.column, Column.dist, directionSign]
    simp only [next, hcur, hdist, Column.step, Column.Reverses, Column.boxesBack,
      Bool.false_eq_true, if_false, Bool.not_false]
    by_cases hgrow : point.price ≤ bottom - s.boxSize
    · have hgrow' : s.boxSize ≤ bottom - point.price := by linarith
      rw [if_pos hgrow, if_pos hgrow']
      refine ⟨_, rfl, ?_, hid, .inl ⟨fun h => h.1 hgrow', rfl, rfl, rfl, rfl, rfl, rfl⟩⟩
      simp [PnfColumnPoint.column, Column.advance, directionSign, sub_eq_add_neg]
    · have hgrow' : ¬ s.boxSize ≤ bottom - point.price := fun h => hgrow (by linarith)
      rw [if_neg hgrow, if_neg hgrow']
      by_cases hback : bottom + s.boxSize * s.reversalCount ≤ point.price
      · have hback' : bottom - point.price ≤ -(s.boxSize * s.reversalCount) := by linarith
        rw [if_pos hback, if_pos hback']
        refine ⟨_, rfl, ?_, by simp [openColumn, hid], .inr ⟨⟨hgrow', hback'⟩, rfl, rfl, hid, rfl,
          rfl, rfl⟩⟩
        have hfloor : point.price - (bottom + s.boxSize) =
            -(bottom - point.price) - s.boxSize := by ring
        simp [PnfColumnPoint.column, Column.flip, directionSign, hid, hfloor]
      · have hback' : ¬ bottom - point.price ≤ -(s.boxSize * s.reversalCount) :=
          fun h => hback (by linarith)
        rw [if_neg hback, if_neg hback']
        exact ⟨_, rfl, rfl, hid, .inl ⟨fun h => hback' h.2, rfl, rfl, rfl, rfl, rfl, rfl⟩⟩

/-- The first trade opens the first column on the box that holds its price. -/
theorem next_of_none (point : TradePoint) (hcur : s.cur = none) : (s.next point) =
    s.openColumn point.tsMs true (⌊point.price / s.boxSize⌋ * s.boxSize)
      (⌊point.price / s.boxSize⌋ * s.boxSize + s.boxSize) point.quantity 1 := by
  simp only [next, hcur]

theorem next_boxSize (s : TradeToPnfBarDerived) (point : TradePoint) :
    (s.next point).boxSize = s.boxSize ∧
    (s.next point).reversalCount = s.reversalCount := by
  unfold next openColumn
  split
  · exact ⟨rfl, rfl⟩
  · simp only
    split_ifs <;> exact ⟨rfl, rfl⟩

end Step

/-! ## Boxes of a column -/

end TradeToPnfBarDerived

namespace Column

variable {box : ℚ} {rev : ℕ} {c : Column} {price : ℚ} {n : ℤ}

/-- The column starts on the grid and has `n` boxes. -/
def Boxes (box : ℚ) (c : Column) (n : ℤ) : Prop :=
  ∃ m : ℤ, c.near = m * box ∧ c.far = c.near + directionSign c.isX * (n * box)

theorem Boxes.advance (h : c.Boxes box n) (k : ℤ) : (c.advance box k).Boxes box (n + k) := by
  obtain ⟨m, hnear, hfar⟩ := h
  refine ⟨m, hnear, ?_⟩
  simp only [Column.advance, hfar]
  push_cast
  ring

theorem Boxes.flip (h : c.Boxes box n) (k : ℤ) : (c.flip box k).Boxes box k := by
  obtain ⟨m, hnear, hfar⟩ := h
  have hfar' : (c.flip box k).far = (c.flip box k).near +
      directionSign (c.flip box k).isX * (k * box) := by
    simp only [Column.flip, directionSign_not]
    ring
  cases hx : c.isX with
  | true =>
    refine ⟨m + n - 1, ?_, hfar'⟩
    simp only [Column.flip, hfar, hnear, hx, directionSign, if_true]
    push_cast
    ring
  | false =>
    refine ⟨m - n + 1, ?_, hfar'⟩
    simp only [Column.flip, hfar, hnear, hx, directionSign, Bool.false_eq_true, if_false]
    push_cast
    ring

/-- A column that is not reversed keeps its boxes. -/
theorem Boxes.step_of_keep (hbox : 0 < box) (h : c.Boxes box n)
    (hkeep : ¬ (¬ box ≤ c.dist price ∧ c.Reverses box rev price)) :
    ∃ n', n ≤ n' ∧ (c.step box rev price).Boxes box n' := by
  by_cases hgrow : box ≤ c.dist price
  · refine ⟨n + ⌊c.dist price / box⌋, ?_, ?_⟩
    · have : 0 ≤ ⌊c.dist price / box⌋ :=
        Int.floor_nonneg.mpr (div_nonneg (hbox.le.trans hgrow) hbox.le)
      omega
    · rw [step, if_pos hgrow]
      exact h.advance _
  · refine ⟨n, le_rfl, ?_⟩
    rw [step, if_neg hgrow, if_neg (fun hr => hkeep ⟨hgrow, hr⟩)]
    exact h

/-- A reversal makes a column of at least `rev` boxes. -/
theorem Boxes.step_of_reverses (hbox : 0 < box) (h : c.Boxes box n)
    (hgrow : ¬ box ≤ c.dist price) (hrev : c.Reverses box rev price) :
    ∃ n' : ℤ, rev ≤ n' ∧ 0 < n' ∧ (c.step box rev price).Boxes box n' := by
  refine ⟨max (c.boxesBack box price + 1) 1, ?_, ?_, ?_⟩
  · have hfloor : (rev : ℤ) - 1 ≤ c.boxesBack box price := by
      rw [boxesBack, Int.le_floor, le_div_iff₀ hbox]
      have := hrev
      rw [Reverses] at this
      push_cast
      linarith
    omega
  · omega
  · rw [step, if_neg hgrow, if_pos hrev]
    exact h.flip _

end Column

/-- `c` lies on the grid and is `n` boxes tall. -/
def PnfColumnPoint.Tall (box : ℚ) (c : PnfColumnPoint) (n : ℤ) : Prop :=
  ∃ m : ℤ, c.bottom = m * box ∧ c.top = (m + n) * box

theorem PnfColumnPoint.tall_of_boxes {box : ℚ} {c : PnfColumnPoint} {n : ℤ}
    (h : c.column.Boxes box n) : c.Tall box n := by
  obtain ⟨m, hnear, hfar⟩ := h
  cases hx : c.isX with
  | true =>
    simp only [PnfColumnPoint.column, hx, if_true, directionSign] at hnear hfar
    exact ⟨m, hnear, by rw [hfar, hnear]; ring⟩
  | false =>
    simp only [PnfColumnPoint.column, hx, Bool.false_eq_true, if_false, directionSign]
      at hnear hfar
    refine ⟨m - n, ?_, ?_⟩
    · rw [hfar, hnear]
      push_cast
      ring
    · rw [hnear]
      push_cast
      ring

/-! ## The columns of a run -/

theorem columnsOf_concat (emitted : List PnfColumnPoint) (c : PnfColumnPoint) :
    columnsOf (emitted ++ [c]) = recordColumn (columnsOf emitted) c := by
  rw [columnsOf, List.foldl_append]
  rfl

theorem recordColumn_of_same {columns : List PnfColumnPoint} {col c : PnfColumnPoint}
    (h : c.columnId = col.columnId) : recordColumn (columns ++ [col]) c = columns ++ [c] := by
  rw [recordColumn, if_pos (by simp [h]), List.dropLast_concat]

theorem recordColumn_of_new {columns : List PnfColumnPoint} {col c : PnfColumnPoint}
    (h : c.columnId ≠ col.columnId) :
    recordColumn (columns ++ [col]) c = columns ++ [col] ++ [c] := by
  rw [recordColumn, if_neg (by simpa using h.symm)]

/-- `b` is emitted next after `a`: the same column again, or the next one, which goes the
    other way and opens later. -/
def Continues (a b : PnfColumnPoint) : Prop :=
  (b.columnId = a.columnId ∧ b.isX = a.isX ∧ b.openTime = a.openTime) ∨
    (b.columnId = a.columnId + 1 ∧ b.isX = !a.isX ∧ a.openTime < b.openTime)

/-- What the emitted columns satisfy on every run. -/
structure ColumnsLawful (box : ℚ) (rev : ℕ) (emitted : List PnfColumnPoint) : Prop where
  continues : emitted.IsChain Continues
  increasing : (columnsOf emitted).Pairwise fun a b =>
    a.columnId < b.columnId ∧ a.openTime < b.openTime
  tall : ∀ c ∈ emitted, ∃ n : ℤ, 0 < n ∧ (1 < c.columnId → (rev : ℤ) ≤ n) ∧ c.Tall box n

/-- A column that continues the last one keeps the columns lawful. -/
theorem ColumnsLawful.concat {box : ℚ} {rev : ℕ} {emitted : List PnfColumnPoint}
    {col c : PnfColumnPoint} {closed : List PnfColumnPoint} {n : ℤ}
    (h : ColumnsLawful box rev emitted) (hlast : emitted.getLast? = some col)
    (hcolumns : columnsOf emitted = closed ++ [col]) (hcont : Continues col c) (hn : 0 < n)
    (htall : 1 < c.columnId → (rev : ℤ) ≤ n) (hboxes : c.column.Boxes box n) :
    ColumnsLawful box rev (emitted ++ [c]) where
  continues := by
    refine List.isChain_append.mpr ⟨h.continues, List.isChain_singleton _, ?_⟩
    intro a ha b hb
    obtain rfl : c = b := by simpa using hb
    obtain rfl : col = a := by simpa [hlast] using ha
    exact hcont
  increasing := by
    have hpair := h.increasing
    rw [hcolumns] at hpair
    obtain ⟨hclosed, -, hlt⟩ := List.pairwise_append.mp hpair
    rw [columnsOf_concat, hcolumns]
    rcases hcont with ⟨hid, -, htime⟩ | ⟨hid, -, htime⟩
    · rw [recordColumn_of_same hid]
      refine List.pairwise_append.mpr ⟨hclosed, List.pairwise_singleton _ _, fun a ha b hb => ?_⟩
      rw [List.mem_singleton.mp hb, hid, htime]
      exact hlt a ha col List.mem_cons_self
    · rw [recordColumn_of_new (by omega)]
      refine List.pairwise_append.mpr ⟨hpair, List.pairwise_singleton _ _, fun a ha b hb => ?_⟩
      rw [List.mem_singleton.mp hb]
      rcases List.mem_append.mp ha with ha | ha
      · obtain ⟨hlt₁, hlt₂⟩ := hlt a ha col List.mem_cons_self
        exact ⟨by omega, hlt₂.trans htime⟩
      · rw [List.mem_singleton.mp ha]
        exact ⟨by omega, htime⟩
  tall d hd := by
    rcases List.mem_append.mp hd with hd | hd
    · exact h.tall d hd
    · rw [List.mem_singleton.mp hd]
      exact ⟨n, hn, htall, PnfColumnPoint.tall_of_boxes hboxes⟩

/-- The columns account for the trades: each trade is in the last emission of one. -/
structure Conserved (trades : List TradePoint) (columns : List PnfColumnPoint) : Prop where
  volume : (columns.map (·.volume)).sum = (trades.map (·.quantity)).sum
  tradesCount : (columns.map (·.tradesCount)).sum = trades.length

namespace TradeToPnfBarDerived

/-- The trades so far, the state and the emitted columns: before the first trade, and with
    the current column `col` after it. Every column but the first has lost one trade. -/
inductive Ledger (box : ℚ) (rev : ℕ) :
    List TradePoint → TradeToPnfBarDerived → List PnfColumnPoint → Prop
  | fresh {s : TradeToPnfBarDerived} (hbox : s.boxSize = box) (hrev : s.reversalCount = rev)
      (hcur : s.cur = none) (hid : s.nextColumnId = 1) : Ledger box rev [] s []
  | running {trades : List TradePoint} {s : TradeToPnfBarDerived}
      {emitted closed : List PnfColumnPoint} {col : PnfColumnPoint} {n : ℤ}
      (hbox : s.boxSize = box) (hrev : s.reversalCount = rev) (hcur : s.cur = some col)
      (hid : s.nextColumnId = col.columnId + 1) (htime : s.lastEmittedOpenTime = col.openTime)
      (hpos : 0 < col.columnId) (hlast : emitted.getLast? = some col)
      (hcolumns : columnsOf emitted = closed ++ [col]) (hn : 0 < n)
      (htall : 1 < col.columnId → (rev : ℤ) ≤ n) (hboxes : col.column.Boxes box n)
      (hlawful : ColumnsLawful box rev emitted)
      (hcounts : ((columnsOf emitted).map (·.tradesCount)).sum + closed.length = trades.length)
      (hvolume : closed = [] → col.volume = (trades.map (·.quantity)).sum) :
      Ledger box rev trades s emitted

section Ledger

variable {box : ℚ} {rev : ℕ} {trades : List TradePoint} {s : TradeToPnfBarDerived}
  {emitted : List PnfColumnPoint} {point : TradePoint}

/-- **Step lemma.** Every trade keeps the ledger. -/
theorem Ledger.step (hbox : 0 < box) (h : Ledger box rev trades s emitted) (point : TradePoint) :
    Ledger box rev (trades ++ [point]) (s.foldTrade point).1
      (emitted ++ (s.foldTrade point).2.toList) := by
  cases h with
  | fresh hb hr hcur hid =>
    have hnext := next_of_none point hcur
    obtain ⟨hb', hr'⟩ := next_boxSize s point
    have hboxes : (PnfColumnPoint.mk (openTimeAfter point.tsMs s.lastEmittedOpenTime) 1 true
        (⌊point.price / s.boxSize⌋ * s.boxSize)
        (⌊point.price / s.boxSize⌋ * s.boxSize + s.boxSize)
        point.quantity 1).column.Boxes box 1 := by
      refine ⟨⌊point.price / s.boxSize⌋, by simp [PnfColumnPoint.column, hb], ?_⟩
      simp [PnfColumnPoint.column, directionSign, hb]
    have hcur' : (s.next point).cur = some (PnfColumnPoint.mk
        (openTimeAfter point.tsMs s.lastEmittedOpenTime) 1 true
        (⌊point.price / s.boxSize⌋ * s.boxSize)
        (⌊point.price / s.boxSize⌋ * s.boxSize + s.boxSize) point.quantity 1) := by
      rw [hnext, openColumn, hid]
    simp only [foldTrade, hcur', Option.toList_some, List.nil_append]
    have hcolumns : columnsOf [PnfColumnPoint.mk (openTimeAfter point.tsMs s.lastEmittedOpenTime)
        1 true (⌊point.price / s.boxSize⌋ * s.boxSize)
        (⌊point.price / s.boxSize⌋ * s.boxSize + s.boxSize) point.quantity 1] = [] ++ [_] := rfl
    refine Ledger.running (hb'.trans hb) (hr'.trans hr) hcur'
      (by rw [hnext, openColumn, hid]) (by rw [hnext, openColumn]) Nat.one_pos rfl hcolumns one_pos
      (fun hlt => absurd hlt (lt_irrefl 1)) hboxes ⟨List.isChain_singleton _, ?_, ?_⟩ rfl
      (fun _ => by simp)
    · exact List.pairwise_singleton _ _
    · intro c hc
      rw [List.mem_singleton.mp hc]
      exact ⟨1, one_pos, fun hlt => absurd hlt (lt_irrefl 1), PnfColumnPoint.tall_of_boxes hboxes⟩
  | @running _ _ _ closed col n hb hr hcur hid htime hpos hlast hcolumns hn htall hboxes hlawful
      hcounts hvolume =>
    obtain ⟨c, hcur', hcolumn, hid', hcases⟩ := next_cases point hcur hid
    obtain ⟨hb', hr'⟩ := next_boxSize s point
    have hrev := reverses_iff point hcur
    rw [hb, hr] at hrev hcolumn
    simp only [foldTrade, hcur', Option.toList_some]
    rcases hcases with ⟨hkeep, htime', hopen, hcid, hdir, hvol, hcount⟩ |
      ⟨hflip, htime', hopen, hcid, hdir, hvol, hcount⟩
    · -- the trade is added to the current column
      obtain ⟨n', hle, hboxes'⟩ := hboxes.step_of_keep hbox (fun h => hkeep (hrev.mpr h))
      rw [← hcolumn] at hboxes'
      have hcolumns' : columnsOf (emitted ++ [c]) = closed ++ [c] := by
        rw [columnsOf_concat, hcolumns, recordColumn_of_same hcid]
      refine Ledger.running (hb'.trans hb) (hr'.trans hr) hcur' hid'
        (by rw [htime', htime, hopen]) (by omega) (by simp) hcolumns' (hn.trans_le hle)
        (fun hlt => (htall (hcid ▸ hlt)).trans hle) hboxes'
        (hlawful.concat hlast hcolumns (.inl ⟨hcid, hdir, hopen⟩) (hn.trans_le hle)
          (fun hlt => (htall (hcid ▸ hlt)).trans hle) hboxes') ?_ (fun hnil => ?_)
      · rw [hcolumns] at hcounts
        rw [hcolumns']
        simp only [List.map_append, List.sum_append, List.map_cons, List.map_nil,
          List.sum_singleton, List.length_append, List.length_singleton] at hcounts ⊢
        omega
      · rw [hvol, hvolume hnil, List.map_append, List.sum_append]
        simp
    · -- the trade opens the next column and is in none
      obtain ⟨hgrow, hback⟩ := hrev.mp hflip
      obtain ⟨n', hle, hpos', hboxes'⟩ := hboxes.step_of_reverses hbox hgrow hback
      rw [← hcolumn] at hboxes'
      have hcolumns' : columnsOf (emitted ++ [c]) = closed ++ [col] ++ [c] := by
        rw [columnsOf_concat, hcolumns, recordColumn_of_new (by omega)]
      have hlt : col.openTime < c.openTime := by
        rw [hopen, ← htime]
        exact lt_openTimeAfter _ _
      refine Ledger.running (hb'.trans hb) (hr'.trans hr) hcur' hid' (by rw [htime', hopen])
        (by omega) (by simp) hcolumns' hpos' (fun _ => hle) hboxes'
        (hlawful.concat hlast hcolumns (.inr ⟨hcid, hdir, hlt⟩) hpos' (fun _ => hle) hboxes') ?_
        (fun hnil => absurd hnil (by simp))
      rw [hcolumns] at hcounts
      rw [hcolumns']
      simp only [List.map_append, List.sum_append, List.map_cons, List.map_nil,
        List.sum_singleton, List.length_append, List.length_singleton] at hcounts ⊢
      omega

/-- No trade of the run reverses the column that is open when it comes. -/
def NeverReverses (start : TradeToPnfBarDerived) (trades : List TradePoint) : Prop :=
  ∀ pre point, pre ++ [point] <+: trades → ¬ ((Mealy.mk foldTrade).final start pre).Reverses point

theorem neverReverses_concat {start : TradeToPnfBarDerived} :
    NeverReverses start (trades ++ [point]) ↔
      NeverReverses start trades ∧ ¬ ((Mealy.mk foldTrade).final start trades).Reverses point := by
  constructor
  · intro h
    exact ⟨fun pre p hp => h pre p (hp.trans (List.prefix_append _ _)),
      h trades point (List.prefix_refl _)⟩
  · rintro ⟨hpre, hlast⟩ pre p hp
    rcases List.prefix_concat_iff.mp hp with heq | hp
    · obtain ⟨rfl, hp⟩ := List.append_inj' heq rfl
      obtain rfl : p = point := by simpa using hp
      exact hlast
    · exact hpre pre p hp

/-- **Run lemma.** -/
theorem ledger_run (hbox : 0 < box) {start : TradeToPnfBarDerived}
    (hstart : Ledger box rev [] start []) (trades : List TradePoint) :
    Ledger box rev trades ((Mealy.mk foldTrade).final start trades)
      ((Mealy.mk foldTrade).emitted start trades) :=
  Mealy.run_invariant _ hstart (fun _ _ _ point h => h.step hbox point) trades

/-- The number of columns tells whether the trade has reversed one. -/
theorem Ledger.length_columns (h : Ledger box rev trades s emitted) (point : TradePoint) :
    (columnsOf (emitted ++ (s.foldTrade point).2.toList)).length ≤ 1 ↔
      (columnsOf emitted).length ≤ 1 ∧ ¬ s.Reverses point := by
  cases h with
  | fresh hb hr hcur hid =>
    have hnone : ¬ s.Reverses point := by simp [Reverses, hcur]
    have hnext := next_of_none point hcur
    simp only [foldTrade, hnext, openColumn, Option.toList_some, List.nil_append, hnone,
      not_false_eq_true, and_true]
    exact iff_of_true le_rfl (Nat.zero_le _)
  | @running _ _ _ closed col n hb hr hcur hid htime hpos hlast hcolumns =>
    obtain ⟨c, hcur', -, -, hcases⟩ := next_cases point hcur hid
    simp only [foldTrade, hcur', Option.toList_some, columnsOf_concat, hcolumns]
    rcases hcases with ⟨hkeep, -, -, hcid, -⟩ | ⟨hflip, -, -, hcid, -⟩
    · rw [recordColumn_of_same hcid]
      simp [hkeep]
    · rw [recordColumn_of_new (by omega)]
      simp [hflip]

theorem length_columns_iff (hbox : 0 < box) {start : TradeToPnfBarDerived}
    (hstart : Ledger box rev [] start []) (trades : List TradePoint) :
    (columnsOf ((Mealy.mk foldTrade).emitted start trades)).length ≤ 1 ↔
      NeverReverses start trades := by
  induction trades using List.reverseRecOn with
  | nil =>
    refine iff_of_true (Nat.zero_le _) fun pre point hpre => ?_
    simp at hpre
  | append_singleton trades point ih =>
    rw [Mealy.emitted_concat, neverReverses_concat, ← ih]
    exact (ledger_run hbox hstart trades).length_columns point

theorem Ledger.lawful (h : Ledger box rev trades s emitted) : ColumnsLawful box rev emitted := by
  cases h with
  | fresh => exact ⟨.nil, .nil, nofun⟩
  | running _ _ _ _ _ _ _ _ _ _ _ hlawful => exact hlawful

/-- The columns account for the trades exactly when there is at most one. -/
theorem Ledger.conserved_iff (h : Ledger box rev trades s emitted) :
    Conserved trades (columnsOf emitted) ↔ (columnsOf emitted).length ≤ 1 := by
  cases h with
  | fresh => exact iff_of_true ⟨rfl, rfl⟩ (Nat.zero_le _)
  | @running _ _ _ closed col n _ _ _ _ _ _ _ hcolumns _ _ _ _ hcounts hvolume =>
    have hlen : (columnsOf emitted).length = closed.length + 1 := by simp [hcolumns]
    rw [hlen]
    constructor
    · intro hconserved
      have := hconserved.tradesCount
      omega
    · intro hle
      have hnil : closed = [] := List.length_eq_zero_iff.mp (by omega)
      refine ⟨?_, ?_⟩
      · rw [hcolumns, hnil]
        simpa using hvolume hnil
      · rw [hnil] at hcounts
        simpa using hcounts

end Ledger

theorem ledger_newForKey {b : ℕ} (hb : 0 < b) (r : ℕ) :
    Ledger (b / 10 ^ 8) (max r 1) [] (newForKey b r) [] :=
  .fresh (if_pos hb) (if_pos hb) rfl rfl

theorem foldTrade_boxSize (s : TradeToPnfBarDerived) (point : TradePoint)
    (h : decide (s.boxSize = 0) = false) :
    decide ((s.foldTrade point).1.boxSize = 0) = false := by
  rw [foldTrade, (next_boxSize s point).1]
  exact h

/-- The columns that trades of one stream emit. -/
def emittedFor (b r : ℕ) (exchange : ExchangeId) (symbol : String) (trades : List TradePoint) :
    List PnfColumnPoint :=
  machine.emitted (.new, newForKey b r) (trades.map (.trade exchange symbol))

theorem emittedFor_eq {b : ℕ} (hb : 0 < b) (r : ℕ) (exchange : ExchangeId) (symbol : String)
    (trades : List TradePoint) :
    emittedFor b r exchange symbol trades =
      (Mealy.mk foldTrade).emitted (newForKey b r) trades := by
  have hq : (0 : ℚ) < b / 10 ^ 8 := by positivity
  refine emitted_klineSufficient_trades foldTrade_boxSize _ ?_ exchange symbol trades
  simp [newForKey, if_pos hb, hq.ne']

/-- **Main theorem.** The columns continue each other, lie on the box grid and are tall
    enough on every run; their volumes and trade counts add up to the trades exactly when no
    trade reverses a column, since a reversing trade is counted in none. -/
theorem pnf_accounting_iff {b : ℕ} (hb : 0 < b) (r : ℕ) (exchange : ExchangeId) (symbol : String)
    (trades : List TradePoint) :
    (ColumnsLawful (b / 10 ^ 8) (max r 1) (emittedFor b r exchange symbol trades) ∧
        Conserved trades (columnsOf (emittedFor b r exchange symbol trades))) ↔
      NeverReverses (newForKey b r) trades := by
  have hq : (0 : ℚ) < b / 10 ^ 8 := by positivity
  have hledger := ledger_run hq (ledger_newForKey hb r) trades
  rw [emittedFor_eq hb, hledger.conserved_iff,
    length_columns_iff hq (ledger_newForKey hb r) trades]
  exact and_iff_right hledger.lawful

theorem pnf_accounting_iff_two_trades :
    (ColumnsLawful ((100000000 : ℕ) / 10 ^ 8) (max 3 1)
          (emittedFor 100000000 3 .binance "BTCUSDT" [buyAt 1 100 1, buyAt 2 102 1]) ∧
        Conserved [buyAt 1 100 1, buyAt 2 102 1]
          (columnsOf (emittedFor 100000000 3 .binance "BTCUSDT" [buyAt 1 100 1, buyAt 2 102 1]))) ↔
      NeverReverses (newForKey 100000000 3) [buyAt 1 100 1, buyAt 2 102 1] :=
  pnf_accounting_iff (by decide) 3 .binance "BTCUSDT" [buyAt 1 100 1, buyAt 2 102 1]

/-- Prices `100` and `98` with box `1` and reversal `3`: the second trade reverses the column
    and is counted in neither. -/
theorem not_conserved_of_reversal :
    ¬ Conserved [buyAt 1 100 1, buyAt 2 98 1]
      (columnsOf (emittedFor 100000000 3 .binance "BTCUSDT" [buyAt 1 100 1, buyAt 2 98 1])) := by
  intro h
  have hcolumns : columnsOf (emittedFor 100000000 3 .binance "BTCUSDT"
      [buyAt 1 100 1, buyAt 2 98 1]) =
      [⟨1, 1, true, 100, 101, 1, 1⟩, ⟨2, 2, false, 97, 100, 0, 0⟩] := by decide +kernel
  have hcount := h.tradesCount
  rw [hcolumns] at hcount
  exact absurd hcount (by decide)

end TradeToPnfBarDerived

end Digdigdig3.Derived
