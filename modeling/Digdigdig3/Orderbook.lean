import Digdigdig3.Lib.MapWrites
import Mathlib.Data.List.TakeWhile

/-!
# `OrderBookTracker`: a book rebuilt from a snapshot and deltas

`OrderBookTracker` (`crates/digdigdig3-station/src/orderbook.rs`) keeps both sides of
a book in ordered maps. `apply_snapshot` and `apply_delta` convert the `f64` levels one
by one and write each level before they look at the next, so a level that does not
convert leaves the levels in front of it behind.

Prices and sizes are an arbitrary type `F` with the fallible conversion
`Decimal::try_from` of the `rust_decimal` crate as the parameter `tryFrom`; decimals are
any linear order with a zero.

Results:
* `getElem?_snapshotSide`, `getElem?_deltaSide`: what a list of levels writes, as lookups.
* `updates_all_or_nothing_iff`: in every reachable state, the updates that are
  all-or-nothing.
* `nonzeroLevels_run`: no reachable book holds a level of size zero.
* `lastUpdateId_of_applyDelta`: a delta that is accepted continues the book's sequence.
-/

namespace Digdigdig3

/-! ## Data -/

/-- `OrderBookLevel` (`core/types/market_data.rs` lines 219–225). -/
structure OrderBookLevel (F : Type) where
  price : F
  size : F
  deriving DecidableEq

/-- `OrderBook` (`core/types/market_data.rs` lines 246–273). -/
structure OrderBook (F : Type) where
  bids : List (OrderBookLevel F)
  asks : List (OrderBookLevel F)
  timestamp : ℤ
  lastUpdateId : Option ℕ

/-- `OrderbookDelta` (`core/types/market_data.rs` lines 351–365). -/
structure OrderbookDelta (F : Type) where
  bids : List (OrderBookLevel F)
  asks : List (OrderBookLevel F)
  timestamp : ℤ
  lastUpdateId : Option ℕ
  prevUpdateId : Option ℕ

/-- `OrderBookError` (lines 51–69). -/
inductive OrderBookError (F : Type) where
  | sequenceGap (last got : ℕ)
  | noSnapshot
  | symbolMismatch (tracker incoming : String)
  | invalidDecimal (value : F)
  deriving DecidableEq

/-- One side of the book, keyed by price. -/
abbrev Side (D : Type) [LinearOrder D] := Std.ExtTreeMap D D

/-- The quantity of one side at a price. -/
abbrev Side.qtyAt {D : Type} [LinearOrder D] (side : Side D) (price : D) : Option D := side[price]?

/-- The levels of one side, prices ascending. -/
abbrev Side.levels {D : Type} [LinearOrder D] (side : Side D) : List (D × D) := side.toList

/-- `OrderBookTracker` (lines 86–99). -/
structure OrderBookTracker (D : Type) [LinearOrder D] where
  symbol : String
  bids : Side D
  asks : Side D
  lastUpdateId : Option ℕ
  lastTimestampMs : ℤ
  hasSnapshot : Bool

namespace OrderBookTracker

variable {F D : Type} [LinearOrder D] [Zero D] (tryFrom : F → Option D)

/-- `OrderBookTracker::new` (lines 103–112). -/
def new (symbol : String) : OrderBookTracker D :=
  { symbol := symbol, bids := ∅, asks := ∅, lastUpdateId := none, lastTimestampMs := 0,
    hasSnapshot := false }

/-- `to_decimal` (lines 270–272). -/
def toDecimal (v : F) : Except (OrderBookError F) D :=
  match tryFrom v with
  | some d => .ok d
  | none => .error (.invalidDecimal v)

/-- A `for level in levels` loop of either operation: convert the price, convert the
    size, then `write`. `?` leaves the loop with the side as written so far. -/
def applyLevels (write : Side D → D → D → Side D) (side : Side D) :
    List (OrderBookLevel F) → Side D × Except (OrderBookError F) Unit
  | [] => (side, .ok ())
  | level :: levels =>
    match toDecimal tryFrom level.price with
    | .error e => (side, .error e)
    | .ok price =>
      match toDecimal tryFrom level.size with
      | .error e => (side, .error e)
      | .ok qty => applyLevels write (write side price qty) levels

/-- The loop body of `apply_snapshot` (lines 131–133 and 138–140). -/
def insertPositive (side : Side D) (price qty : D) : Side D :=
  if 0 < qty then side.insert price qty else side

/-- The loop body of `apply_delta` (lines 172–176 and 181–185). -/
def setLevel (side : Side D) (price qty : D) : Side D :=
  if qty = 0 then side.erase price else side.insert price qty

/-- `apply_snapshot` (lines 124–147). -/
def applySnapshot (t : OrderBookTracker D) (snapshot : OrderBook F) :
    OrderBookTracker D × Except (OrderBookError F) Unit :=
  let t := { t with bids := ∅, asks := ∅ }
  match applyLevels tryFrom insertPositive t.bids snapshot.bids with
  | (bids, .error e) => ({ t with bids := bids }, .error e)
  | (bids, .ok ()) =>
    let t := { t with bids := bids }
    match applyLevels tryFrom insertPositive t.asks snapshot.asks with
    | (asks, .error e) => ({ t with asks := asks }, .error e)
    | (asks, .ok ()) =>
      ({ t with asks := asks, lastUpdateId := snapshot.lastUpdateId,
                lastTimestampMs := snapshot.timestamp, hasSnapshot := true }, .ok ())

/-- The sequence check of `apply_delta` (lines 163–167): the two ids of a gap. -/
def sequenceGap? (t : OrderBookTracker D) (delta : OrderbookDelta F) : Option (ℕ × ℕ) :=
  match t.lastUpdateId, delta.prevUpdateId with
  | some last, some prev => if prev ≠ last then some (last, prev) else none
  | _, _ => none

/-- `apply_delta` (lines 157–193). -/
def applyDelta (t : OrderBookTracker D) (delta : OrderbookDelta F) :
    OrderBookTracker D × Except (OrderBookError F) Unit :=
  if ¬ t.hasSnapshot then (t, .error .noSnapshot)
  else
    match t.sequenceGap? delta with
    | some (last, got) => (t, .error (.sequenceGap last got))
    | none =>
      match applyLevels tryFrom setLevel t.bids delta.bids with
      | (bids, .error e) => ({ t with bids := bids }, .error e)
      | (bids, .ok ()) =>
        let t := { t with bids := bids }
        match applyLevels tryFrom setLevel t.asks delta.asks with
        | (asks, .error e) => ({ t with asks := asks }, .error e)
        | (asks, .ok ()) =>
          ({ t with asks := asks, lastUpdateId := delta.lastUpdateId.or t.lastUpdateId,
                    lastTimestampMs := delta.timestamp }, .ok ())

/-- `reset` (lines 257–263). -/
def reset (t : OrderBookTracker D) : OrderBookTracker D :=
  { t with bids := ∅, asks := ∅, lastUpdateId := none, lastTimestampMs := 0,
           hasSnapshot := false }

/-- A call that changes the book. -/
inductive Update (F : Type) where
  | snapshot (s : OrderBook F)
  | delta (d : OrderbookDelta F)

/-- A call on the tracker. -/
inductive Call (F : Type) where
  | update (u : Update F)
  | reset

def applyUpdate (t : OrderBookTracker D) : Update F →
    OrderBookTracker D × Except (OrderBookError F) Unit
  | .snapshot s => t.applySnapshot tryFrom s
  | .delta d => t.applyDelta tryFrom d

def call (t : OrderBookTracker D) : Call F → OrderBookTracker D
  | .update u => (t.applyUpdate tryFrom u).1
  | .reset => t.reset

/-- The tracker after `calls`, whatever each of them returned. -/
def run (symbol : String) (calls : List (Call F)) : OrderBookTracker D :=
  calls.foldl (call tryFrom) (new symbol)

/-! ## Levels -/

/-- Both numbers of the level have a decimal value. -/
def Convertible (level : OrderBookLevel F) : Prop :=
  (tryFrom level.price).isSome ∧ (tryFrom level.size).isSome

instance (level : OrderBookLevel F) : Decidable (Convertible tryFrom level) :=
  inferInstanceAs (Decidable (_ ∧ _))

/-- The levels as decimals; a level without decimal values is dropped. -/
def decimals (levels : List (OrderBookLevel F)) : List (D × D) :=
  levels.filterMap fun level =>
    match tryFrom level.price, tryFrom level.size with
    | some price, some qty => some (price, qty)
    | _, _ => none

/-- All levels of one side convert. -/
def AllConvertible (levels : List (OrderBookLevel F)) : Prop :=
  ∀ level ∈ levels, Convertible tryFrom level

instance (levels : List (OrderBookLevel F)) : Decidable (AllConvertible tryFrom levels) :=
  inferInstanceAs (Decidable (∀ level ∈ levels, Convertible tryFrom level))

/-- The levels in front of the first one that does not convert. -/
def readable (levels : List (OrderBookLevel F)) : List (OrderBookLevel F) :=
  levels.takeWhile fun level => decide (Convertible tryFrom level)

/-- The levels that an update of `bids` and `asks` writes before it ends: asks are only
    looked at when every bid converts. -/
def written (bids asks : List (OrderBookLevel F)) : List (D × D) × List (D × D) :=
  (decimals tryFrom (readable tryFrom bids),
    if AllConvertible tryFrom bids then decimals tryFrom (readable tryFrom asks) else [])

/-- The side that a list of snapshot levels describes: the last positive quantity
    quoted at a price. -/
def snapshotSide (levels : List (D × D)) (price : D) : Option D :=
  lastWrite (levels.filter fun level => decide (0 < level.2)) price

/-- What a delta quantity leaves at its price: zero removes the price. -/
def held (qty : D) : Option D := if qty = 0 then none else some qty

/-- The side that delta levels make of `old`: the last quantity quoted at a price. -/
def deltaSide (old : D → Option D) (levels : List (D × D)) (price : D) : Option D :=
  match lastWrite levels price with
  | none => old price
  | some qty => held qty

/-- The delta levels leave `old` as it is: each price already has its last quantity. -/
def Restates (old : D → Option D) (levels : List (D × D)) : Prop :=
  ∀ price qty, lastWrite levels price = some qty → old price = held qty

variable {tryFrom}

omit [LinearOrder D] [Zero D] in
theorem toDecimal_of_some {v : F} {d : D} (h : tryFrom v = some d) :
    toDecimal tryFrom v = .ok d := by
  simp only [toDecimal, h]

omit [LinearOrder D] [Zero D] in
theorem toDecimal_of_none {v : F} (h : tryFrom v = none) :
    toDecimal tryFrom v = .error (.invalidDecimal v) := by
  simp only [toDecimal, h]

variable (tryFrom) in
omit [Zero D] in
/-- A loop over levels either writes all of them, or stops at one that does not convert
    with the levels in front of it written. -/
theorem applyLevels_spec (write : Side D → D → D → Side D) (side : Side D)
    (levels : List (OrderBookLevel F)) :
    (AllConvertible tryFrom levels ∧
      applyLevels tryFrom write side levels =
        ((decimals tryFrom levels).foldl (fun s pq => write s pq.1 pq.2) side, .ok ())) ∨
    (¬ AllConvertible tryFrom levels ∧ ∃ value,
      tryFrom value = none ∧ (∃ level ∈ levels, value = level.price ∨ value = level.size) ∧
      applyLevels tryFrom write side levels =
        ((decimals tryFrom (readable tryFrom levels)).foldl (fun s pq => write s pq.1 pq.2) side,
          .error (.invalidDecimal value))) := by
  induction levels generalizing side with
  | nil => exact .inl ⟨by simp [AllConvertible], rfl⟩
  | cons level levels ih =>
    rw [applyLevels]
    cases hp : tryFrom level.price with
    | none =>
      refine .inr ⟨fun h => ?_, level.price, hp, ⟨level, by simp, .inl rfl⟩, ?_⟩
      · have := (h level (by simp)).1
        simp [hp] at this
      · simp [toDecimal_of_none hp, readable, Convertible, hp, decimals]
    | some price =>
      rw [toDecimal_of_some hp]
      cases hq : tryFrom level.size with
      | none =>
        refine .inr ⟨fun h => ?_, level.size, hq, ⟨level, by simp, .inr rfl⟩, ?_⟩
        · have := (h level (by simp)).2
          simp [hq] at this
        · simp [toDecimal_of_none hq, readable, Convertible, hq, decimals]
      | some qty =>
        rw [toDecimal_of_some hq]
        have hconv : Convertible tryFrom level := by simp [Convertible, hp, hq]
        have hread : readable tryFrom (level :: levels) = level :: readable tryFrom levels := by
          simp [readable, hconv]
        have hdec : ∀ ls, decimals tryFrom (level :: ls) = (price, qty) :: decimals tryFrom ls := by
          intro ls
          simp [decimals, hp, hq]
        rcases ih (write side price qty) with ⟨hall, heq⟩ | ⟨hall, value, hv, ⟨l, hl, hlv⟩, heq⟩
        · exact .inl ⟨by simpa [AllConvertible, hconv] using hall,
            by simp only [heq, hdec, List.foldl_cons]⟩
        · refine .inr ⟨by simpa [AllConvertible, hconv] using hall, value, hv,
            ⟨l, by simp [hl], hlv⟩, ?_⟩
          simp only [heq, hread, hdec, List.foldl_cons]

/-! ## What the loops write -/

/-- `levels` written by the loop of `apply_snapshot`. -/
def insertAll (side : Side D) (levels : List (D × D)) : Side D :=
  levels.foldl (fun s pq => insertPositive s pq.1 pq.2) side

/-- `levels` written by the loop of `apply_delta`. -/
def setAll (side : Side D) (levels : List (D × D)) : Side D :=
  levels.foldl (fun s pq => setLevel s pq.1 pq.2) side

theorem insertAll_eq_applyWrites (side : Side D) (levels : List (D × D)) :
    insertAll side levels = applyWrites side
      ((levels.filter fun level => decide (0 < level.2)).map
        fun level => (level.1, some level.2)) := by
  unfold insertAll
  induction levels generalizing side with
  | nil => rfl
  | cons level levels ih =>
    rw [List.foldl_cons, ih, insertPositive]
    by_cases hpos : 0 < level.2
    · rw [if_pos hpos, List.filter_cons_of_pos (by simpa using hpos)]
      rfl
    · rw [if_neg hpos, List.filter_cons_of_neg (by simpa using hpos)]

theorem setAll_eq_applyWrites (side : Side D) (levels : List (D × D)) :
    setAll side levels = applyWrites side (levels.map fun level => (level.1, held level.2)) := by
  unfold setAll
  induction levels generalizing side with
  | nil => rfl
  | cons level levels ih =>
    rw [List.foldl_cons, ih, setLevel, List.map_cons, held]
    by_cases hz : level.2 = 0
    · rw [if_pos hz, if_pos hz]
      rfl
    · rw [if_neg hz, if_neg hz]
      rfl

theorem getElem?_insertAll (levels : List (D × D)) (price : D) :
    (insertAll ∅ levels)[price]? = snapshotSide levels price := by
  rw [insertAll_eq_applyWrites, getElem?_applyWrites, lastWrite_map, snapshotSide]
  cases lastWrite (levels.filter fun level => decide (0 < level.2)) price with
  | none => simp
  | some qty => rfl

theorem getElem?_setAll (side : Side D) (levels : List (D × D)) (price : D) :
    (setAll side levels)[price]? = deltaSide side.qtyAt levels price := by
  rw [setAll_eq_applyWrites, getElem?_applyWrites, lastWrite_map, deltaSide]
  cases lastWrite levels price with
  | none => rfl
  | some qty => rfl

/-- Filling an empty side rebuilds `side` when the levels describe `side`. -/
theorem insertAll_eq_iff (side : Side D) (levels : List (D × D)) :
    insertAll ∅ levels = side ↔ ∀ price, side[price]? = snapshotSide levels price := by
  constructor
  · rintro rfl price
    exact getElem?_insertAll levels price
  · intro h
    apply Std.ExtTreeMap.ext_getElem?
    intro price
    rw [getElem?_insertAll, h price]

theorem setAll_eq_self_iff (side : Side D) (levels : List (D × D)) :
    setAll side levels = side ↔ Restates side.qtyAt levels := by
  rw [setAll_eq_applyWrites, applyWrites_eq_self_iff]
  constructor
  · intro h price qty hq
    apply h price
    rw [lastWrite_map, hq]
    rfl
  · intro h price v hv
    rw [lastWrite_map] at hv
    obtain ⟨qty, hq, rfl⟩ := Option.map_eq_some_iff.mp hv
    exact h price qty hq

/-! ## What one update does -/

section

omit [LinearOrder D] [Zero D]

theorem readable_of_allConvertible {levels : List (OrderBookLevel F)}
    (h : AllConvertible tryFrom levels) : readable tryFrom levels = levels := by
  apply List.takeWhile_eq_self_iff.mpr
  intro level hl
  exact decide_eq_true (h level hl)

theorem written_of_allConvertible {bids asks : List (OrderBookLevel F)}
    (hb : AllConvertible tryFrom bids) :
    written tryFrom bids asks =
      (decimals tryFrom bids, decimals tryFrom (readable tryFrom asks)) := by
  rw [written, if_pos hb, readable_of_allConvertible hb]

theorem written_of_not {bids asks : List (OrderBookLevel F)}
    (hb : ¬ AllConvertible tryFrom bids) :
    written tryFrom bids asks = (decimals tryFrom (readable tryFrom bids), []) := by
  rw [written, if_neg hb]

end

variable (tryFrom) in
/-- `apply_snapshot` replaces the book, or fails on a level that does not convert with
    both sides cleared and refilled up to that level. -/
theorem applySnapshot_spec (t : OrderBookTracker D) (s : OrderBook F) :
    (AllConvertible tryFrom s.bids ∧ AllConvertible tryFrom s.asks ∧
      t.applySnapshot tryFrom s =
        ({ t with bids := insertAll ∅ (decimals tryFrom s.bids),
                  asks := insertAll ∅ (decimals tryFrom s.asks),
                  lastUpdateId := s.lastUpdateId, lastTimestampMs := s.timestamp,
                  hasSnapshot := true }, .ok ())) ∨
    (¬ (AllConvertible tryFrom s.bids ∧ AllConvertible tryFrom s.asks) ∧ ∃ value,
      tryFrom value = none ∧
      t.applySnapshot tryFrom s =
        ({ t with bids := insertAll ∅ (written tryFrom s.bids s.asks).1,
                  asks := insertAll ∅ (written tryFrom s.bids s.asks).2 },
          .error (.invalidDecimal value))) := by
  unfold applySnapshot
  rcases applyLevels_spec tryFrom insertPositive (∅ : Side D) s.bids with
    ⟨hb, heq⟩ | ⟨hb, value, hv, -, heq⟩
  · simp only [heq, written_of_allConvertible hb]
    rcases applyLevels_spec tryFrom insertPositive (∅ : Side D) s.asks with
      ⟨ha, heq'⟩ | ⟨ha, value, hv, -, heq'⟩
    · simp only [heq']
      exact .inl ⟨hb, ha, rfl⟩
    · simp only [heq']
      exact .inr ⟨fun h => ha h.2, value, hv, rfl⟩
  · simp only [heq, written_of_not hb]
    exact .inr ⟨fun h => hb h.1, value, hv, rfl⟩

variable (tryFrom) in
/-- `apply_delta` without a snapshot or across a gap leaves the tracker alone. Otherwise
    it writes its levels, or fails on one that does not convert with the levels in front
    of it written. -/
theorem applyDelta_spec (t : OrderBookTracker D) (d : OrderbookDelta F) :
    (¬ (t.hasSnapshot = true ∧ t.sequenceGap? d = none) ∧
      ∃ e, t.applyDelta tryFrom d = (t, .error e)) ∨
    (t.hasSnapshot = true ∧ t.sequenceGap? d = none ∧
      AllConvertible tryFrom d.bids ∧ AllConvertible tryFrom d.asks ∧
      t.applyDelta tryFrom d =
        ({ t with bids := setAll t.bids (decimals tryFrom d.bids),
                  asks := setAll t.asks (decimals tryFrom d.asks),
                  lastUpdateId := d.lastUpdateId.or t.lastUpdateId,
                  lastTimestampMs := d.timestamp }, .ok ())) ∨
    (t.hasSnapshot = true ∧ t.sequenceGap? d = none ∧
      ¬ (AllConvertible tryFrom d.bids ∧ AllConvertible tryFrom d.asks) ∧ ∃ value,
      tryFrom value = none ∧
      t.applyDelta tryFrom d =
        ({ t with bids := setAll t.bids (written tryFrom d.bids d.asks).1,
                  asks := setAll t.asks (written tryFrom d.bids d.asks).2 },
          .error (.invalidDecimal value))) := by
  unfold applyDelta
  by_cases hs : t.hasSnapshot = true
  · rw [if_neg (by simp [hs])]
    cases hgap : t.sequenceGap? d with
    | some ids => exact .inl ⟨by simp, _, rfl⟩
    | none =>
      refine .inr ?_
      rcases applyLevels_spec tryFrom setLevel t.bids d.bids with
        ⟨hb, heq⟩ | ⟨hb, value, hv, -, heq⟩
      · rw [heq, written_of_allConvertible hb]
        rcases applyLevels_spec tryFrom setLevel t.asks d.asks with
          ⟨ha, heq'⟩ | ⟨ha, value, hv, -, heq'⟩
        · simp only [heq']
          exact .inl ⟨hs, trivial, hb, ha, rfl⟩
        · simp only [heq']
          exact .inr ⟨hs, trivial, fun h => ha h.2, value, hv, rfl⟩
      · rw [heq, written_of_not hb]
        exact .inr ⟨hs, rfl, fun h => hb h.1, value, hv, rfl⟩
  · rw [if_pos hs]
    exact .inl ⟨fun h => hs h.1, _, rfl⟩

/-! ## All or nothing -/

section

variable (tryFrom) (t : OrderBookTracker D)

/-- The bids an update describes, as a lookup by price. -/
def describedBids : Update F → D → Option D
  | .snapshot s => snapshotSide (decimals tryFrom s.bids)
  | .delta d => deltaSide (Side.qtyAt t.bids) (decimals tryFrom d.bids)

/-- The asks an update describes, as a lookup by price. -/
def describedAsks : Update F → D → Option D
  | .snapshot s => snapshotSide (decimals tryFrom s.asks)
  | .delta d => deltaSide (Side.qtyAt t.asks) (decimals tryFrom d.asks)

/-- An update that returns an error leaves the tracker as it was; one that succeeds
    leaves the book it describes. -/
def AllOrNothing (u : Update F) : Prop :=
  (∀ e, (t.applyUpdate tryFrom u).2 = .error e → (t.applyUpdate tryFrom u).1 = t) ∧
  ((t.applyUpdate tryFrom u).2 = .ok () → ∀ price,
    (t.applyUpdate tryFrom u).1.bids[price]? = describedBids tryFrom t u price ∧
    (t.applyUpdate tryFrom u).1.asks[price]? = describedAsks tryFrom t u price)

/-- The update is rejected before it writes, or all its levels convert, or the levels in
    front of the first one that does not convert say what the book holds already. -/
def WritesSafely : Update F → Prop
  | .snapshot s =>
    (AllConvertible tryFrom s.bids ∧ AllConvertible tryFrom s.asks) ∨
    ((∀ price, t.bids[price]? = snapshotSide (written tryFrom s.bids s.asks).1 price) ∧
      ∀ price, t.asks[price]? = snapshotSide (written tryFrom s.bids s.asks).2 price)
  | .delta d =>
    ¬ (t.hasSnapshot = true ∧ t.sequenceGap? d = none) ∨
    (AllConvertible tryFrom d.bids ∧ AllConvertible tryFrom d.asks) ∨
    (Restates (Side.qtyAt t.bids) (written tryFrom d.bids d.asks).1 ∧
      Restates (Side.qtyAt t.asks) (written tryFrom d.bids d.asks).2)

end

omit [Zero D] in
/-- A failed update that only rewrote the two sides changed nothing exactly when it
    rewrote them as they were. -/
theorem setSides_eq_self_iff (t : OrderBookTracker D) (bids asks : Side D) :
    { t with bids := bids, asks := asks } = t ↔ bids = t.bids ∧ asks = t.asks := by
  constructor
  · intro h
    exact ⟨congrArg OrderBookTracker.bids h, congrArg OrderBookTracker.asks h⟩
  · rintro ⟨rfl, rfl⟩
    rfl

theorem allOrNothing_snapshot_iff (t : OrderBookTracker D) (s : OrderBook F) :
    AllOrNothing tryFrom t (.snapshot s) ↔ WritesSafely tryFrom t (.snapshot s) := by
  simp only [AllOrNothing, WritesSafely, applyUpdate]
  rcases t.applySnapshot_spec tryFrom s with ⟨hb, ha, heq⟩ | ⟨hconv, value, -, heq⟩
  · simp only [heq, reduceCtorEq, false_implies, implies_true, true_and, hb, ha, true_or, iff_true]
    intro _ price
    exact ⟨getElem?_insertAll _ price, getElem?_insertAll _ price⟩
  · simp only [heq, Except.error.injEq, forall_eq', reduceCtorEq, false_implies, and_true, hconv,
      false_or]
    rw [setSides_eq_self_iff t, insertAll_eq_iff, insertAll_eq_iff]

theorem allOrNothing_delta_iff (t : OrderBookTracker D) (d : OrderbookDelta F) :
    AllOrNothing tryFrom t (.delta d) ↔ WritesSafely tryFrom t (.delta d) := by
  simp only [AllOrNothing, WritesSafely, applyUpdate]
  rcases t.applyDelta_spec tryFrom d with
    ⟨hrej, e, heq⟩ | ⟨hs, hgap, hb, ha, heq⟩ | ⟨hs, hgap, hconv, value, -, heq⟩
  · simp only [heq, implies_true, reduceCtorEq, false_implies, and_true, hrej, not_false_eq_true,
      true_or]
  · simp only [heq, reduceCtorEq, false_implies, implies_true, true_and, hb, ha, true_or, or_true,
      iff_true]
    intro _ price
    exact ⟨getElem?_setAll _ _ price, getElem?_setAll _ _ price⟩
  · have hpass : ¬ ¬ (t.hasSnapshot = true ∧ t.sequenceGap? d = none) := not_not_intro ⟨hs, hgap⟩
    simp only [heq, Except.error.injEq, forall_eq', reduceCtorEq, false_implies, and_true, hconv,
      hpass, false_or]
    rw [setSides_eq_self_iff t, setAll_eq_self_iff, setAll_eq_self_iff]

/-- **Main theorem.** In every reachable state an update is all-or-nothing exactly when it
    is rejected before it writes, or has no level that fails to convert, or writes only
    what the book holds already. -/
theorem updates_all_or_nothing_iff (tryFrom : F → Option D) (symbol : String)
    (calls : List (Call F)) (u : Update F) :
    AllOrNothing tryFrom (run tryFrom symbol calls) u ↔
      WritesSafely tryFrom (run tryFrom symbol calls) u := by
  cases u with
  | snapshot s => exact allOrNothing_snapshot_iff _ s
  | delta d => exact allOrNothing_delta_iff _ d

/-- A snapshot whose first bid has no decimal value, after one that filled the book: it
    returns `InvalidDecimal` and the book is empty. -/
theorem not_allOrNothing_of_invalid_level :
    ¬ AllOrNothing (F := Option ℚ) (D := ℚ) id
      (run id "BTCUSDT" [.update (.snapshot ⟨[⟨some 100, some 1⟩], [⟨some 101, some 1⟩], 1, none⟩)])
      (.snapshot ⟨[⟨none, some 1⟩], [], 2, none⟩) := by
  intro h
  have hunchanged := congrArg (fun t => t.bids[(100 : ℚ)]?) (h.1 (.invalidDecimal none) rfl)
  revert hunchanged
  decide +kernel

/-! ## What the book holds -/

/-- No price of a side has quantity zero. -/
def NonzeroSide (side : D → Option D) : Prop := ∀ price qty, side price = some qty → qty ≠ 0

theorem snapshotSide_nonzero (levels : List (D × D)) : NonzeroSide (snapshotSide levels) := by
  unfold NonzeroSide snapshotSide
  intro price qty h
  have hpos := lastWrite_mem h
  rw [List.mem_filter, decide_eq_true_eq] at hpos
  exact hpos.2.ne'

theorem deltaSide_nonzero {old : D → Option D} (hold : NonzeroSide old)
    (levels : List (D × D)) : NonzeroSide (deltaSide old levels) := by
  intro price qty h
  rw [deltaSide] at h
  cases hw : lastWrite levels price with
  | none =>
    rw [hw] at h
    exact hold price qty h
  | some q =>
    rw [hw] at h
    simp only [held] at h
    split_ifs at h with hz
    cases h
    exact hz

theorem insertAll_nonzero (levels : List (D × D)) :
    NonzeroSide (Side.qtyAt (insertAll ∅ levels)) := by
  intro price qty h
  rw [Side.qtyAt, getElem?_insertAll] at h
  exact snapshotSide_nonzero levels price qty h

theorem setAll_nonzero {side : Side D} (h : NonzeroSide side.qtyAt)
    (levels : List (D × D)) : NonzeroSide (Side.qtyAt (setAll side levels)) := by
  intro price qty hq
  rw [Side.qtyAt, getElem?_setAll] at hq
  exact deltaSide_nonzero h levels price qty hq

/-- Neither side holds a level of quantity zero. -/
structure NonzeroLevels (t : OrderBookTracker D) : Prop where
  bids : NonzeroSide (Side.qtyAt t.bids)
  asks : NonzeroSide (Side.qtyAt t.asks)

/-- Every call keeps zero quantities out, also one that fails half way. -/
theorem nonzeroLevels_call {t : OrderBookTracker D} (h : NonzeroLevels t) (c : Call F) :
    NonzeroLevels (t.call tryFrom c) := by
  match c with
  | .reset => exact ⟨insertAll_nonzero [], insertAll_nonzero []⟩
  | .update (.snapshot s) =>
    rw [call, applyUpdate]
    rcases t.applySnapshot_spec tryFrom s with ⟨-, -, heq⟩ | ⟨-, value, -, heq⟩
    · rw [heq]
      exact ⟨insertAll_nonzero _, insertAll_nonzero _⟩
    · rw [heq]
      exact ⟨insertAll_nonzero _, insertAll_nonzero _⟩
  | .update (.delta d) =>
    rw [call, applyUpdate]
    rcases t.applyDelta_spec tryFrom d with
      ⟨-, e, heq⟩ | ⟨-, -, -, -, heq⟩ | ⟨-, -, -, value, -, heq⟩
    · rw [heq]
      exact h
    · rw [heq]
      exact ⟨setAll_nonzero h.bids _, setAll_nonzero h.asks _⟩
    · rw [heq]
      exact ⟨setAll_nonzero h.bids _, setAll_nonzero h.asks _⟩

theorem nonzeroLevels_run (tryFrom : F → Option D) (symbol : String) (calls : List (Call F)) :
    NonzeroLevels (run tryFrom symbol calls) := by
  induction calls using List.reverseRecOn with
  | nil => exact ⟨insertAll_nonzero [], insertAll_nonzero []⟩
  | append_singleton calls c ih =>
    rw [run, List.foldl_append]
    exact nonzeroLevels_call ih c

/-- A delta that is accepted names the book's last update, when both say which one. -/
theorem lastUpdateId_of_applyDelta {t : OrderBookTracker D} {d : OrderbookDelta F}
    {last prev : ℕ} (hok : (t.applyDelta tryFrom d).2 = .ok ())
    (hlast : t.lastUpdateId = some last) (hprev : d.prevUpdateId = some prev) :
    prev = last ∧ (t.applyDelta tryFrom d).1.lastUpdateId = d.lastUpdateId.or (some last) := by
  rcases t.applyDelta_spec tryFrom d with
    ⟨-, e, heq⟩ | ⟨-, hgap, -, -, heq⟩ | ⟨-, -, -, value, -, heq⟩
  · rw [heq] at hok
    cases hok
  · rw [sequenceGap?, hlast, hprev] at hgap
    simp only [ne_eq, ite_not, ite_eq_left_iff, reduceCtorEq, imp_false, not_not] at hgap
    exact ⟨hgap, by rw [heq, ← hlast]⟩
  · rw [heq] at hok
    cases hok

end OrderBookTracker

end Digdigdig3
