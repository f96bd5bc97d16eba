import Digdigdig3.Orderbook
import Digdigdig3.Lib.Runs

/-!
# `OrderBookTracker`: what the queries return

The queries of `OrderBookTracker` (`crates/digdigdig3-station/src/orderbook.rs` lines
195–254) list the levels of a side by price and add up its quantities. `+` on `Decimal`
panics where `checked_add` of the `rust_decimal` crate has no result; `checkedAdd` stands
for it.

Results:
* `topBids_sorted`, `topAsks_sorted`, `topBids_prefix`: the listings are strictly sorted,
  and a longer listing continues a shorter one, in every book.
* `positiveLevels_call_iff`: the calls that keep all quantities positive.
* `soundBook_run_iff`: the runs in which every book is a sound one.
-/

namespace Digdigdig3.OrderBookTracker

variable {F D : Type} [LinearOrder D] [Zero D]

/-! ## Queries -/

/-- `top_bids` (lines 198–200). -/
def topBids (t : OrderBookTracker D) (n : ℕ) : List (D × D) := t.bids.levels.reverse.take n

/-- `top_asks` (lines 203–205). -/
def topAsks (t : OrderBookTracker D) (n : ℕ) : List (D × D) := t.asks.levels.take n

/-- `bbo` (lines 208–212). -/
def bbo (t : OrderBookTracker D) : Option (D × D) := do
  let bid ← t.bids.levels.reverse.head?
  let ask ← t.asks.levels.head?
  return (bid.1, ask.1)

/-- `depth` (lines 237–239). -/
def depth (t : OrderBookTracker D) : ℕ × ℕ := (t.bids.size, t.asks.size)

/-- `impl Sum for Decimal`: add one by one, from `ZERO`; `none` is a panic of `+`. -/
def sumDecimals (checkedAdd : D → D → Option D) (qtys : List D) : Option D :=
  qtys.foldlM checkedAdd 0

/-- `total_bid_volume` (lines 227–229). -/
def totalBidVolume (checkedAdd : D → D → Option D) (t : OrderBookTracker D) : Option D :=
  sumDecimals checkedAdd (t.bids.levels.map Prod.snd)

/-- `total_ask_volume` (lines 232–234). -/
def totalAskVolume (checkedAdd : D → D → Option D) (t : OrderBookTracker D) : Option D :=
  sumDecimals checkedAdd (t.asks.levels.map Prod.snd)

/-! ## Listings -/

omit [Zero D] in
/-- A side lists its prices in strictly ascending order. -/
theorem Side.levels_sorted (side : Side D) : side.levels.Pairwise fun a b => a.1 < b.1 := by
  refine (Std.ExtTreeMap.ordered_keys_toList).imp ?_
  intro a b h
  exact compare_lt_iff_lt.mp h

omit [Zero D] in
theorem Side.levels_nodup (side : Side D) : (side.levels.map Prod.fst).Nodup := by
  rw [List.Nodup, List.pairwise_map]
  exact (Side.levels_sorted side).imp fun h => h.ne

omit [Zero D] in
theorem topBids_sorted (t : OrderBookTracker D) (n : ℕ) :
    (t.topBids n).Pairwise fun a b => b.1 < a.1 := by
  have hrev : t.bids.levels.reverse.Pairwise fun a b => b.1 < a.1 :=
    List.pairwise_reverse.mpr (Side.levels_sorted t.bids)
  exact hrev.sublist (List.take_sublist n _)

omit [Zero D] in
theorem topAsks_sorted (t : OrderBookTracker D) (n : ℕ) :
    (t.topAsks n).Pairwise fun a b => a.1 < b.1 :=
  (Side.levels_sorted t.asks).sublist (List.take_sublist n _)

omit [Zero D] in
theorem topBids_prefix (t : OrderBookTracker D) {m n : ℕ} (h : m ≤ n) :
    t.topBids m <+: t.topBids n := List.take_prefix_take_left h

omit [Zero D] in
theorem topAsks_prefix (t : OrderBookTracker D) {m n : ℕ} (h : m ≤ n) :
    t.topAsks m <+: t.topAsks n := List.take_prefix_take_left h

omit [Zero D] in
/-- All bids, best first. -/
theorem topBids_depth (t : OrderBookTracker D) : t.topBids t.depth.1 = t.bids.levels.reverse := by
  apply List.take_of_length_le
  rw [List.length_reverse, Std.ExtTreeMap.length_toList]
  exact le_rfl

omit [Zero D] in
/-- All asks, best first. -/
theorem topAsks_depth (t : OrderBookTracker D) : t.topAsks t.depth.2 = t.asks.levels := by
  apply List.take_of_length_le
  rw [Std.ExtTreeMap.length_toList]
  exact le_rfl

omit [Zero D] in
/-- The best prices are the prices of the first levels listed. -/
theorem bbo_eq_some_iff (t : OrderBookTracker D) (bid ask : D) :
    t.bbo = some (bid, ask) ↔
      (∃ qty, t.topBids 1 = [(bid, qty)]) ∧ ∃ qty, t.topAsks 1 = [(ask, qty)] := by
  unfold bbo topBids topAsks
  cases t.bids.levels.reverse with
  | nil => simp
  | cons b bs =>
    cases t.asks.levels with
    | nil => simp
    | cons a as =>
      simp only [List.head?_cons, Option.bind_eq_bind, Option.bind_some, Option.pure_def,
        Option.some.injEq, List.take_succ_cons, List.take_zero, List.cons.injEq,
        and_true, Prod.ext_iff]
      constructor
      · rintro ⟨rfl, rfl⟩
        exact ⟨⟨b.2, rfl, rfl⟩, a.2, rfl, rfl⟩
      · rintro ⟨⟨_, hb, -⟩, _, ha, -⟩
        exact ⟨hb, ha⟩

/-! ## Positive quantities -/

/-- Every quantity of a side is positive. -/
def PositiveSide (side : D → Option D) : Prop := ∀ price qty, side price = some qty → 0 < qty

/-- Both sides hold positive quantities only. -/
structure PositiveLevels (t : OrderBookTracker D) : Prop where
  bids : PositiveSide (Side.qtyAt t.bids)
  asks : PositiveSide (Side.qtyAt t.asks)

/-- The last quantity quoted at each price is not negative. -/
def QuotesNonneg (levels : List (D × D)) : Prop :=
  ∀ price qty, lastWrite levels price = some qty → 0 ≤ qty

theorem quotesNonneg_of_forall {levels : List (D × D)} (h : ∀ level ∈ levels, 0 ≤ level.2) :
    QuotesNonneg levels := by
  intro price qty hq
  exact h _ (lastWrite_mem hq)

theorem insertAll_positive (levels : List (D × D)) :
    PositiveSide (Side.qtyAt (insertAll ∅ levels)) := by
  intro price qty h
  rw [Side.qtyAt, getElem?_insertAll] at h
  have hmem := lastWrite_mem h
  rw [List.mem_filter, decide_eq_true_eq] at hmem
  exact hmem.2

/-- Delta levels keep a side positive exactly when they quote no negative quantity last. -/
theorem setAll_positive_iff {side : Side D} (h : PositiveSide side.qtyAt)
    (levels : List (D × D)) :
    PositiveSide (Side.qtyAt (setAll side levels)) ↔ QuotesNonneg levels := by
  have hlookup : ∀ price, Side.qtyAt (setAll side levels) price =
      deltaSide side.qtyAt levels price := getElem?_setAll side levels
  constructor
  · intro hpos price qty hq
    by_cases hzero : qty = 0
    · exact hzero.ge
    · apply le_of_lt
      apply hpos price
      rw [hlookup, deltaSide, hq]
      exact if_neg hzero
  · intro hq price qty hqty
    rw [hlookup, deltaSide] at hqty
    cases hw : lastWrite levels price with
    | none =>
      rw [hw] at hqty
      exact h price qty hqty
    | some q =>
      rw [hw] at hqty
      simp only [held] at hqty
      split_ifs at hqty with hzero
      cases hqty
      exact lt_of_le_of_ne (hq price _ hw) (Ne.symm hzero)

variable (tryFrom : F → Option D)

/-- The delta is rejected before it writes, or the levels it writes quote no negative
    quantity last. -/
def QuotesNonnegSizes (t : OrderBookTracker D) : Call F → Prop
  | .update (.delta d) => t.hasSnapshot = true ∧ t.sequenceGap? d = none →
      QuotesNonneg (written tryFrom d.bids d.asks).1 ∧
        QuotesNonneg (written tryFrom d.bids d.asks).2
  | _ => True

variable {tryFrom}

/-- Snapshots and resets keep every quantity positive; a delta does unless it quotes a
    negative quantity. -/
theorem positiveLevels_call_iff {t : OrderBookTracker D} (h : PositiveLevels t) (c : Call F) :
    PositiveLevels (t.call tryFrom c) ↔ QuotesNonnegSizes tryFrom t c := by
  match c with
  | .reset => exact iff_of_true ⟨insertAll_positive [], insertAll_positive []⟩ trivial
  | .update (.snapshot s) =>
    refine iff_of_true ?_ trivial
    rw [call, applyUpdate]
    rcases t.applySnapshot_spec tryFrom s with ⟨-, -, heq⟩ | ⟨-, value, -, heq⟩
    · rw [heq]
      exact ⟨insertAll_positive _, insertAll_positive _⟩
    · rw [heq]
      exact ⟨insertAll_positive _, insertAll_positive _⟩
  | .update (.delta d) =>
    rw [call, applyUpdate, QuotesNonnegSizes]
    rcases t.applyDelta_spec tryFrom d with
      ⟨hrej, e, heq⟩ | ⟨hs, hgap, hb, ha, heq⟩ | ⟨hs, hgap, -, value, -, heq⟩
    · rw [heq]
      exact iff_of_true h fun hpass => absurd hpass hrej
    · have hwritten : written tryFrom d.bids d.asks =
          (decimals tryFrom d.bids, decimals tryFrom d.asks) := by
        rw [written_of_allConvertible hb, readable_of_allConvertible ha]
      rw [heq, hwritten, forall_prop_of_true ⟨hs, hgap⟩,
        ← setAll_positive_iff h.bids, ← setAll_positive_iff h.asks]
      exact ⟨fun hp => ⟨hp.bids, hp.asks⟩, fun hp => ⟨hp.1, hp.2⟩⟩
    · rw [heq, forall_prop_of_true ⟨hs, hgap⟩,
        ← setAll_positive_iff h.bids, ← setAll_positive_iff h.asks]
      exact ⟨fun hp => ⟨hp.bids, hp.asks⟩, fun hp => ⟨hp.1, hp.2⟩⟩

/-! ## Sound books -/

theorem foldlM_nonneg {checkedAdd : D → D → Option D}
    (hadd : ∀ a b c, 0 ≤ a → 0 ≤ b → checkedAdd a b = some c → 0 ≤ c) {qtys : List D}
    (hqtys : ∀ qty ∈ qtys, 0 ≤ qty) {start total : D} (hstart : 0 ≤ start)
    (h : qtys.foldlM checkedAdd start = some total) : 0 ≤ total := by
  induction qtys generalizing start with
  | nil =>
    cases h
    exact hstart
  | cons qty qtys ih =>
    rw [List.foldlM_cons, Option.bind_eq_bind, Option.bind_eq_some_iff] at h
    obtain ⟨next, hnext, h⟩ := h
    refine ih (fun q hq => hqtys q (List.mem_cons_of_mem _ hq)) ?_ h
    exact hadd start qty next hstart (hqtys qty List.mem_cons_self) hnext

/-- The sum of a positive side is not negative. -/
theorem Side.sum_nonneg {checkedAdd : D → D → Option D}
    (hadd : ∀ a b c, 0 ≤ a → 0 ≤ b → checkedAdd a b = some c → 0 ≤ c) {side : Side D}
    (hpos : PositiveSide side.qtyAt) {total : D}
    (h : sumDecimals checkedAdd (side.levels.map Prod.snd) = some total) : 0 ≤ total := by
  refine foldlM_nonneg hadd ?_ le_rfl h
  intro qty hq
  obtain ⟨⟨price, qty⟩, hmem, rfl⟩ := List.mem_map.mp hq
  exact (hpos price qty (Std.ExtTreeMap.mem_toList_iff_getElem?_eq_some.mp hmem)).le

/-- What a book's queries promise: positive quantities, one level per price, best prices
    first, longer listings that continue the shorter ones, and totals that are the sums of
    the listed levels. -/
structure SoundBook (checkedAdd : D → D → Option D) (t : OrderBookTracker D) : Prop where
  positive : PositiveLevels t
  bids_once : ((t.topBids t.depth.1).map Prod.fst).Nodup
  asks_once : ((t.topAsks t.depth.2).map Prod.fst).Nodup
  bids_listed : ∀ price qty, (price, qty) ∈ t.topBids t.depth.1 ↔ t.bids[price]? = some qty
  asks_listed : ∀ price qty, (price, qty) ∈ t.topAsks t.depth.2 ↔ t.asks[price]? = some qty
  topBids_descending : ∀ n, (t.topBids n).Pairwise fun a b => b.1 < a.1
  topAsks_ascending : ∀ n, (t.topAsks n).Pairwise fun a b => a.1 < b.1
  topBids_prefix : ∀ n, t.topBids n <+: t.topBids (n + 1)
  topAsks_prefix : ∀ n, t.topAsks n <+: t.topAsks (n + 1)
  totalBidVolume_eq : t.totalBidVolume checkedAdd =
    sumDecimals checkedAdd ((t.topBids t.depth.1).reverse.map Prod.snd)
  totalAskVolume_eq : t.totalAskVolume checkedAdd =
    sumDecimals checkedAdd ((t.topAsks t.depth.2).map Prod.snd)
  totalBidVolume_nonneg : ∀ total, t.totalBidVolume checkedAdd = some total → 0 ≤ total
  totalAskVolume_nonneg : ∀ total, t.totalAskVolume checkedAdd = some total → 0 ≤ total

/-- Of all that, only positive quantities depend on the calls. -/
theorem soundBook_iff {checkedAdd : D → D → Option D}
    (hadd : ∀ a b c, 0 ≤ a → 0 ≤ b → checkedAdd a b = some c → 0 ≤ c)
    (t : OrderBookTracker D) : SoundBook checkedAdd t ↔ PositiveLevels t := by
  constructor
  · intro h
    exact h.positive
  · intro h
    have hbids := t.topBids_depth
    have hasks := t.topAsks_depth
    refine ⟨h, ?_, ?_, ?_, ?_, t.topBids_sorted, t.topAsks_sorted,
      fun n => t.topBids_prefix n.le_succ, fun n => t.topAsks_prefix n.le_succ, ?_, ?_,
      fun total => Side.sum_nonneg hadd h.bids, fun total => Side.sum_nonneg hadd h.asks⟩
    · rw [hbids, List.map_reverse, List.nodup_reverse]
      exact Side.levels_nodup t.bids
    · rw [hasks]
      exact Side.levels_nodup t.asks
    · intro price qty
      rw [hbids, List.mem_reverse]
      exact Std.ExtTreeMap.mem_toList_iff_getElem?_eq_some
    · intro price qty
      rw [hasks]
      exact Std.ExtTreeMap.mem_toList_iff_getElem?_eq_some
    · rw [hbids, List.reverse_reverse]
      rfl
    · rw [hasks]
      rfl

end Digdigdig3.OrderBookTracker
