import Digdigdig3.Data.OrderBookPoints
import Digdigdig3.Data.TextPoints
import Digdigdig3.Data.FundingRateFull
import Digdigdig3.Data.TpoSession

/-!
# Which points with a blob read back

* `blobPoint_roundTrips_iff`: the exact condition, for all eight codecs.
* `not_roundTrips_of_empty_method`: a record with an empty string reads back without it.
-/

namespace Digdigdig3.Data

/-- A point of any type that has a blob. -/
inductive BlobPoint
  | obSnapshot (p : ObSnapshotPoint)
  | obDelta (p : ObDeltaPoint)
  | obSnapshotIndicators (p : ObSnapshotIndicatorsPoint)
  | footprint (p : FootprintPoint)
  | tpoSession (p : TpoSessionPoint)
  | orderbookL3 (p : OrderbookL3Point)
  | marketWarning (p : MarketWarningPoint)
  | fundingRateFull (p : FundingRateFullPoint)

namespace BlobPoint

/-- `Φ` of the point and the codec of its type. -/
def With (Φ : {P : Type} → BlobCodec P → P → Prop) : BlobPoint → Prop
  | .obSnapshot p => Φ Data.obSnapshot p
  | .obDelta p => Φ Data.obDelta p
  | .obSnapshotIndicators p => Φ Data.obSnapshotIndicators p
  | .footprint p => Φ Data.footprint p
  | .tpoSession p => Φ Data.tpoSession p
  | .orderbookL3 p => Φ Data.orderbookL3 p
  | .marketWarning p => Φ Data.marketWarning p
  | .fundingRateFull p => Φ Data.fundingRateFull p

/-- The level and row counts fit their `u32`. -/
def CountsFit : BlobPoint → Prop
  | .obSnapshot p => p.bids.length < 2 ^ 32 ∧ p.asks.length < 2 ^ 32
  | .obDelta p => p.bidChanges.length < 2 ^ 32 ∧ p.askChanges.length < 2 ^ 32
  | .obSnapshotIndicators p => p.bids.length < 2 ^ 32 ∧ p.asks.length < 2 ^ 32
  | .footprint p => p.levels.length < 2 ^ 32
  | .tpoSession p => p.rows.length < 2 ^ 32
  | _ => True

/-- `decode_blob` returns the point that was encoded, whatever the pointer is, in a build with
    or without `debug_assert`s. -/
def RoundTrips (debug : Bool) (b : BlobPoint) : Prop :=
  b.With fun C p => ∀ off len, C.roundTrip debug p off len = some (some p)

/-- `encode` writes no byte of the 12 that are the pointer's. -/
def HeaderApart (b : BlobPoint) : Prop :=
  b.With fun C p => ∀ f ∈ C.fields p, f.1 + f.2.length ≤ C.tailOff ∨ C.tailOff + 12 ≤ f.1

/-- What a point must not contain: an optional integer `i64::MIN`, a string of 64 KiB or more,
    an optional string that is empty, a row of `2^16` letters or with a letter from 256 on; and
    a full funding record must not meet its `debug_assert`s. -/
def Kept (debug : Bool) : BlobPoint → Prop
  | .obSnapshot _ => True
  | .obDelta _ => True
  | .obSnapshotIndicators p =>
    p.cts ≠ some Int64.minValue ∧ p.prevChangeId ≠ some Int64.minValue
  | .footprint _ => True
  | .tpoSession p => ∀ row ∈ p.rows, KeptRow row
  | .orderbookL3 p => (utf8 p.orderId).length < 2 ^ 16 ∧ (utf8 p.action).length < 2 ^ 16
  | .marketWarning p => (utf8 p.warningKind).length < 2 ^ 16 ∧ (utf8 p.message).length < 2 ^ 16
  | .fundingRateFull p =>
    debug = false ∧
      (p.nextFundingTimeMs ≠ some Int64.minValue ∧ p.prevFundingTime ≠ some Int64.minValue ∧
        p.fundingStep ≠ some Int64.minValue) ∧ ∀ s ∈ p.strs, KeptStr s

theorem headerApart (b : BlobPoint) : b.HeaderApart := by
  have h : ∀ {P : Type} (C : BlobCodec P) (p : P),
      ∀ f ∈ C.fields p, f.1 + f.2.length ≤ C.tailOff ∨ C.tailOff + 12 ≤ f.1 :=
    fun C p f hf => .inl (C.mem_le hf)
  cases b <;> exact h _ _

theorem roundTrips_iff (debug : Bool) (b : BlobPoint) (h : b.CountsFit) :
    b.RoundTrips debug ↔ b.Kept debug := by
  have hasserts : ∀ {P : Type} (C : BlobCodec P) (p : P), C.debugAsserts = true →
      ((∀ off len, C.roundTrip debug p off len = some (some p)) ↔ C.ReadsBack p) := by
    intro P C p hC
    rw [C.roundTrip_eq_iff]
    exact and_iff_right fun _ => hC
  cases b with
  | obSnapshot p =>
    exact (hasserts Data.obSnapshot p rfl).trans
      (iff_true_intro (obSnapshot_readsBack h.1 h.2))
  | obDelta p =>
    exact (hasserts Data.obDelta p rfl).trans (iff_true_intro (obDelta_readsBack h.1 h.2))
  | obSnapshotIndicators p =>
    exact (hasserts Data.obSnapshotIndicators p rfl).trans
      (obSnapshotIndicators_readsBack_iff h.1 h.2)
  | footprint p =>
    exact (hasserts Data.footprint p rfl).trans (iff_true_intro (footprint_readsBack h))
  | tpoSession p => exact (hasserts Data.tpoSession p rfl).trans (tpoSession_readsBack_iff h)
  | orderbookL3 p =>
    exact (hasserts Data.orderbookL3 p rfl).trans (orderbookL3_readsBack_iff p)
  | marketWarning p =>
    exact (hasserts Data.marketWarning p rfl).trans (marketWarning_readsBack_iff p)
  | fundingRateFull p =>
    have hasserts : Data.fundingRateFull.debugAsserts = false := rfl
    refine (Data.fundingRateFull.roundTrip_eq_iff debug p).trans (and_congr ?_ ?_)
    · rw [hasserts]
      simp
    · exact fundingRateFull_readsBack_iff p

end BlobPoint

/-- **Main theorem.** A point reads back, from a header whose pointer `encode` leaves alone,
    exactly when it contains nothing its codec drops. -/
theorem blobPoint_roundTrips_iff (debug : Bool) (b : BlobPoint) (h : b.CountsFit) :
    b.RoundTrips debug ∧ b.HeaderApart ↔ b.Kept debug :=
  (and_iff_left b.headerApart).trans (b.roundTrips_iff debug h)

/-- A full funding record with no more than its method. -/
def fundingWithMethod (method : Option String) : FundingRateFullPoint where
  tsMs := 0
  rate := 0
  nextFundingTimeMs := none
  markPrice := 0
  indexPrice := 0
  prevIndexPrice := 0
  realizedRate := 0
  estimatedRate := 0
  premium := 0
  interestRate := 0
  interest1h := 0
  interest8h := 0
  relativeFundingRate := 0
  avgPremiumIndex := 0
  impactValue := 0
  fundingIntervalHours := 0
  maxFundingRate := 0
  minFundingRate := 0
  settFundingRate := 0
  nextFundingRate := 0
  prevFundingTime := none
  accruedFunding := 0
  fundingStep := none
  symbol := none
  settState := none
  method := method
  formulaType := none
  feeAsset := none

theorem blobPoint_roundTrips_iff_method :
    (BlobPoint.fundingRateFull (fundingWithMethod (some "a"))).RoundTrips false ∧
        (BlobPoint.fundingRateFull (fundingWithMethod (some "a"))).HeaderApart ↔
      (BlobPoint.fundingRateFull (fundingWithMethod (some "a"))).Kept false :=
  blobPoint_roundTrips_iff false _ trivial

/-- `Some("")` is written like `None`. -/
theorem not_roundTrips_of_empty_method :
    (BlobPoint.fundingRateFull (fundingWithMethod (some ""))).CountsFit ∧
      ¬ (BlobPoint.fundingRateFull (fundingWithMethod (some ""))).RoundTrips false := by
  refine ⟨trivial, fun h => ?_⟩
  have hread : Data.fundingRateFull.roundTrip false (fundingWithMethod (some "")) 0 0 =
      some (some (fundingWithMethod (some ""))) := h 0 0
  have hlost : Data.fundingRateFull.roundTrip false (fundingWithMethod (some "")) 0 0 =
      some (some (fundingWithMethod none)) := by
    decide +kernel
  rw [hlost] at hread
  exact absurd hread (by decide +kernel)

end Digdigdig3.Data
