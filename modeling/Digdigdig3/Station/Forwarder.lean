import Digdigdig3.Core.StreamEvent
import Digdigdig3.Series.Key
import Digdigdig3.Series.Series

/-!
# Forwarders on a shared connector

Every live series has a forwarder (`spawn_forwarder`,
`crates/digdigdig3-station/src/station.rs` lines 3070–3400) that sees the whole event
stream of its connector, keeps the events for its key and hands each point to the disk
store, the ring and the broadcast channel. The model is the live loop on delivered events.

Public events are routed by symbol, up to ASCII case. Private events and venue-wide
warnings carry no routing symbol and go to every forwarder of their kind.

Results:
* `fromStreamEvent_eq`: the events a forwarder can convert are those of its kind, with
  whatever interval.
* `eventMatchesKey_iff`: the events the routing lets through.
* `isSome_pointClass_of_wsBacked`, `ownPoint_isSome_iff`: every kind that is served from the
  stream has a point type, and every event of a series a point in it.
* `onEvent_eq`, `deliverAll_isolated`: what one event, and a sequence of events, does to
  the forwarders.
* `ring_emitAll`: what is left in the ring of a series without bars.
-/

namespace Digdigdig3.Station

open Digdigdig3.Series (Kind SeriesKey)

variable {Data : EventClass → Type} {P : Type}

/-! ## Routing -/

/-- `str::eq_ignore_ascii_case`. -/
def eqIgnoreAsciiCase (s t : String) : Bool :=
  decide (s.toList.map Char.toLower = t.toList.map Char.toLower)

/-- `event_raw_symbol` (lines 3522–3561). -/
def eventRawSymbol : StreamEvent Data → Option String
  | .trade symbol _ => some symbol
  | .aggTrade symbol _ => some symbol
  | .ticker symbol _ => some symbol
  | .kline symbol _ _ => some symbol
  | .orderbookSnapshot symbol _ => some symbol
  | .orderbookDelta symbol _ => some symbol
  | .markPrice symbol _ => some symbol
  | .fundingRate symbol _ => some symbol
  | .openInterestUpdate symbol _ => some symbol
  | .liquidation symbol _ => some symbol
  | .longShortRatio symbol _ => some symbol
  | .markPriceKline symbol _ _ => some symbol
  | .indexPriceKline symbol _ _ => some symbol
  | .premiumIndexKline symbol _ _ => some symbol
  | .indexPrice symbol _ => some symbol
  | .historicalVolatility symbol _ => some symbol
  | .insuranceFund symbol _ => some symbol
  | .basis symbol _ => some symbol
  | .optionGreeks symbol _ => some symbol
  | .volatilityIndex symbol _ => some symbol
  | .blockTrade symbol _ => some symbol
  | .auctionEvent symbol _ => some symbol
  | .marketWarning symbol _ => symbol
  | .orderbookL3 symbol _ => some symbol
  | .settlementEvent symbol _ => some symbol
  | .riskLimit symbol _ => some symbol
  | .predictedFunding symbol _ => some symbol
  | .fundingSettlement symbol _ => some symbol
  | .compositeIndex symbol _ => some symbol
  | .orderUpdate _ _ => none
  | .balanceUpdate _ => none
  | .positionUpdate _ _ => none
  | .batch _ => none

/-- `event_matches_key` (lines 3509–3518). -/
def eventMatchesKey (ev : StreamEvent Data) (key : SeriesKey) : Bool :=
  match eventRawSymbol ev with
  | some s => if s = "" then true else eqIgnoreAsciiCase s key.symbol
  | none => true

/-- The variant that the point type of a kind is made from: the type with which
    `acquire_or_spawn` spawns the forwarder (lines 1909–2137) and the variant that its
    `from_stream_event` matches. -/
def pointClass : Kind → Option EventClass
  | .trade => some .trade
  | .aggTrade => some .aggTrade
  | .kline _ => some .kline
  | .ticker => some .ticker
  | .orderbook => some .orderbookSnapshot
  | .orderbookDelta => some .orderbookDelta
  | .markPrice => some .markPrice
  | .fundingRate => some .fundingRate
  | .openInterest => some .openInterestUpdate
  | .liquidation => some .liquidation
  | .blockTrade => some .blockTrade
  | .auctionEvent => some .auctionEvent
  | .indexPrice => some .indexPrice
  | .compositeIndex => some .compositeIndex
  | .optionGreeks => some .optionGreeks
  | .volatilityIndex => some .volatilityIndex
  | .historicalVolatility => some .historicalVolatility
  | .longShortRatio => some .longShortRatio
  | .basis => some .basis
  | .insuranceFund => some .insuranceFund
  | .orderbookL3 => some .orderbookL3
  | .settlementEvent => some .settlementEvent
  | .marketWarning => some .marketWarning
  | .riskLimit => some .riskLimit
  | .predictedFunding => some .predictedFunding
  | .fundingSettlement => some .fundingSettlement
  | .markPriceKline _ => some .markPriceKline
  | .indexPriceKline _ => some .indexPriceKline
  | .premiumIndexKline _ => some .premiumIndexKline
  | .orderUpdate => some .orderUpdate
  | .balanceUpdate => some .balanceUpdate
  | .positionUpdate => some .positionUpdate
  | _ => none

/-- What the data modules make of a payload, and the timestamp of a point. -/
structure PointTypes (Data : EventClass → Type) (P : Type) where
  convert : (c : EventClass) → Data c → P
  timestampMs : P → ℤ

variable (T : PointTypes Data P)

/-- `T::from_stream_event` for the point type of `kind`. -/
def fromStreamEvent (kind : Kind) (ev : StreamEvent Data) : Option P :=
  match pointClass kind with
  | none => none
  | some c => (ev.payload? c).map (T.convert c)

/-! ## The live loop -/

/-- A forwarder: the points it has handed to its disk store (`none` without persistence),
    its ring, and the points it has broadcast. -/
structure Forwarder (P : Type) where
  key : SeriesKey
  disk : Option (List P)
  ring : Series P
  broadcast : List P
  lastEmittedMs : ℤ

/-- `spawn_forwarder` in front of the live loop (lines 3098–3180). `store` is the tail that
    the disk store reads on opening, `none` without persistence. -/
def Forwarder.spawn (key : SeriesKey) (warm : ℕ) (store : Option (List P)) (restSeed : List P) :
    Forwarder P :=
  let ring := Series.new warm
  if warm = 0 then
    { key := key, disk := store.map fun _ => [], ring := ring, broadcast := [],
      lastEmittedMs := 0 }
  else
    let diskTail := store.getD []
    let seedPoints := if diskTail.isEmpty ∧ ¬ restSeed.isEmpty then restSeed else diskTail
    { key := key, disk := store.map fun _ => [], ring := ring.seed seedPoints,
      broadcast := seedPoints,
      lastEmittedMs := seedPoints.foldl (fun ms point => max ms (T.timestampMs point)) 0 }

/-- The ring operation of a kind (lines 3364–3371): bars of one `open_time` replace each
    other. -/
def storePoint (kind : Kind) (ring : Series P) (point : P) : Series P :=
  if kind.isKlineFamily then ring.upsertByTs T.timestampMs point else ring.push point

/-- A point on its way to disk, ring and channel (lines 3335–3374). -/
def Forwarder.emit (f : Forwarder P) (point : P) : Forwarder P :=
  { f with
    disk := f.disk.map fun points => points ++ [point]
    ring := storePoint T f.key.kind f.ring point
    broadcast := f.broadcast ++ [point]
    lastEmittedMs := max f.lastEmittedMs (T.timestampMs point) }

/-- The live loop on one event (lines 3326–3374). -/
def Forwarder.onEvent (f : Forwarder P) (ev : StreamEvent Data) : Forwarder P :=
  if ¬ eventMatchesKey ev f.key then f
  else
    match fromStreamEvent T f.key.kind ev with
    | none => f
    | some point => f.emit T point

/-- All forwarders of a connector on the same events. -/
def deliverAll (fs : List (Forwarder P)) (evs : List (StreamEvent Data)) :
    List (Forwarder P) :=
  evs.foldl (fun fs ev => fs.map fun f => f.onEvent T ev) fs

/-! ## Which events belong to a series -/

/-- The kind of series an event is a point of. -/
def kind? : StreamEvent Data → Option Kind
  | .ticker _ _ => some .ticker
  | .trade _ _ => some .trade
  | .orderbookSnapshot _ _ => some .orderbook
  | .orderbookDelta _ _ => some .orderbookDelta
  | .kline _ interval _ => some (.kline interval)
  | .markPrice _ _ => some .markPrice
  | .fundingRate _ _ => some .fundingRate
  | .liquidation _ _ => some .liquidation
  | .openInterestUpdate _ _ => some .openInterest
  | .longShortRatio _ _ => some .longShortRatio
  | .aggTrade _ _ => some .aggTrade
  | .compositeIndex _ _ => some .compositeIndex
  | .markPriceKline _ interval _ => some (.markPriceKline interval)
  | .indexPriceKline _ interval _ => some (.indexPriceKline interval)
  | .premiumIndexKline _ interval _ => some (.premiumIndexKline interval)
  | .indexPrice _ _ => some .indexPrice
  | .historicalVolatility _ _ => some .historicalVolatility
  | .insuranceFund _ _ => some .insuranceFund
  | .basis _ _ => some .basis
  | .optionGreeks _ _ => some .optionGreeks
  | .volatilityIndex _ _ => some .volatilityIndex
  | .blockTrade _ _ => some .blockTrade
  | .auctionEvent _ _ => some .auctionEvent
  | .marketWarning _ _ => some .marketWarning
  | .orderbookL3 _ _ => some .orderbookL3
  | .settlementEvent _ _ => some .settlementEvent
  | .riskLimit _ _ => some .riskLimit
  | .predictedFunding _ _ => some .predictedFunding
  | .fundingSettlement _ _ => some .fundingSettlement
  | .orderUpdate _ _ => some .orderUpdate
  | .balanceUpdate _ => some .balanceUpdate
  | .positionUpdate _ _ => some .positionUpdate
  | .batch _ => none

/-- A kline kind without its interval; any other kind as it is. -/
def eraseInterval : Kind → Kind
  | .kline _ => .kline ⟨""⟩
  | .markPriceKline _ => .markPriceKline ⟨""⟩
  | .indexPriceKline _ => .indexPriceKline ⟨""⟩
  | .premiumIndexKline _ => .premiumIndexKline ⟨""⟩
  | k => k

/-- The erased kind that is made from a variant. -/
def kindOf : EventClass → Kind
  | .ticker => .ticker
  | .trade => .trade
  | .orderbookSnapshot => .orderbook
  | .orderbookDelta => .orderbookDelta
  | .kline => .kline ⟨""⟩
  | .markPrice => .markPrice
  | .fundingRate => .fundingRate
  | .liquidation => .liquidation
  | .openInterestUpdate => .openInterest
  | .longShortRatio => .longShortRatio
  | .aggTrade => .aggTrade
  | .compositeIndex => .compositeIndex
  | .markPriceKline => .markPriceKline ⟨""⟩
  | .indexPriceKline => .indexPriceKline ⟨""⟩
  | .premiumIndexKline => .premiumIndexKline ⟨""⟩
  | .indexPrice => .indexPrice
  | .historicalVolatility => .historicalVolatility
  | .insuranceFund => .insuranceFund
  | .basis => .basis
  | .optionGreeks => .optionGreeks
  | .volatilityIndex => .volatilityIndex
  | .blockTrade => .blockTrade
  | .auctionEvent => .auctionEvent
  | .marketWarning => .marketWarning
  | .orderbookL3 => .orderbookL3
  | .settlementEvent => .settlementEvent
  | .riskLimit => .riskLimit
  | .predictedFunding => .predictedFunding
  | .fundingSettlement => .fundingSettlement
  | .orderUpdate => .orderUpdate
  | .balanceUpdate => .balanceUpdate
  | .positionUpdate => .positionUpdate

/-- Events of the account, not of an instrument. -/
def isPrivate : StreamEvent Data → Bool
  | .orderUpdate _ _ | .balanceUpdate _ | .positionUpdate _ _ => true
  | _ => false

/-- The symbol an event carries, private or not. -/
def carriedSymbol? : StreamEvent Data → Option String
  | .orderUpdate symbol _ => some symbol
  | .positionUpdate symbol _ => some symbol
  | ev => eventRawSymbol ev

/-- The event is for the series of an instrument: a private event or a venue-wide warning
    is for all of them, another event for those of its symbol. -/
def Concerns (ev : StreamEvent Data) (key : SeriesKey) : Prop :=
  isPrivate ev = true ∨
    (carriedSymbol? ev).all (fun symbol => eqIgnoreAsciiCase symbol key.symbol) = true

instance (ev : StreamEvent Data) (key : SeriesKey) : Decidable (Concerns ev key) :=
  inferInstanceAs (Decidable (_ ∨ _))

/-- The point that an event carries. -/
def pointOf (ev : StreamEvent Data) : Option P :=
  ev.leaf?.map fun leaf => T.convert leaf.1 leaf.2

/-- The point of an event that belongs to the series of `key`: of its kind, interval
    included, and for its instrument. -/
def ownPoint (key : SeriesKey) (ev : StreamEvent Data) : Option P :=
  if kind? ev = some key.kind ∧ Concerns ev key then pointOf T ev else none

/-! ## The conversion never sees the interval -/

theorem class?_eq_bind (ev : StreamEvent Data) : ev.class? = (kind? ev).bind pointClass := by
  cases ev <;> rfl

theorem pointClass_eraseInterval (k : Kind) : pointClass (eraseInterval k) = pointClass k := by
  cases k <;> rfl

theorem kindOf_of_pointClass {k : Kind} {c : EventClass} (h : pointClass k = some c) :
    kindOf c = eraseInterval k := by
  cases k <;> cases h <;> rfl

theorem isSome_pointClass_of_kind? {ev : StreamEvent Data} {k : Kind} (h : kind? ev = some k) :
    (pointClass k).isSome := by
  cases ev <;> cases h <;> rfl

theorem pointClass_eq_of_erased {k k' : Kind} (h : eraseInterval k = eraseInterval k') :
    pointClass k = pointClass k' := by
  rw [← pointClass_eraseInterval k, h, pointClass_eraseInterval]

theorem payload?_map_convert {ev : StreamEvent Data} {c : EventClass}
    (h : ev.class? = some c) : (ev.payload? c).map (T.convert c) = pointOf T ev := by
  obtain ⟨⟨c', data⟩, hleaf, hc⟩ := Option.map_eq_some_iff.mp h
  simp only at hc
  subst hc
  simp only [StreamEvent.payload?, pointOf, hleaf, dite_true, Option.map_some]

/-- The variant of an event is the one of a kind exactly when the two agree up to the
    interval. -/
theorem class?_eq_pointClass_iff {kind : Kind} {c : EventClass} (hc : pointClass kind = some c)
    (ev : StreamEvent Data) :
    ev.class? = some c ↔ (kind? ev).map eraseInterval = some (eraseInterval kind) := by
  rw [class?_eq_bind]
  constructor
  · intro h
    obtain ⟨k, hk, hkc⟩ := Option.bind_eq_some_iff.mp h
    rw [hk, Option.map_some, ← kindOf_of_pointClass hkc, ← kindOf_of_pointClass hc]
  · intro h
    obtain ⟨k, hk, herase⟩ := Option.map_eq_some_iff.mp h
    rw [hk, Option.bind_some, pointClass_eq_of_erased herase, hc]

/-- A forwarder converts the events of its kind, with whatever interval, and no others. -/
theorem fromStreamEvent_eq (kind : Kind) (ev : StreamEvent Data) :
    fromStreamEvent T kind ev =
      if (kind? ev).map eraseInterval = some (eraseInterval kind) then pointOf T ev else none := by
  unfold fromStreamEvent
  cases hc : pointClass kind with
  | none =>
    rw [if_neg]
    intro h
    obtain ⟨k, hk, herase⟩ := Option.map_eq_some_iff.mp h
    have hsome := isSome_pointClass_of_kind? hk
    rw [pointClass_eq_of_erased herase, hc] at hsome
    cases hsome
  | some c =>
    simp only
    by_cases h : ev.class? = some c
    · rw [if_pos ((class?_eq_pointClass_iff hc ev).mp h), payload?_map_convert T h]
    · rw [if_neg (mt (class?_eq_pointClass_iff hc ev).mpr h)]
      have hnone : ev.payload? c = none := by
        rw [← Option.not_isSome_iff_eq_none, StreamEvent.payload?_isSome_iff]
        exact h
      rw [hnone, Option.map_none]

/-- Every kind that is served from the event stream has a point type made from it. -/
theorem isSome_pointClass_of_wsBacked {k : Kind} (h : k.WsBacked) : (pointClass k).isSome := by
  obtain ⟨hderived, hpoll⟩ := h
  cases k <;> first | rfl | (cases hderived; done) | simp [Kind.isPollOnly] at hpoll

theorem isSome_leaf?_of_kind? {ev : StreamEvent Data} {k : Kind} (h : kind? ev = some k) :
    ev.leaf?.isSome := by
  cases ev <;> cases h <;> rfl

/-- Every event that belongs to a series has a point in it. -/
theorem ownPoint_isSome_iff (key : SeriesKey) (ev : StreamEvent Data) :
    (ownPoint T key ev).isSome ↔ kind? ev = some key.kind ∧ Concerns ev key := by
  unfold ownPoint
  by_cases h : kind? ev = some key.kind ∧ Concerns ev key
  · rw [if_pos h, pointOf, Option.isSome_map]
    exact iff_of_true (isSome_leaf?_of_kind? h.1) h
  · rw [if_neg h]
    exact iff_of_false (by simp) h

/-! ## Routing by symbol -/

theorem eventRawSymbol_eq (ev : StreamEvent Data) :
    eventRawSymbol ev = if isPrivate ev then none else carriedSymbol? ev := by
  cases ev <;> rfl

/-- Apart from events whose symbol the parser could not extract, the routing lets exactly
    the events through that concern the instrument. -/
theorem eventMatchesKey_iff {ev : StreamEvent Data} (hev : carriedSymbol? ev ≠ some "")
    (key : SeriesKey) : eventMatchesKey ev key = true ↔ Concerns ev key := by
  unfold eventMatchesKey Concerns
  rw [eventRawSymbol_eq]
  by_cases hp : isPrivate ev = true
  · simp [hp]
  · rw [if_neg hp]
    cases hs : carriedSymbol? ev with
    | none => simp
    | some symbol =>
      have hne : symbol ≠ "" := fun h => hev (by rw [hs, h])
      simp [hp, hne]

/-! ## Isolation -/

/-- A forwarder after it has emitted `points`. -/
def Forwarder.emitAll (f : Forwarder P) (points : List P) : Forwarder P :=
  { f with
    disk := f.disk.map fun old => old ++ points
    ring := points.foldl (storePoint T f.key.kind) f.ring
    broadcast := f.broadcast ++ points
    lastEmittedMs := points.foldl (fun ms point => max ms (T.timestampMs point)) f.lastEmittedMs }

theorem emitAll_nil (f : Forwarder P) : f.emitAll T [] = f := by
  unfold Forwarder.emitAll
  cases h : f.disk with
  | none => simp [← h]
  | some points => simp [← h]

theorem emitAll_emitAll (f : Forwarder P) (points points' : List P) :
    (f.emitAll T points).emitAll T points' = f.emitAll T (points ++ points') := by
  have hcomp : ((fun old => old ++ points') ∘ fun old => old ++ points) =
      fun old => old ++ (points ++ points') := by
    funext old
    exact List.append_assoc old points points'
  unfold Forwarder.emitAll
  simp only [Option.map_map, List.foldl_append, List.append_assoc, hcomp]

theorem emit_eq_emitAll (f : Forwarder P) (point : P) : f.emit T point = f.emitAll T [point] := rfl

/-- The ring of a series without bars holds the newest points. -/
theorem ring_emitAll {f : Forwarder P} (hkind : f.key.kind.isKlineFamily = false)
    (points : List P) : (f.emitAll T points).ring.ring =
      (f.ring.ring ++ points).drop ((f.ring.ring ++ points).length - f.ring.capacity) := by
  have hpush : storePoint T f.key.kind = Series.push := by
    funext ring point
    simp only [storePoint, hkind, Bool.false_eq_true, if_false]
  show (points.foldl (storePoint T f.key.kind) f.ring).ring = _
  rw [hpush]
  exact f.ring.ring_pushAll points

/-- What one event does to a forwarder, if the events of the forwarder's kind and
    instrument are those of its interval. -/
theorem onEvent_eq {f : Forwarder P} {ev : StreamEvent Data} (hsymbol : carriedSymbol? ev ≠ some "")
    (hinterval : ∀ k, kind? ev = some k → Concerns ev f.key →
      eraseInterval k = eraseInterval f.key.kind → k = f.key.kind) :
    f.onEvent T ev = f.emitAll T (ownPoint T f.key ev).toList := by
  unfold Forwarder.onEvent
  by_cases hmatch : eventMatchesKey ev f.key = true
  · have hconcerns := (eventMatchesKey_iff hsymbol f.key).mp hmatch
    have hiff : (kind? ev).map eraseInterval = some (eraseInterval f.key.kind) ↔
        kind? ev = some f.key.kind ∧ Concerns ev f.key := by
      constructor
      · intro h
        obtain ⟨k, hk, herase⟩ := Option.map_eq_some_iff.mp h
        rw [hk, hinterval k hk hconcerns herase]
        exact ⟨rfl, hconcerns⟩
      · rintro ⟨hk, -⟩
        rw [hk, Option.map_some]
    have hpoint : fromStreamEvent T f.key.kind ev = ownPoint T f.key ev := by
      rw [fromStreamEvent_eq, ownPoint]
      exact if_congr hiff rfl rfl
    rw [if_neg (not_not_intro hmatch), hpoint]
    cases ownPoint T f.key ev with
    | none => exact (emitAll_nil T f).symm
    | some point => exact emit_eq_emitAll T f point
  · have hnot : ¬ Concerns ev f.key := mt (eventMatchesKey_iff hsymbol f.key).mpr hmatch
    rw [if_pos hmatch, ownPoint, if_neg fun h => hnot h.2]
    exact (emitAll_nil T f).symm

/-- A forwarder on a sequence of events. -/
def Forwarder.onEvents (f : Forwarder P) (evs : List (StreamEvent Data)) : Forwarder P :=
  evs.foldl (fun f ev => f.onEvent T ev) f

/-- No forwarder sees what another one does. -/
theorem deliverAll_eq_map (fs : List (Forwarder P)) (evs : List (StreamEvent Data)) :
    deliverAll T fs evs = fs.map fun f => f.onEvents T evs := by
  unfold deliverAll Forwarder.onEvents
  induction evs generalizing fs with
  | nil => simp only [List.foldl_nil, List.map_id']
  | cons ev evs ih => simp only [List.foldl_cons, ih, List.map_map, Function.comp_def]

/-- What a sequence of events does to a forwarder, if the events of the forwarder's kind
    and instrument are those of its interval. -/
theorem onEvents_eq {f : Forwarder P} {evs : List (StreamEvent Data)}
    (hsymbol : ∀ ev ∈ evs, carriedSymbol? ev ≠ some "")
    (hinterval : ∀ ev ∈ evs, ∀ k, kind? ev = some k → Concerns ev f.key →
      eraseInterval k = eraseInterval f.key.kind → k = f.key.kind) :
    f.onEvents T evs = f.emitAll T (evs.filterMap (ownPoint T f.key)) := by
  unfold Forwarder.onEvents
  induction evs generalizing f with
  | nil =>
    rw [List.foldl_nil, List.filterMap_nil]
    exact (emitAll_nil T f).symm
  | cons ev evs ih =>
    have hstep := onEvent_eq T (hsymbol ev List.mem_cons_self)
      (hinterval ev List.mem_cons_self)
    have htail := ih (f := f.emitAll T (ownPoint T f.key ev).toList)
      (fun ev' hev' => hsymbol ev' (List.mem_cons_of_mem _ hev'))
      (fun ev' hev' => hinterval ev' (List.mem_cons_of_mem _ hev'))
    rw [List.foldl_cons, hstep, htail]
    show (f.emitAll T _).emitAll T (evs.filterMap (ownPoint T f.key)) = _
    rw [emitAll_emitAll]
    congr 1
    cases h : ownPoint T f.key ev with
    | none =>
      rw [List.filterMap_cons_none h]
      rfl
    | some point =>
      rw [List.filterMap_cons_some h]
      rfl

/-- **Main theorem.** A forwarder that shares a connector with others ends with exactly its
    own points on disk, in the ring and on the channel, in order and each once, whatever
    the other series are, if every event carries its symbol and the kline events of the
    series' kind and instrument carry the interval of the series. -/
theorem deliverAll_isolated (T : PointTypes Data P) (fs : List (Forwarder P))
    (evs : List (StreamEvent Data)) (hsymbol : ∀ ev ∈ evs, carriedSymbol? ev ≠ some "")
    (i : ℕ) (f : Forwarder P) (hf : fs[i]? = some f)
    (hinterval : ∀ ev ∈ evs, ∀ k, kind? ev = some k → Concerns ev f.key →
      eraseInterval k = eraseInterval f.key.kind → k = f.key.kind) :
    (deliverAll T fs evs)[i]? = some
      { f with
        disk := f.disk.map fun points => points ++ evs.filterMap (ownPoint T f.key)
        ring := (evs.filterMap (ownPoint T f.key)).foldl (storePoint T f.key.kind) f.ring
        broadcast := f.broadcast ++ evs.filterMap (ownPoint T f.key)
        lastEmittedMs := (evs.filterMap (ownPoint T f.key)).foldl
          (fun ms point => max ms (T.timestampMs point)) f.lastEmittedMs } := by
  rw [deliverAll_eq_map, List.getElem?_map, hf, Option.map_some, onEvents_eq T hsymbol hinterval]
  rfl

/-- Two bar series of one symbol that mix their intervals leave the trades of another
    symbol alone; the payload of an event is its timestamp. -/
theorem deliverAll_isolated_two_series :
    let T : PointTypes (fun _ => ℕ) ℕ := ⟨fun _ data => data, fun point => point⟩
    let bars : SeriesKey := ⟨.binance, .spot, "BTCUSDT", .kline ⟨"1m"⟩⟩
    let trades : SeriesKey := ⟨.binance, .spot, "ETHUSDT", .trade⟩
    let fs := [Forwarder.spawn T bars 8 (some []) [], Forwarder.spawn T trades 8 (some [0]) []]
    let evs : List (StreamEvent fun _ => ℕ) :=
      [.kline "BTCUSDT" ⟨"1m"⟩ 1, .trade "ethusdt" 2, .kline "BTCUSDT" ⟨"5m"⟩ 3,
        .trade "BTCUSDT" 4, .trade "ETHUSDT" 5]
    ((deliverAll T fs evs)[1]?).map (fun f => (f.disk, f.broadcast)) =
      some (some [2, 5], [0, 2, 5]) := by
  intro T bars trades fs evs
  have hinterval : ∀ ev ∈ evs, ∀ k, kind? ev = some k → Concerns ev trades →
      eraseInterval k = eraseInterval trades.kind → k = trades.kind := by
    intro ev hev k hk _ herase
    simp only [evs, List.mem_cons, List.not_mem_nil, or_false] at hev
    rcases hev with rfl | rfl | rfl | rfl | rfl <;> cases hk <;> first | rfl | cases herase
  rw [deliverAll_isolated T fs evs (by decide) 1
    (Forwarder.spawn T trades 8 (some [0]) []) rfl hinterval]
  decide

/-- A position of `ETHUSDT` enters the position series of `BTCUSDT`. -/
theorem other_symbol_enters_position_series :
    let T : PointTypes (fun _ => ℕ) ℕ := ⟨fun _ data => data, fun point => point⟩
    let key : SeriesKey := ⟨.binance, .futuresCross, "BTCUSDT", .positionUpdate⟩
    let ev : StreamEvent fun _ => ℕ := .positionUpdate "ETHUSDT" 7
    carriedSymbol? ev = some "ETHUSDT" ∧
      (deliverAll T [Forwarder.spawn T key 8 (some []) []] [ev]).map
        (fun f => (f.disk, f.broadcast)) = [(some [7], [7])] := by
  decide

end Digdigdig3.Station
