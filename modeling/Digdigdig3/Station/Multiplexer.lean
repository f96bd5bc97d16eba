import Digdigdig3.Core.StreamSpec
import Digdigdig3.Derived.Basic
import Digdigdig3.Lib.Registry
import Digdigdig3.Lib.Runs
import Digdigdig3.Series.Key

/-!
# `Station`: multiplexers, their forwarders and references

`acquire_or_spawn` with its derived and polled variants, `release_consumer`,
`force_unsubscribe_and_await`, `MultiplexRef::drop` and the ends of the forwarders
(`crates/digdigdig3-station/src/station.rs`, `polling.rs`, `subscription.rs`) as one step
function. An acquire, a grace timer and a forwarder are tasks: what one of them does between
two of its awaits is one step, and any task may take the next step.

Numbers name the tasks and the connectors. What the code keeps of a channel or of a oneshot
is the number of the forwarder or timer at its other end.

* `StationInner`, `StationInner.apply`: the maps of the station, and what is done to them.
* `Station`, `Station.step`: the acquires and connectors around them.
-/

namespace Digdigdig3.Multiplex

open Series (Kind SeriesKey)

/-! ## The maps -/

/-- Who keeps a reference: a subscriber its `MultiplexRef` (`subscription.rs` lines
    861–872), a forwarder one of its `upstream_keys`, and an acquire one that it is going to
    return or to pass to the forwarder it spawns. -/
inductive Holder
  | subscriber
  | acquire (t : ℕ)
  | forwarder (i : ℕ)
  deriving DecidableEq

/-- A reference. Its forwarder is ghost: the code keeps the key alone. -/
abbrev MultiplexRef := Lease SeriesKey Holder

/-- `Multiplexer` (lines 162–175): the forwarder at the other end of `tx` and `shutdown`, and
    the timer at the other end of `grace_cancel`. -/
structure Multiplexer where
  inst : ℕ
  consumers : ℕ
  graceCancel : Option ℕ

/-- Where the events of a forwarder come from: a connector, other forwarders, or polls. -/
inductive Feed
  | ws (connector : ℕ)
  | derived
  | poll
  deriving DecidableEq

/-- Pollers keep no `Series` and have no entry in `series_handles`. -/
def Feed.hasRing : Feed → Bool
  | ws _ | derived => true
  | poll => false

/-- A forwarder is in its loop, or has left it, or has returned. -/
inductive Phase
  | running | stopping | exited
  deriving DecidableEq

/-- A task of `spawn_forwarder`, `spawn_derived_forwarder` or `spawn_poller`. -/
structure ForwarderTask where
  key : SeriesKey
  feed : Feed
  phase : Phase
  /-- Its `shutdown_rx` is ready. -/
  signalled : Bool
  /-- An awaiter has taken its exit ack. -/
  ackTaken : Bool
  /-- It has a store and so a `flush_rx`. -/
  flushRx : Bool

/-- A grace timer of `release_consumer` that has not returned. -/
structure GraceTimer where
  key : SeriesKey
  cancelled : Bool

/-- The maps of `StationInner` (lines 74–130), the forwarders and timers, and the references
    that are out. Forwarders and timers are numbered together; numbers from `next` on are
    not in use. -/
structure StationInner where
  next : ℕ
  muxes : SeriesKey → Option Multiplexer
  seriesHandles : SeriesKey → Option ℕ
  exitAcks : SeriesKey → Option ℕ
  flushHandles : SeriesKey → Option ℕ
  forwarders : ℕ → Option ForwarderTask
  timers : ℕ → Option GraceTimer
  refs : List MultiplexRef

/-- The largest `usize` of a 64-bit target. -/
def usizeMax : ℕ := 2 ^ 64 - 1

namespace StationInner

def init : StationInner :=
  { next := 0, muxes := fun _ => none, seriesHandles := fun _ => none
    exitAcks := fun _ => none, flushHandles := fun _ => none, forwarders := fun _ => none
    timers := fun _ => none, refs := [] }

/-- Change the forwarder `i`. -/
def modify (forwarders : ℕ → Option ForwarderTask) (i : ℕ) (f : ForwarderTask → ForwarderTask) :
    ℕ → Option ForwarderTask :=
  Function.update forwarders i ((forwarders i).map f)

/-- Fire or drop `shutdown`: its receiver is ready in both cases. -/
def signal (forwarders : ℕ → Option ForwarderTask) (i : ℕ) : ℕ → Option ForwarderTask :=
  modify forwarders i fun f => { f with signalled := true }

/-- Fire or drop `grace_cancel`. -/
def cancel (timers : ℕ → Option GraceTimer) : Option ℕ → ℕ → Option GraceTimer
  | none => timers
  | some t =>
    Function.update timers t ((timers t).map fun timer => { timer with cancelled := true })

/-- `muxes.remove(key)`, with the multiplexer dropped or its `shutdown` sent. -/
def removeMux (s : StationInner) (key : SeriesKey) : StationInner :=
  match s.muxes key with
  | none => s
  | some mux =>
    { s with
      muxes := Function.update s.muxes key none
      forwarders := signal s.forwarders mux.inst
      timers := cancel s.timers mux.graceCancel }

theorem modify_of_ne {forwarders : ℕ → Option ForwarderTask} {i j : ℕ} (h : j ≠ i)
    (f : ForwarderTask → ForwarderTask) : modify forwarders i f j = forwarders j :=
  Function.update_of_ne h _ _

theorem modify_self {forwarders : ℕ → Option ForwarderTask} {i : ℕ}
    (f : ForwarderTask → ForwarderTask) : modify forwarders i f i = (forwarders i).map f :=
  Function.update_self _ _ _

theorem removeMux_of_none {s : StationInner} {key : SeriesKey} (h : s.muxes key = none) :
    s.removeMux key = s := by
  simp only [removeMux, h]

theorem removeMux_of_some {s : StationInner} {key : SeriesKey} {mux : Multiplexer}
    (h : s.muxes key = some mux) :
    s.removeMux key =
      { s with
        muxes := Function.update s.muxes key none
        forwarders := signal s.forwarders mux.inst
        timers := cancel s.timers mux.graceCancel } := by
  simp only [removeMux, h]

/-- The hit path of `acquire_or_spawn` (lines 1674–1684). -/
def reuse (s : StationInner) (key : SeriesKey) (holder : Holder) : StationInner :=
  match s.muxes key with
  | none => s
  | some mux =>
    { s with
      muxes := Function.update s.muxes key
        (some { mux with consumers := mux.consumers + 1, graceCancel := none })
      timers := cancel s.timers mux.graceCancel
      refs := { key, inst := mux.inst, holder } :: s.refs }

/-- Spawn a forwarder and `muxes.insert` its multiplexer (lines 1900–2138, 2518–2540,
    2578–2590 and the starts of the three spawn functions), with a reference for `holder`. A
    multiplexer that was there is dropped. -/
def spawn (s : StationInner) (key : SeriesKey) (feed : Feed) (holder : Holder) : StationInner :=
  let free := s.removeMux key
  { free with
    next := s.next + 1
    muxes := Function.update free.muxes key
      (some { inst := s.next, consumers := 1, graceCancel := none })
    seriesHandles :=
      if feed.hasRing then Function.update s.seriesHandles key (some s.next) else s.seriesHandles
    exitAcks := Function.update s.exitAcks key (some s.next)
    forwarders := Function.update free.forwarders s.next
      (some { key, feed, phase := .running, signalled := false, ackTaken := false
              flushRx := false })
    refs := { key, inst := s.next, holder } :: s.refs }

/-- The references of `a` become those of `b`. -/
def handOver (s : StationInner) (a b : Holder) : StationInner :=
  { s with refs := s.refs.map fun r => if r.holder = a then { r with holder := b } else r }

/-- An acquire that fails forgets the references it has (`?` on line 2222). -/
def forget (s : StationInner) (holder : Holder) : StationInner :=
  { s with refs := s.refs.filter fun r => r.holder ≠ holder }

/-- `release_consumer` (lines 2624–2697) up to the spawn of the timer. -/
def releaseConsumer (s : StationInner) (grace : Bool) (key : SeriesKey) : StationInner :=
  match s.muxes key with
  | none => s
  | some mux =>
    let counted := { mux with consumers := fetchSub usizeMax mux.consumers }
    if 1 < mux.consumers then { s with muxes := Function.update s.muxes key (some counted) }
    else if grace then
      { s with
        next := s.next + 1
        muxes := Function.update s.muxes key (some { counted with graceCancel := some s.next })
        timers := Function.update (cancel s.timers mux.graceCancel) s.next
          (some { key, cancelled := false }) }
    else s.removeMux key

theorem releaseConsumer_of_none {grace : Bool} {s : StationInner} {key : SeriesKey}
    (h : s.muxes key = none) : s.releaseConsumer grace key = s := by
  simp only [releaseConsumer, h]

theorem releaseConsumer_of_some {grace : Bool} {s : StationInner} {key : SeriesKey}
    {mux : Multiplexer} (h : s.muxes key = some mux) :
    s.releaseConsumer grace key =
      if 1 < mux.consumers then
        { s with
          muxes := Function.update s.muxes key
            (some { mux with consumers := fetchSub usizeMax mux.consumers }) }
      else if grace then
        { s with
          next := s.next + 1
          muxes := Function.update s.muxes key
            (some { mux with
              consumers := fetchSub usizeMax mux.consumers, graceCancel := some s.next })
          timers := Function.update (cancel s.timers mux.graceCancel) s.next
            (some { key, cancelled := false }) }
      else s.removeMux key := by
  simp only [releaseConsumer, h]

/-- `MultiplexRef::drop`, and one round of a derived forwarder's loop over its
    `upstream_keys` (lines 2995–2999). -/
def dropRef (s : StationInner) (grace : Bool) (r : MultiplexRef) : StationInner :=
  { s with refs := s.refs.erase r }.releaseConsumer grace r.key

/-- The `timed_out` arm of a grace timer (lines 2667–2688). -/
def expire (s : StationInner) (t : ℕ) : StationInner :=
  match s.timers t with
  | none => s
  | some timer =>
    let fired := { s with timers := Function.update s.timers t none }
    match s.muxes timer.key with
    | none => fired
    | some mux =>
      if mux.consumers = 0 then
        { fired.removeMux timer.key with
          seriesHandles := Function.update s.seriesHandles timer.key none }
      else fired

/-- The `cancel_rx` arm of a grace timer. -/
def endTimer (s : StationInner) (t : ℕ) : StationInner :=
  { s with timers := Function.update s.timers t none }

/-- `force_unsubscribe_and_await` (lines 527–565) up to its await. -/
def forceUnsubscribe (s : StationInner) (key : SeriesKey) : StationInner :=
  match s.muxes key with
  | none => s
  | some _ =>
    let free := s.removeMux key
    { free with
      seriesHandles := Function.update s.seriesHandles key none
      exitAcks := Function.update s.exitAcks key none
      forwarders :=
        match s.exitAcks key with
        | none => free.forwarders
        | some i => modify free.forwarders i fun f => { f with ackTaken := true } }

/-- A forwarder opens its store and registers a flush handle (lines 3133–3139). -/
def openStore (s : StationInner) (i : ℕ) : StationInner :=
  match s.forwarders i with
  | none => s
  | some f =>
    if f.phase = .running ∧ f.flushRx = false then
      { s with
        flushHandles := Function.update s.flushHandles f.key (some i)
        forwarders := modify s.forwarders i fun f => { f with flushRx := true } }
    else s

/-- A forwarder leaves its loop and unregisters its flush handle (lines 3382–3387,
    2984–2990). -/
def leaveLoop (s : StationInner) (i : ℕ) : StationInner :=
  match s.forwarders i with
  | none => s
  | some f =>
    if f.phase = .running then
      { s with
        flushHandles :=
          if f.flushRx then Function.update s.flushHandles f.key none else s.flushHandles
        forwarders := modify s.forwarders i fun f => { f with phase := .stopping } }
    else s

/-- How many consumers the multiplexer of `key` has, 0 where there is none. -/
def stillConsumers (s : StationInner) (key : SeriesKey) : ℕ :=
  ((s.muxes key).map Multiplexer.consumers).getD 0

/-- Remove the multiplexer of `key` if no consumer is left attached. -/
def removeUnused (s : StationInner) (key : SeriesKey) : StationInner :=
  if s.stillConsumers key = 0 then s.removeMux key else s

/-- The end of the teardown (lines 3400–3421, 3001–3017), of a forwarder that has released
    its upstreams. -/
def exit (s : StationInner) (i : ℕ) : StationInner :=
  match s.forwarders i with
  | none => s
  | some f =>
    if f.phase = .stopping ∧ ∀ r ∈ s.refs, r.holder ≠ .forwarder i then
      { s.removeUnused f.key with
        seriesHandles :=
          if f.feed.hasRing then Function.update s.seriesHandles f.key none else s.seriesHandles
        exitAcks := Function.update s.exitAcks f.key none
        forwarders := modify (s.removeUnused f.key).forwarders i
          fun f => { f with phase := .exited } }
    else s

/-! ### What each operation can do -/

theorem expire_cases (s : StationInner) (t : ℕ) :
    s.expire t = s ∨ s.expire t = { s with timers := Function.update s.timers t none } ∨
      ∃ timer mux, s.timers t = some timer ∧ s.muxes timer.key = some mux ∧
        mux.consumers = 0 ∧
        s.expire t =
          { { s with timers := Function.update s.timers t none }.removeMux timer.key with
            seriesHandles := Function.update s.seriesHandles timer.key none } := by
  cases htimer : s.timers t with
  | none => simp only [expire, htimer, true_or]
  | some timer =>
    cases hmux : s.muxes timer.key with
    | none => simp only [expire, htimer, hmux, true_or, or_true]
    | some mux =>
      by_cases hzero : mux.consumers = 0
      · exact Or.inr (Or.inr ⟨timer, mux, rfl, hmux, hzero, by simp only [expire, htimer, hmux,
          if_pos hzero]⟩)
      · simp only [expire, htimer, hmux, if_neg hzero, true_or, or_true]

theorem forceUnsubscribe_of_none {s : StationInner} {key : SeriesKey}
    (h : s.muxes key = none) : s.forceUnsubscribe key = s := by
  simp only [forceUnsubscribe, h]

theorem forceUnsubscribe_of_some {s : StationInner} {key : SeriesKey} {mux : Multiplexer}
    (h : s.muxes key = some mux) :
    s.forceUnsubscribe key =
      { s.removeMux key with
        seriesHandles := Function.update s.seriesHandles key none
        exitAcks := Function.update s.exitAcks key none
        forwarders :=
          match s.exitAcks key with
          | none => (s.removeMux key).forwarders
          | some i =>
            modify (s.removeMux key).forwarders i fun f => { f with ackTaken := true } } := by
  simp only [forceUnsubscribe, h]

theorem openStore_cases (s : StationInner) (i : ℕ) :
    s.openStore i = s ∨
      ∃ f, s.forwarders i = some f ∧ f.phase = .running ∧
        s.openStore i =
          { s with
            flushHandles := Function.update s.flushHandles f.key (some i)
            forwarders := modify s.forwarders i fun f => { f with flushRx := true } } := by
  cases hf : s.forwarders i with
  | none => simp only [openStore, hf, true_or]
  | some f =>
    by_cases hopen : f.phase = .running ∧ f.flushRx = false
    · exact Or.inr ⟨f, rfl, hopen.1, by simp only [openStore, hf, if_pos hopen]⟩
    · simp only [openStore, hf, if_neg hopen, true_or]

theorem leaveLoop_of_running {s : StationInner} {i : ℕ} {f : ForwarderTask}
    (hf : s.forwarders i = some f) (h : f.phase = .running) :
    s.leaveLoop i =
      { s with
        flushHandles :=
          if f.flushRx then Function.update s.flushHandles f.key none else s.flushHandles
        forwarders := modify s.forwarders i fun f => { f with phase := .stopping } } := by
  simp only [leaveLoop, hf, if_pos h]

theorem leaveLoop_of_not_running {s : StationInner} {i : ℕ}
    (h : ∀ f, s.forwarders i = some f → f.phase ≠ .running) : s.leaveLoop i = s := by
  cases hf : s.forwarders i with
  | none => simp only [leaveLoop, hf]
  | some f => simp only [leaveLoop, hf, if_neg (h f hf)]

/-- A forwarder that has left its loop has released its upstreams. -/
def MayExit (s : StationInner) (i : ℕ) (f : ForwarderTask) : Prop :=
  s.forwarders i = some f ∧ f.phase = .stopping ∧ ∀ r ∈ s.refs, r.holder ≠ .forwarder i

theorem exit_of_mayExit {s : StationInner} {i : ℕ} {f : ForwarderTask} (h : s.MayExit i f) :
    s.exit i =
      { s.removeUnused f.key with
        seriesHandles :=
          if f.feed.hasRing then Function.update s.seriesHandles f.key none else s.seriesHandles
        exitAcks := Function.update s.exitAcks f.key none
        forwarders := modify (s.removeUnused f.key).forwarders i
          fun f => { f with phase := .exited } } := by
  simp only [exit, h.1, if_pos h.2]

theorem exit_of_not_mayExit {s : StationInner} {i : ℕ} (h : ∀ f, ¬s.MayExit i f) :
    s.exit i = s := by
  cases hf : s.forwarders i with
  | none => simp only [exit, hf]
  | some f => simp only [exit, hf, if_neg fun hexit => h f ⟨hf, hexit⟩]

/-- What a step does to the maps. -/
inductive Op
  | skip
  | reuse (key : SeriesKey) (holder : Holder)
  /-- The new forwarder takes over the references of the acquire `t`. -/
  | spawn (key : SeriesKey) (feed : Feed) (t : ℕ) (holder : Holder)
  | handOver (a b : Holder)
  | forget (holder : Holder)
  | dropRef (r : MultiplexRef)
  | expire (timer : ℕ)
  | endTimer (timer : ℕ)
  | forceUnsubscribe (key : SeriesKey)
  | openStore (i : ℕ)
  | leaveLoop (i : ℕ)
  | exit (i : ℕ)

/-- `unsubscribe_grace` is zero unless `grace`. -/
def apply (grace : Bool) (s : StationInner) : Op → StationInner
  | .skip => s
  | .reuse key holder => s.reuse key holder
  | .spawn key feed t holder => (s.handOver (.acquire t) (.forwarder s.next)).spawn key feed holder
  | .handOver a b => s.handOver a b
  | .forget holder => s.forget holder
  | .dropRef r => s.dropRef grace r
  | .expire timer => s.expire timer
  | .endTimer timer => s.endTimer timer
  | .forceUnsubscribe key => s.forceUnsubscribe key
  | .openStore i => s.openStore i
  | .leaveLoop i => s.leaveLoop i
  | .exit i => s.exit i

end StationInner

/-! ## Acquires and connectors -/

/-- `UniversalWsTransport`: what it connects to, and its `active_subs` once the driver has
    taken the commands sent so far. -/
structure Connector where
  exchange : ExchangeId
  accountType : AccountType
  activeSubs : List StreamSpec

/-- Where an acquire waits: for `ws.subscribe`, for the REST seed, to insert a poller, to
    acquire the next upstream, for an upstream's own acquire, for `seed_done_rx`; or it is
    about to return an error. -/
inductive Stage
  | subscribing (connector : ℕ)
  | seeding (connector : ℕ)
  | polling
  | upstreams (todo : List Kind)
  | awaiting (todo : List Kind)
  | settling
  | failing

/-- A call of `acquire_or_spawn` that missed, by a subscriber or by the acquire `parent`. -/
structure Acquire where
  key : SeriesKey
  parent : Option ℕ
  stage : Stage

/-- The target, and whether `unsubscribe_grace` is more than zero. -/
structure Config where
  native : Bool
  grace : Bool

/-- `Station`: its maps, the acquires in flight, `hub.ws` and the connectors made so far.
    Acquires and connectors are numbered together. -/
structure Station where
  inner : StationInner
  nextTask : ℕ
  acquires : ℕ → Option Acquire
  ws : ExchangeId → AccountType → Option ℕ
  connectors : ℕ → Option Connector

/-- The stream kind of `ws_request_for` (lines 3955–4003); `none` where it is unreachable. -/
def streamKindFor : Kind → Option StreamKind
  | .trade => some .trade
  | .aggTrade => some .aggTrade
  | .kline iv => some (.kline iv)
  | .ticker => some .ticker
  | .orderbook => some .orderbook
  | .orderbookDelta => some .orderbookDelta
  | .markPrice => some .markPrice
  | .fundingRate => some .fundingRate
  | .openInterest => some .openInterest
  | .liquidation => some .liquidation
  | .blockTrade => some .blockTrade
  | .auctionEvent => some .auctionEvent
  | .indexPrice => some .indexPrice
  | .compositeIndex => some .compositeIndex
  | .optionGreeks => some .optionGreeks
  | .volatilityIndex => some .volatilityIndex
  | .historicalVolatility => some .historicalVolatility
  | .longShortRatio => some .longShortRatio
  | .basis => some .basis
  | .insuranceFund => some .insuranceFund
  | .orderbookL3 => some .orderbookL3
  | .settlementEvent => some .settlementEvent
  | .marketWarning => some .marketWarning
  | .riskLimit => some .riskLimit
  | .predictedFunding => some .predictedFunding
  | .fundingSettlement => some .fundingSettlement
  | .markPriceKline iv => some (.markPriceKline iv)
  | .indexPriceKline iv => some (.indexPriceKline iv)
  | .premiumIndexKline iv => some (.premiumIndexKline iv)
  | .orderUpdate => some .orderUpdate
  | .balanceUpdate => some .balanceUpdate
  | .positionUpdate => some .positionUpdate
  | _ => none

/-- `ws_request_for` (lines 3950–4011) as a `StreamSpec`. `acquire_or_spawn` gives it the raw
    symbol and the account of the key. -/
def wsRequestFor (key : SeriesKey) : Option StreamSpec :=
  (streamKindFor key.kind).map fun kind =>
    { kind, symbol := .raw key.symbol.toList, accountType := key.accountType, depth := none,
      speedMs := none }

/-- `deps_for_key` (`derived.rs`) of the stream that serves a kind: the seven kline converters
    and `TpoFromKline1mDerived` take 1m klines; `TradeToBarDerived` serves `Kind::Kline`. -/
def depsForKey : Kind → List Kind
  | .basis => [.markPrice, .indexPrice]
  | .fundingSettlement => [.fundingRate]
  | .rangeBar _ | .volumeBar _ | .renkoBar _ _ | .pnfBar _ _ | .kagiBar _ | .dollarBar _
  | .threeLineBreak _ | .tpoProfile _ .kline1m => [.kline ⟨"1m"⟩]
  | _ => [.trade]

/-- The answer of `ws.subscribe`: `notSupported` is `WireAbsent` or `NotImplemented`. -/
inductive SubscribeReply
  | ok | notSupported | failed
  deriving DecidableEq

inductive Action
  | connectWebsocket (exchange : ExchangeId) (accountType : AccountType)
  /-- `source`: the exchange has a poll source for the key. -/
  | subscribe (key : SeriesKey) (source : Bool)
  | acquireUpstream (t : ℕ)
  | reply (t : ℕ) (r : SubscribeReply)
  | spawn (t : ℕ)
  | seedDone (t : ℕ)
  | fail (t : ℕ)
  | dropRef (r : MultiplexRef)
  | graceExpired (timer : ℕ)
  | graceCancelled (timer : ℕ)
  | forceUnsubscribe (key : SeriesKey)
  /-- A forwarder's event stream ends, fails or falls silent. -/
  | disconnect (i : ℕ) (unsubOk subOk : Bool)
  | openStore (i : ℕ)
  | leaveLoop (i : ℕ)
  | exit (i : ℕ)

/-- What an acquire spawns when it is its turn. -/
def Stage.feed? : Stage → Option Feed
  | .seeding c => some (.ws c)
  | .polling => some .poll
  | .upstreams [] => some .derived
  | _ => none

namespace Station

def init : Station :=
  { inner := StationInner.init, nextTask := 0, acquires := fun _ => none
    ws := fun _ _ => none, connectors := fun _ => none }

/-- Who an acquire returns its reference to. -/
def owner : Option ℕ → Holder
  | none => .subscriber
  | some t => .acquire t

/-- The stage after a miss (lines 1698–1838). -/
def enter (cfg : Config) (s : Station) (key : SeriesKey) (source : Bool) : Stage :=
  if key.kind.isDerived then
    if cfg.native && source && (key.kind = .basis || key.kind = .fundingSettlement) then .polling
    else .upstreams (depsForKey key.kind)
  else if key.kind.isPollOnly.isSome then
    if cfg.native && source then .polling else .failing
  else
    match s.ws key.exchange key.accountType with
    | none => .failing
    | some c => .subscribing c

/-- The stage after the answer of `ws.subscribe` (lines 1855–1888). -/
def afterReply (key : SeriesKey) (c : ℕ) : SubscribeReply → Stage
  | .ok => .seeding c
  | .notSupported =>
    match key.kind with
    | .kline iv =>
      if (Derived.intervalToMs iv.text).isSome then .upstreams (depsForKey key.kind) else .failing
    | _ => .failing
  | .failed => .failing

/-- Who has the reference of the forwarder that an acquire spawns: a derived acquire keeps
    it until the forwarder has been seeded. -/
def spawnHolder (t : ℕ) (a : Acquire) : Feed → Holder
  | .derived => .acquire t
  | .ws _ | .poll => owner a.parent

/-- The next upstream of an acquire. -/
def nextUpstream? (s : Station) (t : ℕ) : Option (Acquire × SeriesKey × List Kind) :=
  match s.acquires t with
  | some { key, parent, stage := .upstreams (kind :: todo) } =>
    some ({ key, parent, stage := .upstreams (kind :: todo) }, { key with kind }, todo)
  | _ => none

/-- No sender of a forwarder's channel is left: it has returned, and its multiplexer is not
    registered. -/
def channelClosed (s : StationInner) (r : MultiplexRef) : Prop :=
  (∀ f ∈ s.forwarders r.inst, f.phase = .exited) ∧ ∀ mux ∈ s.muxes r.key, mux.inst ≠ r.inst

instance (s : StationInner) (r : MultiplexRef) : Decidable (channelClosed s r) :=
  inferInstanceAs (Decidable (_ ∧ _))

/-- A subscriber may drop a reference any time, a forwarder once it has left its loop. -/
def mayDrop (s : StationInner) (r : MultiplexRef) : Bool :=
  match r.holder with
  | .subscriber => true
  | .acquire _ => false
  | .forwarder i => (s.forwarders i).any fun f => f.phase = .stopping

/-- A forwarder breaks out of its loop without a disconnect: `shutdown_rx` is ready, or all
    channels it reads are closed. -/
def mayLeave (s : StationInner) (i : ℕ) (f : ForwarderTask) : Bool :=
  f.signalled || (f.feed = .derived && s.refs.all fun r =>
    r.holder ≠ .forwarder i || channelClosed s r)

/-- What an action does to the maps. -/
def op (s : Station) : Action → StationInner.Op
  | .subscribe key _ => .reuse key .subscriber
  | .acquireUpstream t =>
    match s.nextUpstream? t with
    | some (_, dep, _) => .reuse dep (.acquire t)
    | none => .skip
  | .spawn t =>
    match s.acquires t with
    | none => .skip
    | some a =>
      match a.stage.feed? with
      | some feed => .spawn a.key feed t (spawnHolder t a feed)
      | none => .skip
  | .seedDone t =>
    match s.acquires t with
    | some { parent, stage := .settling, .. } => .handOver (.acquire t) (owner parent)
    | _ => .skip
  | .fail t =>
    match s.acquires t with
    | some { stage := .failing, .. } => .forget (.acquire t)
    | _ => .skip
  | .dropRef r =>
    if r ∈ s.inner.refs ∧ mayDrop s.inner r then .dropRef r else .skip
  | .graceExpired timer => .expire timer
  | .graceCancelled timer =>
    match s.inner.timers timer with
    | some { cancelled := true, .. } => .endTimer timer
    | _ => .skip
  | .forceUnsubscribe key => .forceUnsubscribe key
  | .disconnect i _ _ =>
    match s.inner.forwarders i with
    | some { key, feed := .ws _, .. } => if key.kind.isKlineFamily then .skip else .leaveLoop i
    | _ => .skip
  | .openStore i => .openStore i
  | .leaveLoop i =>
    match s.inner.forwarders i with
    | some f => if mayLeave s.inner i f then .leaveLoop i else .skip
    | none => .skip
  | .exit i => .exit i
  | .connectWebsocket _ _ | .reply _ _ => .skip

/-- Start an acquire after a miss. -/
def startAcquire (cfg : Config) (s : Station) (key : SeriesKey) (parent : Option ℕ)
    (source : Bool) : Station :=
  { s with
    nextTask := s.nextTask + 1
    acquires := Function.update s.acquires s.nextTask
      (some { key, parent, stage := s.enter cfg key source }) }

/-- An acquire goes on, or returns. -/
def setAcquire (s : Station) (t : ℕ) (a : Option Acquire) : Station :=
  { s with acquires := Function.update s.acquires t a }

/-- An acquire returns its reference, and its parent goes on. -/
def returnOk (s : Station) (t : ℕ) (a : Acquire) : Station :=
  let s := s.setAcquire t none
  match a.parent with
  | none => s
  | some p =>
    match s.acquires p with
    | some { key, parent, stage := .awaiting todo } =>
      s.setAcquire p (some { key, parent, stage := .upstreams todo })
    | _ => s

/-- An acquire returns an error, and so does its parent. -/
def returnErr (s : Station) (t : ℕ) (a : Acquire) : Station :=
  let s := s.setAcquire t none
  match a.parent with
  | none => s
  | some p => s.setAcquire p ((s.acquires p).map fun a => { a with stage := .failing })

/-- Change the active subscriptions of a connector. -/
def setActive (s : Station) (c : ℕ) (f : List StreamSpec → List StreamSpec) : Station :=
  { s with
    connectors := Function.update s.connectors c
      ((s.connectors c).map fun conn => { conn with activeSubs := f conn.activeSubs }) }

/-- `TransportCmd::Subscribe` (`transport.rs` lines 831–844). -/
def subscribeSpec (spec : Option StreamSpec) (active : List StreamSpec) : List StreamSpec :=
  match spec with
  | none => active
  | some spec => active.insert spec

/-- `TransportCmd::Unsubscribe` (`transport.rs` lines 845–857). -/
def unsubscribeSpec (spec : Option StreamSpec) (active : List StreamSpec) : List StreamSpec :=
  match spec with
  | none => active
  | some spec => active.filter (· ≠ spec)

/-- What an action does to the acquires and the connectors. -/
def around (cfg : Config) (s : Station) : Action → Station
  | .connectWebsocket exchange accountType =>
    -- `hub.connect_websocket` makes a connector every time (`hub.rs` lines 115–125)
    { s with
      nextTask := s.nextTask + 1
      ws := Function.update s.ws exchange
        (Function.update (s.ws exchange) accountType (some s.nextTask))
      connectors := Function.update s.connectors s.nextTask
        (some { exchange, accountType, activeSubs := [] }) }
  | .subscribe key source =>
    if (s.inner.muxes key).isSome then s else s.startAcquire cfg key none source
  | .acquireUpstream t =>
    match s.nextUpstream? t with
    | some (a, dep, todo) =>
      if (s.inner.muxes dep).isSome then s.setAcquire t (some { a with stage := .upstreams todo })
      else (s.setAcquire t (some { a with stage := .awaiting todo })).startAcquire cfg dep
        (some t) false
    | none => s
  | .reply t r =>
    match s.acquires t with
    | some { key, parent, stage := .subscribing c } =>
      let s := s.setAcquire t (some { key, parent, stage := afterReply key c r })
      if r = .ok then s.setActive c (subscribeSpec (wsRequestFor key)) else s
    | _ => s
  | .spawn t =>
    match s.acquires t with
    | none => s
    | some a =>
      match a.stage.feed? with
      | some .derived => s.setAcquire t (some { a with stage := .settling })
      | some (.ws _) | some .poll => s.returnOk t a
      | none => s
  | .seedDone t =>
    match s.acquires t with
    | some { key, parent, stage := .settling } =>
      s.returnOk t { key, parent, stage := .settling }
    | _ => s
  | .fail t =>
    match s.acquires t with
    | some { key, parent, stage := .failing } => s.returnErr t { key, parent, stage := .failing }
    | _ => s
  | .disconnect i unsubOk subOk =>
    -- the resubscription of the kline family (lines 3309–3310); neither call suspends
    match s.inner.forwarders i with
    | some { key, feed := .ws c, phase := .running, .. } =>
      if key.kind.isKlineFamily then
        let spec := wsRequestFor key
        let s := if unsubOk then s.setActive c (unsubscribeSpec spec) else s
        if subOk then s.setActive c (subscribeSpec spec) else s
      else s
    | _ => s
  | .dropRef _ | .graceExpired _ | .graceCancelled _ | .forceUnsubscribe _ | .openStore _
  | .leaveLoop _ | .exit _ => s

/-- One step. An action that cannot happen in a state does nothing. -/
def step (cfg : Config) (s : Station) (a : Action) : Station :=
  { s.around cfg a with inner := s.inner.apply cfg.grace (s.op a) }

/-- The states between the steps of a run. -/
def run (cfg : Config) (as : List Action) : Station := as.foldl (step cfg) init

theorem inner_step (cfg : Config) (s : Station) (a : Action) :
    (s.step cfg a).inner = s.inner.apply cfg.grace (s.op a) := rfl

end Station

end Digdigdig3.Multiplex
