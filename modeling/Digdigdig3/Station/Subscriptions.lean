import Digdigdig3.Station.Coherence

/-!
# Series and the subscriptions of their connectors

`acquire_or_spawn` sends `ws.subscribe` for a WS-backed key (`station.rs` line 1855). The only
`ws.unsubscribe` of the station is the one in front of a kline resubscription (line 3299): no
teardown sends one, and `active_subs` is what the driver replays when it reconnects.

* `FedBy`, `SubscriptionsLawful`: what `active_subs` should be once the station has settled.
* `Issued`, `Transfer`, `tracked_run`: what it is, and what a step does to it.
* `subscriptions_lawful_iff`: a station that has settled is lawful exactly when nothing that it
  ever registered is gone.
-/

namespace Digdigdig3.Multiplex

open Series (Kind SeriesKey)

/-! ## Specification -/

/-- The key is registered, and its forwarder reads the events of the connector `c`. -/
def StationInner.FedBy (s : StationInner) (key : SeriesKey) (c : ℕ) : Prop :=
  ∃ mux f, s.muxes key = some mux ∧ s.forwarders mux.inst = some f ∧ f.feed = .ws c

namespace Station

/-- No acquire is in flight, no grace timer is pending, and every forwarder that was told to
    stop has exited. -/
structure Settled (s : Station) : Prop where
  acquires : ∀ t, s.acquires t = none
  timers : ∀ t timer, s.inner.timers t = some timer → timer.cancelled = true
  forwarders : ∀ i f, s.inner.forwarders i = some f → f.signalled = true → f.phase = .exited

/-- The active subscriptions of a connector are the requests of the keys that it feeds; those of
    an unregistered key are not among them, and those of a key with consumers are. -/
structure SubscriptionsLawful (s : Station) : Prop where
  exact : ∀ c conn spec, s.connectors c = some conn →
    (spec ∈ conn.activeSubs ↔ ∃ key, s.inner.FedBy key c ∧ wsRequestFor key = some spec)
  released : ∀ key c conn spec, s.connectors c = some conn → conn.exchange = key.exchange →
    wsRequestFor key = some spec → s.inner.muxes key = none → spec ∉ conn.activeSubs
  attached : ∀ key mux c, s.inner.muxes key = some mux → 0 < mux.consumers →
    s.inner.FedBy key c → ∃ conn spec, s.connectors c = some conn ∧
      wsRequestFor key = some spec ∧ spec ∈ conn.activeSubs

/-- Every key that a connector fed at some time of the run, it feeds at the end. -/
def NothingReleased (cfg : Config) (as : List Action) : Prop :=
  ∀ pre, pre <+: as → ∀ key c, (run cfg pre).inner.FedBy key c → (run cfg as).inner.FedBy key c

/-- A driver that accepts the unsubscribe of a resubscription accepts its subscribe: both go
    through one queue, and the frame of the spec was probed when the series was acquired. -/
def ResubscribesWhole (as : List Action) : Prop := ∀ i, .disconnect i true false ∉ as

end Station

/-! ## Requests -/

/-- The kind that a stream kind was made from. -/
def kindFor : StreamKind → Kind
  | .ticker => .ticker
  | .indexPrice => .indexPrice
  | .markPrice => .markPrice
  | .compositeIndex => .compositeIndex
  | .orderbook => .orderbook
  | .orderbookDelta => .orderbookDelta
  | .orderbookL3 => .orderbookL3
  | .trade => .trade
  | .aggTrade => .aggTrade
  | .blockTrade => .blockTrade
  | .kline iv => .kline iv
  | .markPriceKline iv => .markPriceKline iv
  | .indexPriceKline iv => .indexPriceKline iv
  | .premiumIndexKline iv => .premiumIndexKline iv
  | .fundingRate => .fundingRate
  | .predictedFunding => .predictedFunding
  | .fundingSettlement => .fundingSettlement
  | .openInterest => .openInterest
  | .longShortRatio => .longShortRatio
  | .insuranceFund => .insuranceFund
  | .riskLimit => .riskLimit
  | .basis => .basis
  | .liquidation => .liquidation
  | .optionGreeks => .optionGreeks
  | .volatilityIndex => .volatilityIndex
  | .historicalVolatility => .historicalVolatility
  | .settlementEvent => .settlementEvent
  | .auctionEvent => .auctionEvent
  | .marketWarning => .marketWarning
  | .orderUpdate => .orderUpdate
  | .balanceUpdate => .balanceUpdate
  | .positionUpdate => .positionUpdate

theorem kindFor_of_streamKindFor {k : Kind} {sk : StreamKind} (h : streamKindFor k = some sk) :
    kindFor sk = k := by
  cases k <;> cases h <;> rfl

theorem isSome_streamKindFor {k : Kind} (h : k.WsBacked) : (streamKindFor k).isSome := by
  obtain ⟨hderived, hpolled⟩ := h
  cases k <;> first | rfl | (cases hderived; done) | cases hpolled

theorem exists_wsRequestFor {key : SeriesKey} (h : key.kind.WsBacked) :
    ∃ spec, wsRequestFor key = some spec := by
  obtain ⟨sk, hsk⟩ := Option.isSome_iff_exists.mp (isSome_streamKindFor h)
  exact ⟨_, by rw [wsRequestFor, hsk]; rfl⟩

/-- Kinds do not share a request: on one exchange a request tells its key. -/
theorem key_eq_of_wsRequestFor {key key' : SeriesKey} {spec : StreamSpec}
    (h : wsRequestFor key = some spec) (h' : wsRequestFor key' = some spec)
    (hexchange : key.exchange = key'.exchange) : key = key' := by
  obtain ⟨sk, hsk, rfl⟩ := Option.map_eq_some_iff.mp h
  obtain ⟨sk', hsk', hspec⟩ := Option.map_eq_some_iff.mp h'
  obtain ⟨exchange, accountType, symbol, kind⟩ := key
  obtain ⟨exchange', accountType', symbol', kind'⟩ := key'
  obtain ⟨rfl, hraw, rfl, -, -⟩ := StreamSpec.mk.inj hspec
  obtain rfl := String.toList_inj.mp (OwnedSymbolInput.raw.inj hraw)
  have hkind : kind = kind' :=
    (kindFor_of_streamKindFor hsk).symm.trans (kindFor_of_streamKindFor hsk')
  rw [hkind, show exchange = exchange' from hexchange]

/-! ## Forwarders on a connector -/

namespace StationInner

/-- The connector that a forwarder reads. -/
def wsFeed (f : ForwarderTask) : Option (SeriesKey × ℕ) :=
  match f.feed with
  | .ws c => some (f.key, c)
  | .derived | .poll => none

/-- The keys that the forwarders, running or not, have read from connectors. -/
def wsFeeds (forwarders : ℕ → Option ForwarderTask) (i : ℕ) : Option (SeriesKey × ℕ) :=
  (forwarders i).bind wsFeed

variable {s : StationInner} {key : SeriesKey} {c : ℕ}

theorem wsFeed_eq_some_iff {f : ForwarderTask} :
    wsFeed f = some (key, c) ↔ f.feed = .ws c ∧ f.key = key := by
  unfold wsFeed
  cases f.feed with
  | ws c' =>
    simp only [Option.some.injEq, Prod.mk.injEq, Feed.ws.injEq]
    exact and_comm
  | derived => simp
  | poll => simp

theorem SameTasks.wsFeeds_eq {before after : ℕ → Option ForwarderTask}
    (h : SameTasks before after) : wsFeeds after = wsFeeds before := by
  funext i
  have hi := h i
  unfold wsFeeds
  generalize before i = x at hi
  generalize after i = y at hi
  cases hi with
  | none => rfl
  | some hkept =>
    show wsFeed _ = wsFeed _
    rw [wsFeed, wsFeed, hkept.key_eq, hkept.feed_eq]

theorem wsFeeds_modify_phase (forwarders : ℕ → Option ForwarderTask) (i : ℕ) (phase : Phase) :
    wsFeeds (modify forwarders i fun f => { f with phase }) = wsFeeds forwarders := by
  funext j
  unfold wsFeeds
  by_cases hj : j = i
  · rw [hj, modify_self]
    cases forwarders i with
    | none => rfl
    | some f => rfl
  · rw [modify_of_ne hj]

theorem wsFeeds_leaveLoop (s : StationInner) (i : ℕ) :
    wsFeeds (s.leaveLoop i).forwarders = wsFeeds s.forwarders := by
  by_cases hrunning : ∃ f, s.forwarders i = some f ∧ f.phase = .running
  · obtain ⟨f, hf, hphase⟩ := hrunning
    rw [leaveLoop_of_running hf hphase]
    exact wsFeeds_modify_phase _ _ _
  · rw [leaveLoop_of_not_running fun f hf hphase => hrunning ⟨f, hf, hphase⟩]

theorem wsFeeds_exit (s : StationInner) (i : ℕ) :
    wsFeeds (s.exit i).forwarders = wsFeeds s.forwarders := by
  by_cases hexit : ∃ f, s.MayExit i f
  · obtain ⟨f, hf⟩ := hexit
    rw [exit_of_mayExit hf]
    exact (wsFeeds_modify_phase _ _ _).trans (sameTasks_removeUnused s f.key).wsFeeds_eq
  · rw [exit_of_not_mayExit fun f hf => hexit ⟨f, hf⟩]

theorem wsFeeds_spawn (s : StationInner) (key : SeriesKey) (feed : Feed) (t : ℕ)
    (holder : Holder) (grace : Bool) :
    wsFeeds (s.apply grace (.spawn key feed t holder)).forwarders =
      Function.update (wsFeeds s.forwarders) s.next
        (match feed with | .ws c => some (key, c) | .derived | .poll => none) := by
  have hfree := (spawn_free s key (.acquire t) (.forwarder s.next)).tasks.wsFeeds_eq
  funext i
  show (Function.update ((s.handOver _ _).removeMux key).forwarders s.next _ i).bind wsFeed = _
  by_cases hi : i = s.next
  · rw [hi, Function.update_self, Function.update_self]
    cases feed <;> rfl
  · rw [Function.update_of_ne hi, Function.update_of_ne hi]
    exact congrFun hfree i

/-- Only a spawn makes a forwarder, and none is taken out. -/
theorem wsFeeds_apply (grace : Bool) (s : StationInner) {op : Op}
    (h : ∀ key feed t holder, op ≠ .spawn key feed t holder) :
    wsFeeds (s.apply grace op).forwarders = wsFeeds s.forwarders := by
  cases op with
  | skip => rfl
  | reuse key holder => exact (leaves_reuse s key holder).tasks.wsFeeds_eq
  | spawn key feed t holder => exact absurd rfl (h key feed t holder)
  | handOver a b => rfl
  | forget holder => rfl
  | dropRef r =>
    rcases dropRef_cases s grace r with h | h
    · exact h.tasks.wsFeeds_eq
    · exact h.tasks.wsFeeds_eq
  | expire t =>
    rcases expire_leaves_or_frees s t with h | ⟨timer, mux, -, -, -, h⟩
    · exact h.tasks.wsFeeds_eq
    · exact h.tasks.wsFeeds_eq
  | endTimer t => rfl
  | forceUnsubscribe key =>
    show wsFeeds (s.forceUnsubscribe key).forwarders = _
    cases hmux : s.muxes key with
    | none => rw [forceUnsubscribe_of_none hmux]
    | some mux => exact (frees_forceUnsubscribe hmux).tasks.wsFeeds_eq
  | openStore i => exact (leaves_openStore s i).tasks.wsFeeds_eq
  | leaveLoop i => exact wsFeeds_leaveLoop s i
  | exit i => exact wsFeeds_exit s i

theorem wsFeeds_fresh (hsound : s.view.Sound) : wsFeeds s.forwarders s.next = none := by
  rw [wsFeeds, forwarders_fresh hsound]
  rfl

theorem FedBy.exists_wsFeeds (hsound : s.view.Sound) (h : s.FedBy key c) :
    ∃ i, wsFeeds s.forwarders i = some (key, c) := by
  obtain ⟨mux, f, hmux, hf, hfeed⟩ := h
  obtain ⟨f', hf', hkey⟩ := keys_eq_some_iff.mp (hsound.entry key _ (view_entry hmux))
  obtain rfl := Option.some.inj (hf.symm.trans hf')
  exact ⟨mux.inst, by rw [wsFeeds, hf]; exact wsFeed_eq_some_iff.mpr ⟨hfeed, hkey⟩⟩

/-- A forwarder that is spawned on a connector is registered. -/
theorem fedBy_spawn (s : StationInner) (key : SeriesKey) (c t : ℕ) (holder : Holder)
    (grace : Bool) : (s.apply grace (.spawn key (.ws c) t holder)).FedBy key c :=
  ⟨_, _, Function.update_self .., Function.update_self .., rfl⟩

end StationInner

/-! ## Acquires on a connector -/

/-- The connector that an acquire has asked, or is going to ask, for its stream. -/
def Stage.connector? : Stage → Option ℕ
  | .subscribing c | .seeding c => some c
  | _ => none

/-- The connector that has accepted the request of an acquire. -/
def Stage.seeding? : Stage → Option ℕ
  | .seeding c => some c
  | _ => none

theorem Stage.connector?_of_seeding? {stage : Stage} {c : ℕ} (h : stage.seeding? = some c) :
    stage.connector? = some c := by
  cases stage with
  | seeding c' => exact h
  | _ => cases h

theorem Stage.seeding?_of_connector? {stage : Stage} (h : stage.connector? = none) :
    stage.seeding? = none := by
  cases stage with
  | seeding c => cases h
  | _ => rfl

theorem Stage.seeding?_of_feed? {stage : Stage} {feed : Feed} (h : stage.feed? = some feed) :
    stage.seeding? = match feed with | .ws c => some c | .derived | .poll => none := by
  cases stage with
  | seeding c =>
    obtain rfl := Option.some.inj h
    rfl
  | polling =>
    obtain rfl := Option.some.inj h
    rfl
  | upstreams todo =>
    cases todo with
    | nil =>
      obtain rfl := Option.some.inj h
      rfl
    | cons kind todo => cases h
  | _ => cases h

namespace Station

/-- The keys whose requests were accepted for acquires that have not spawned yet. -/
def seeds (s : Station) (t : ℕ) : Option (SeriesKey × ℕ) :=
  (s.acquires t).bind fun a => a.stage.seeding?.map fun c => (a.key, c)

/-- What the connector `c` connects to. -/
def place (s : Station) (c : ℕ) : Option (ExchangeId × AccountType) :=
  (s.connectors c).map fun conn => (conn.exchange, conn.accountType)

/-- The key is served by a connector, and `c` is one of its exchange and account. -/
def Serves (s : Station) (c : ℕ) (key : SeriesKey) : Prop :=
  key.kind.WsBacked ∧ s.place c = some (key.exchange, key.accountType)

/-- An acquire that others were started for is not one of a WS-backed key. -/
def OffWire (s : Station) (p : ℕ) : Prop :=
  p < s.nextTask ∧ ∀ a, s.acquires p = some a → a.stage.connector? = none

/-- Acquires ask connectors of their own exchange and account, and numbers from `nextTask` on
    are not in use. -/
structure Placed (s : Station) : Prop where
  connectors_fresh : ∀ c, s.nextTask ≤ c → s.connectors c = none
  acquires_fresh : ∀ t, s.nextTask ≤ t → s.acquires t = none
  handles : ∀ exchange accountType c, s.ws exchange accountType = some c →
    s.place c = some (exchange, accountType)
  serves : ∀ t a c, s.acquires t = some a → a.stage.connector? = some c → s.Serves c a.key
  parents : ∀ t a p, s.acquires t = some a → a.parent = some p → s.OffWire p

variable {cfg : Config} {s s' : Station} {t c : ℕ} {a a₀ : Acquire} {key : SeriesKey}

theorem placed_init : Placed init where
  connectors_fresh := fun _ _ => rfl
  acquires_fresh := fun _ _ => rfl
  handles := by
    intro exchange accountType c h
    cases h
  serves := by
    intro t a c h
    cases h
  parents := by
    intro t a p h
    cases h

theorem acquires_setAcquire (s : Station) (t : ℕ) (a : Option Acquire) :
    (s.setAcquire t a).acquires = Function.update s.acquires t a := rfl

theorem acquires_startAcquire (cfg : Config) (s : Station) (key : SeriesKey) (parent : Option ℕ)
    (source : Bool) : (s.startAcquire cfg key parent source).acquires =
      Function.update s.acquires s.nextTask (some ⟨key, parent, s.enter cfg key source⟩) := rfl

theorem place_setActive (s : Station) (c : ℕ) (f : List StreamSpec → List StreamSpec) :
    (s.setActive c f).place = s.place := by
  funext c'
  show (Function.update s.connectors c _ c').map _ = (s.connectors c').map _
  by_cases hc : c' = c
  · rw [hc, Function.update_self, Option.map_map]
    rfl
  · rw [Function.update_of_ne hc]

theorem Placed.setActive (h : Placed s) (c : ℕ) (f : List StreamSpec → List StreamSpec) :
    Placed (s.setActive c f) := by
  have hplace := place_setActive s c f
  refine ⟨?_, h.acquires_fresh, ?_, ?_, h.parents⟩
  · intro c' hc'
    have hnone : (s.setActive c f).place c' = none := by
      rw [hplace, place, h.connectors_fresh c' hc']
      rfl
    exact Option.map_eq_none_iff.mp hnone
  · intro exchange accountType c' hc'
    rw [hplace]
    exact h.handles exchange accountType c' hc'
  · intro t a c' ha hc'
    obtain ⟨hkind, hc⟩ := h.serves t a c' ha hc'
    exact ⟨hkind, by rw [hplace]; exact hc⟩

/-- An acquire returns. -/
theorem Placed.endAcquire (h : Placed s) (t : ℕ) : Placed (s.setAcquire t none) := by
  have hold : ∀ t' a, (s.setAcquire t none).acquires t' = some a → s.acquires t' = some a := by
    intro t' a ha
    rw [acquires_setAcquire] at ha
    by_cases ht : t' = t
    · rw [ht, Function.update_self] at ha
      cases ha
    · rwa [Function.update_of_ne ht] at ha
  refine ⟨h.connectors_fresh, ?_, h.handles, ?_, ?_⟩
  · intro t' ht'
    cases hnew : (s.setAcquire t none).acquires t' with
    | none => rfl
    | some a => cases (h.acquires_fresh t' ht').symm.trans (hold t' a hnew)
  · exact fun t' a c ha => h.serves t' a c (hold t' a ha)
  · intro t' a p ha hp
    obtain ⟨hlt, hoff⟩ := h.parents t' a p (hold t' a ha) hp
    exact ⟨hlt, fun a' ha' => hoff a' (hold p a' ha')⟩

/-- An acquire goes on, on the connector that it is on or on none. -/
theorem Placed.moveAcquire (h : Placed s) (h₀ : s.acquires t = some a₀) (hkey : a.key = a₀.key)
    (hparent : a.parent = a₀.parent)
    (hstage : ∀ c, a.stage.connector? = some c → a₀.stage.connector? = some c) :
    Placed (s.setAcquire t (some a)) := by
  have hold : ∀ t' a', (s.setAcquire t (some a)).acquires t' = some a' →
      ∃ a₁, s.acquires t' = some a₁ ∧ a'.key = a₁.key ∧ a'.parent = a₁.parent ∧
        ∀ c, a'.stage.connector? = some c → a₁.stage.connector? = some c := by
    intro t' a' ha'
    rw [acquires_setAcquire] at ha'
    by_cases ht : t' = t
    · rw [ht, Function.update_self] at ha'
      obtain rfl := Option.some.inj ha'
      rw [ht]
      exact ⟨a₀, h₀, hkey, hparent, hstage⟩
    · rw [Function.update_of_ne ht] at ha'
      exact ⟨a', ha', rfl, rfl, fun _ => id⟩
  refine ⟨h.connectors_fresh, ?_, h.handles, ?_, ?_⟩
  · intro t' ht'
    cases hnew : (s.setAcquire t (some a)).acquires t' with
    | none => rfl
    | some a' =>
      obtain ⟨a₁, ha₁, -⟩ := hold t' a' hnew
      cases (h.acquires_fresh t' ht').symm.trans ha₁
  · intro t' a' c ha' hc
    obtain ⟨a₁, ha₁, hkey', -, hstage'⟩ := hold t' a' ha'
    rw [hkey']
    exact h.serves t' a₁ c ha₁ (hstage' c hc)
  · intro t' a' p ha' hp
    obtain ⟨a₁, ha₁, -, hparent', -⟩ := hold t' a' ha'
    obtain ⟨hlt, hoff⟩ := h.parents t' a₁ p ha₁ (hparent'.symm.trans hp)
    refine ⟨hlt, fun b hb => ?_⟩
    obtain ⟨b₁, hb₁, -, -, hstage'⟩ := hold p b hb
    cases hconn : b.stage.connector? with
    | none => rfl
    | some c => cases (hoff b₁ hb₁).symm.trans (hstage' c hconn)

/-- A new acquire is served by the connector that it is going to ask. -/
theorem Placed.serves_enter (h : Placed s) {source : Bool}
    (hc : (s.enter cfg key source).connector? = some c) : s.Serves c key := by
  unfold enter at hc
  split_ifs at hc with hderived _ hpolled _
  · cases hc
  · cases hc
  · cases hc
  · cases hc
  · cases hws : s.ws key.exchange key.accountType with
    | none =>
      rw [hws] at hc
      cases hc
    | some c' =>
      rw [hws] at hc
      obtain rfl := Option.some.inj hc
      exact ⟨⟨eq_false_of_ne_true hderived, Option.not_isSome_iff_eq_none.mp hpolled⟩,
        h.handles _ _ _ hws⟩

theorem seeding?_enter (cfg : Config) (s : Station) (key : SeriesKey) (source : Bool) :
    (s.enter cfg key source).seeding? = none := by
  unfold enter
  split_ifs
  · rfl
  · rfl
  · rfl
  · rfl
  · cases s.ws key.exchange key.accountType <;> rfl

theorem Placed.startAcquire (h : Placed s) {parent : Option ℕ} (source : Bool)
    (hparent : ∀ p, parent = some p → s.OffWire p) :
    Placed (s.startAcquire cfg key parent source) := by
  have hold : ∀ t a, (s.startAcquire cfg key parent source).acquires t = some a →
      s.acquires t = some a ∨ t = s.nextTask ∧ a = ⟨key, parent, s.enter cfg key source⟩ := by
    intro t a ha
    rw [acquires_startAcquire] at ha
    by_cases ht : t = s.nextTask
    · rw [ht, Function.update_self] at ha
      exact .inr ⟨ht, (Option.some.inj ha).symm⟩
    · rw [Function.update_of_ne ht] at ha
      exact .inl ha
  have hoff : ∀ p, s.OffWire p → (s.startAcquire cfg key parent source).OffWire p := by
    rintro p ⟨hlt, hp⟩
    refine ⟨Nat.lt_succ_of_lt hlt, fun a ha => ?_⟩
    rcases hold p a ha with ha | ⟨rfl, -⟩
    · exact hp a ha
    · exact absurd hlt (lt_irrefl _)
  refine ⟨fun c hc => h.connectors_fresh c (Nat.le_of_succ_le hc), ?_, h.handles, ?_, ?_⟩
  · intro t ht
    cases hnew : (s.startAcquire cfg key parent source).acquires t with
    | none => rfl
    | some a =>
      have hlt : s.nextTask < t := ht
      rcases hold t a hnew with ha | ⟨rfl, -⟩
      · cases (h.acquires_fresh t hlt.le).symm.trans ha
      · exact absurd hlt (lt_irrefl _)
  · intro t a c ha hc
    rcases hold t a ha with ha | ⟨-, rfl⟩
    · exact h.serves t a c ha hc
    · exact h.serves_enter hc
  · intro t a p ha hp
    rcases hold t a ha with ha | ⟨-, rfl⟩
    · exact hoff p (h.parents t a p ha hp)
    · exact hoff p (hparent p hp)

theorem seeds_setAcquire (s : Station) (t : ℕ) (a : Option Acquire) :
    (s.setAcquire t a).seeds =
      Function.update s.seeds t (a.bind fun a => a.stage.seeding?.map fun c => (a.key, c)) := by
  funext t'
  show (Function.update s.acquires t a t').bind _ = _
  by_cases ht : t' = t
  · rw [ht, Function.update_self, Function.update_self]
  · rw [Function.update_of_ne ht, Function.update_of_ne ht]
    rfl

/-- An acquire goes on that has had no request accepted, then or before. -/
theorem seeds_moveAcquire (h₀ : ∀ a₀, s.acquires t = some a₀ → a₀.stage.seeding? = none)
    (h : a.stage.seeding? = none) : (s.setAcquire t (some a)).seeds = s.seeds := by
  have hnone : s.seeds t = none := by
    rw [seeds]
    cases ha : s.acquires t with
    | none => rfl
    | some a₀ =>
      show a₀.stage.seeding?.map _ = none
      rw [h₀ a₀ ha]
      rfl
  rw [seeds_setAcquire, Option.bind_some, h, Option.map_none, ← hnone, Function.update_eq_self]

theorem seeds_startAcquire (h : Placed s) (key : SeriesKey) (parent : Option ℕ)
    (source : Bool) : (s.startAcquire cfg key parent source).seeds = s.seeds := by
  have hnone : ∀ a₀, s.acquires s.nextTask = some a₀ → a₀.stage.seeding? = none := by
    intro a₀ ha₀
    cases (h.acquires_fresh _ (le_refl _)).symm.trans ha₀
  exact seeds_moveAcquire (a := ⟨key, parent, s.enter cfg key source⟩) hnone
    (seeding?_enter cfg s key source)

theorem Placed.lt_nextTask (h : Placed s) (ha : s.acquires t = some a) : t < s.nextTask := by
  by_contra hge
  cases (h.acquires_fresh t (not_lt.mp hge)).symm.trans ha

theorem Placed.returnOk (h : Placed s) (t : ℕ) (a : Acquire) : Placed (s.returnOk t a) := by
  unfold Station.returnOk
  cases a.parent with
  | none => exact h.endAcquire t
  | some p =>
    dsimp only
    split
    · next hp => exact (h.endAcquire t).moveAcquire hp rfl rfl fun _ hc => hc
    · exact h.endAcquire t

theorem Placed.returnErr (h : Placed s) (t : ℕ) (a : Acquire) : Placed (s.returnErr t a) := by
  unfold Station.returnErr
  cases a.parent with
  | none => exact h.endAcquire t
  | some p =>
    dsimp only
    cases hp : (s.setAcquire t none).acquires p with
    | none => exact (h.endAcquire t).endAcquire p
    | some b =>
      exact (h.endAcquire t).moveAcquire hp rfl rfl fun c hc => by cases hc

theorem seeds_endAcquire (s : Station) (t : ℕ) :
    (s.setAcquire t none).seeds = Function.update s.seeds t none := seeds_setAcquire s t none

theorem seeds_returnOk (s : Station) (t : ℕ) (a : Acquire) :
    (s.returnOk t a).seeds = Function.update s.seeds t none := by
  unfold Station.returnOk
  cases a.parent with
  | none => exact seeds_endAcquire s t
  | some p =>
    dsimp only
    split
    · next hp =>
      rw [← seeds_endAcquire]
      refine seeds_moveAcquire (fun a₀ ha₀ => ?_) rfl
      rw [hp] at ha₀
      rw [← Option.some.inj ha₀]
      rfl
    · exact seeds_endAcquire s t

theorem seeds_returnErr (h : Placed s) (ha : s.acquires t = some a) :
    (s.returnErr t a).seeds = Function.update s.seeds t none := by
  unfold Station.returnErr
  cases hparent : a.parent with
  | none => exact seeds_endAcquire s t
  | some p =>
    dsimp only
    rw [← seeds_endAcquire]
    cases hp : (s.setAcquire t none).acquires p with
    | none =>
      rw [Option.map_none, seeds_endAcquire]
      have hnone : (s.setAcquire t none).seeds p = none := by
        rw [seeds, hp]
        rfl
      rw [← hnone, Function.update_eq_self]
    | some b =>
      refine seeds_moveAcquire (fun a₀ ha₀ => ?_) rfl
      -- an acquire that others were started for has had no request accepted
      rw [acquires_setAcquire] at ha₀
      by_cases hpt : p = t
      · rw [hpt, Function.update_self] at ha₀
        cases ha₀
      · rw [Function.update_of_ne hpt] at ha₀
        exact Stage.seeding?_of_connector? ((h.parents t a p ha hparent).2 a₀ ha₀)

theorem connectors_returnOk (s : Station) (t : ℕ) (a : Acquire) :
    (s.returnOk t a).connectors = s.connectors := by
  unfold Station.returnOk
  cases a.parent with
  | none => rfl
  | some p =>
    dsimp only
    split <;> rfl

theorem connectors_returnErr (s : Station) (t : ℕ) (a : Acquire) :
    (s.returnErr t a).connectors = s.connectors := by
  unfold Station.returnErr
  cases a.parent <;> rfl

/-- An acquire that has had no request accepted. -/
theorem seeds_eq_none (ha : s.acquires t = some a) (h : a.stage.seeding? = none) :
    s.seeds t = none := by
  rw [seeds, ha, Option.bind_some, h, Option.map_none]

theorem seeds_eq_some (ha : s.acquires t = some a) (h : a.stage.seeding? = some c) :
    s.seeds t = some (a.key, c) := by
  rw [seeds, ha, Option.bind_some, h, Option.map_some]

theorem connector?_afterReply (key : SeriesKey) (c : ℕ) {r : SubscribeReply} (h : r ≠ .ok) :
    (afterReply key c r).connector? = none := by
  cases r with
  | ok => exact absurd rfl h
  | notSupported =>
    simp only [afterReply]
    split
    · split_ifs
      · rfl
      · rfl
    · rfl
  | failed => rfl

theorem nextUpstream?_spec {dep : SeriesKey} {todo : List Kind}
    (h : s.nextUpstream? t = some (a, dep, todo)) :
    s.acquires t = some a ∧ ∃ kind, a.stage = .upstreams (kind :: todo) := by
  unfold nextUpstream? at h
  split at h
  · next ha =>
    cases h
    exact ⟨ha, _, rfl⟩
  · cases h

/-! ## One step -/

/-- The active subscriptions of `c` gain a request, and nothing else changes. -/
def Adds (s s' : Station) (c : ℕ) (spec? : Option StreamSpec) : Prop :=
  ∃ f : List StreamSpec → List StreamSpec,
    (∀ active spec, spec ∈ f active ↔ spec ∈ active ∨ spec? = some spec) ∧
      s'.connectors = (s.setActive c f).connectors

theorem mem_subscribeSpec {spec? : Option StreamSpec} {active : List StreamSpec}
    {spec : StreamSpec} :
    spec ∈ subscribeSpec spec? active ↔ spec ∈ active ∨ spec? = some spec := by
  cases spec? with
  | none => simp [subscribeSpec]
  | some spec' =>
    rw [subscribeSpec, List.mem_insert_iff, Option.some.injEq, or_comm, eq_comm]

/-- A resubscription leaves the request where it was, or brings it back. -/
theorem mem_resubscribeSpec {spec? : Option StreamSpec} {active : List StreamSpec}
    {spec : StreamSpec} :
    spec ∈ subscribeSpec spec? (unsubscribeSpec spec? active) ↔
      spec ∈ active ∨ spec? = some spec := by
  rw [mem_subscribeSpec]
  cases spec? with
  | none => rfl
  | some spec' =>
    by_cases hspec : spec = spec'
    · simp [hspec]
    · simp [unsubscribeSpec, hspec]

theorem setActive_setActive (s : Station) (c : ℕ) (f g : List StreamSpec → List StreamSpec) :
    (s.setActive c f).setActive c g = s.setActive c (g ∘ f) := by
  show Station.mk _ _ _ _ _ = Station.mk _ _ _ _ _
  congr 1
  rw [show (s.setActive c f).connectors = Function.update s.connectors c _ from rfl,
    Function.update_idem, Function.update_self, Option.map_map]
  rfl

/-- What a step does to the forwarders on connectors, the accepted requests of acquires, and the
    active subscriptions. -/
inductive Transfer (s s' : Station) : Prop
  | stays
      (hfeeds : StationInner.wsFeeds s'.inner.forwarders = StationInner.wsFeeds s.inner.forwarders)
      (hseeds : s'.seeds = s.seeds) (hconnectors : s'.connectors = s.connectors)
  | connects (exchange : ExchangeId) (accountType : AccountType)
      (hfeeds : StationInner.wsFeeds s'.inner.forwarders = StationInner.wsFeeds s.inner.forwarders)
      (hseeds : s'.seeds = s.seeds)
      (hconnectors : s'.connectors =
        Function.update s.connectors s.nextTask (some { exchange, accountType, activeSubs := [] }))
  | accepts (t : ℕ) (key : SeriesKey) (c : ℕ)
      (hfeeds : StationInner.wsFeeds s'.inner.forwarders = StationInner.wsFeeds s.inner.forwarders)
      (hnew : s.seeds t = none) (hseeds : s'.seeds = Function.update s.seeds t (some (key, c)))
      (hadds : Adds s s' c (wsRequestFor key))
  | spawns (t : ℕ) (key : SeriesKey) (c : ℕ)
      (hfeeds : StationInner.wsFeeds s'.inner.forwarders =
        Function.update (StationInner.wsFeeds s.inner.forwarders) s.inner.next (some (key, c)))
      (hold : s.seeds t = some (key, c)) (hseeds : s'.seeds = Function.update s.seeds t none)
      (hconnectors : s'.connectors = s.connectors) (hfed : s'.inner.FedBy key c)
  | resubscribes (i : ℕ) (key : SeriesKey) (c : ℕ)
      (hfed : StationInner.wsFeeds s.inner.forwarders i = some (key, c))
      (hfeeds : StationInner.wsFeeds s'.inner.forwarders = StationInner.wsFeeds s.inner.forwarders)
      (hseeds : s'.seeds = s.seeds) (hadds : Adds s s' c (wsRequestFor key))

theorem Placed.withInner {inner : StationInner} (h : Placed s) : Placed { s with inner } :=
  ⟨h.connectors_fresh, h.acquires_fresh, h.handles, h.serves, h.parents⟩

/-- Only a spawn spawns. -/
theorem op_ne_spawn {action : Action} (h : ∀ t, action ≠ .spawn t) (key : SeriesKey) (feed : Feed)
    (t : ℕ) (holder : Holder) : s.op action ≠ .spawn key feed t holder := by
  intro hop
  cases action with
  | spawn t => exact h t rfl
  | acquireUpstream t | seedDone t | fail t | graceCancelled t =>
    simp only [op] at hop
    split at hop
    · cases hop
    · cases hop
  | dropRef r =>
    simp only [op] at hop
    split_ifs at hop
  | disconnect i unsubOk subOk =>
    simp only [op] at hop
    split at hop
    · split_ifs at hop
    · cases hop
  | leaveLoop i =>
    simp only [op] at hop
    split at hop
    · split_ifs at hop
    · cases hop
  | _ => cases hop

theorem wsFeeds_step (cfg : Config) (s : Station) {action : Action}
    (h : ∀ t, action ≠ .spawn t) :
    StationInner.wsFeeds (s.step cfg action).inner.forwarders =
      StationInner.wsFeeds s.inner.forwarders :=
  StationInner.wsFeeds_apply cfg.grace s.inner (op_ne_spawn h)

/-- A step that spawns nothing, accepts no request and touches no connector. -/
theorem transfer_of_around {action : Action} (h : ∀ t, action ≠ .spawn t)
    (hseeds : (s.around cfg action).seeds = s.seeds)
    (hconnectors : (s.around cfg action).connectors = s.connectors) :
    Transfer s (s.step cfg action) :=
  .stays (wsFeeds_step cfg s h) hseeds hconnectors

theorem seeds_step (cfg : Config) (s : Station) (action : Action) :
    (s.step cfg action).seeds = (s.around cfg action).seeds := rfl

theorem connectors_step (cfg : Config) (s : Station) (action : Action) :
    (s.step cfg action).connectors = (s.around cfg action).connectors := rfl

/-- A step that changes no more than the maps, and spawns nothing. -/
theorem spec_of_around_eq (h : Placed s) {action : Action}
    (hfeeds : StationInner.wsFeeds (s.step cfg action).inner.forwarders =
      StationInner.wsFeeds s.inner.forwarders) (haround : s.around cfg action = s) :
    Placed (s.around cfg action) ∧ Transfer s (s.step cfg action) := by
  refine ⟨by rwa [haround], .stays hfeeds ?_ ?_⟩
  · rw [seeds_step, haround]
  · rw [connectors_step, haround]

/-- `hub.connect_websocket`. -/
theorem Placed.connect (h : Placed s) (exchange : ExchangeId) (accountType : AccountType) :
    Placed (s.around cfg (.connectWebsocket exchange accountType)) := by
  have hplace : ∀ c p, s.place c = some p →
      (s.around cfg (.connectWebsocket exchange accountType)).place c = some p := by
    intro c p hc
    have hne : c ≠ s.nextTask := by
      rintro rfl
      rw [place, h.connectors_fresh _ (le_refl _)] at hc
      cases hc
    show (Function.update s.connectors s.nextTask _ c).map _ = some p
    rwa [Function.update_of_ne hne]
  refine ⟨?_, fun t ht => h.acquires_fresh t (Nat.le_of_succ_le ht), ?_, ?_, ?_⟩
  · intro c hc
    have hlt : s.nextTask < c := hc
    exact (Function.update_of_ne hlt.ne' _ _).trans (h.connectors_fresh c hlt.le)
  · intro exchange' accountType' c hc
    have hc' : Function.update s.ws exchange (Function.update (s.ws exchange) accountType
      (some s.nextTask)) exchange' accountType' = some c := hc
    by_cases hex : exchange' = exchange
    · subst hex
      rw [Function.update_self] at hc'
      by_cases hacc : accountType' = accountType
      · subst hacc
        rw [Function.update_self] at hc'
        obtain rfl := Option.some.inj hc'
        show (Function.update s.connectors s.nextTask _ s.nextTask).map _ = _
        rw [Function.update_self]
        rfl
      · rw [Function.update_of_ne hacc] at hc'
        exact hplace c _ (h.handles _ _ c hc')
    · rw [Function.update_of_ne hex] at hc'
      exact hplace c _ (h.handles _ _ c hc')
  · intro t a c ha hc
    obtain ⟨hkind, hc⟩ := h.serves t a c ha hc
    exact ⟨hkind, hplace c _ hc⟩
  · intro t a p ha hp
    obtain ⟨hlt, hoff⟩ := h.parents t a p ha hp
    exact ⟨Nat.lt_succ_of_lt hlt, hoff⟩

/-- An acquire goes on with its next upstream. -/
theorem acquireUpstream_spec (cfg : Config) (h : Placed s) (t : ℕ) :
    Placed (s.around cfg (.acquireUpstream t)) ∧
      (s.around cfg (.acquireUpstream t)).seeds = s.seeds ∧
      (s.around cfg (.acquireUpstream t)).connectors = s.connectors := by
  simp only [around]
  split
  · next a dep todo hnext =>
    obtain ⟨ha, kind, hstage⟩ := nextUpstream?_spec hnext
    have hold : ∀ a₀, s.acquires t = some a₀ → a₀.stage.seeding? = none := by
      intro a₀ ha₀
      obtain rfl := Option.some.inj (ha.symm.trans ha₀)
      rw [hstage]
      rfl
    split_ifs
    · refine ⟨h.moveAcquire ha rfl rfl ?_, seeds_moveAcquire hold rfl, rfl⟩
      intro c hc
      cases hc
    · have hmoved : Placed (s.setAcquire t (some { a with stage := .awaiting todo })) :=
        h.moveAcquire ha rfl rfl (by simp [Stage.connector?])
      refine ⟨hmoved.startAcquire false ?_, ?_, rfl⟩
      · rintro p hp
        obtain rfl := Option.some.inj hp
        refine ⟨h.lt_nextTask ha, fun a' ha' => ?_⟩
        rw [acquires_setAcquire, Function.update_self] at ha'
        rw [← Option.some.inj ha']
        rfl
      · rw [seeds_startAcquire hmoved]
        exact seeds_moveAcquire hold rfl
  · exact ⟨h, rfl, rfl⟩

/-- `ws.subscribe` answers. -/
theorem reply_spec (h : Placed s) (t : ℕ) (r : SubscribeReply) :
    Placed (s.around cfg (.reply t r)) ∧ Transfer s (s.step cfg (.reply t r)) := by
  have hfeeds : StationInner.wsFeeds (s.step cfg (.reply t r)).inner.forwarders =
      StationInner.wsFeeds s.inner.forwarders :=
    wsFeeds_step cfg s fun _ => by simp
  cases ha : s.acquires t with
  | none =>
    exact spec_of_around_eq h hfeeds (by simp only [around, ha])
  | some a =>
    obtain ⟨key, parent, stage⟩ := a
    cases stage with
    | subscribing c =>
      by_cases hr : r = .ok
      · subst hr
        have haround : s.around cfg (.reply t .ok) =
            (s.setAcquire t (some ⟨key, parent, .seeding c⟩)).setActive c
              (subscribeSpec (wsRequestFor key)) := by
          simp only [around, ha, afterReply, if_true]
        have hmoved : Placed (s.setAcquire t (some ⟨key, parent, .seeding c⟩)) :=
          h.moveAcquire ha rfl rfl fun _ hc => hc
        refine ⟨?_, .accepts t key c hfeeds (seeds_eq_none ha rfl) ?_ ?_⟩
        · rw [haround]
          exact hmoved.setActive c _
        · rw [seeds_step, haround]
          exact seeds_setAcquire s t _
        · refine ⟨subscribeSpec (wsRequestFor key), fun _ _ => mem_subscribeSpec, ?_⟩
          rw [connectors_step, haround]
          rfl
      · have hoff := connector?_afterReply key c hr
        have haround : s.around cfg (.reply t r) =
            s.setAcquire t (some ⟨key, parent, afterReply key c r⟩) := by
          simp only [around, ha, if_neg hr]
        refine ⟨?_, .stays hfeeds ?_ ?_⟩
        · rw [haround]
          refine h.moveAcquire ha rfl rfl fun c' hc' => ?_
          cases hoff.symm.trans hc'
        · rw [seeds_step, haround]
          refine seeds_moveAcquire (fun a₀ ha₀ => ?_) (Stage.seeding?_of_connector? hoff)
          rw [← Option.some.inj (ha.symm.trans ha₀)]
          rfl
        · rw [connectors_step, haround]
          rfl
    | _ =>
      exact spec_of_around_eq h hfeeds (by simp only [around, ha])

/-- An acquire spawns. -/
theorem spawn_spec (h : Placed s) (hsound : s.inner.view.Sound) (t : ℕ) :
    Placed (s.around cfg (.spawn t)) ∧ Transfer s (s.step cfg (.spawn t)) := by
  cases hnext : (s.acquires t).bind fun a => a.stage.feed?.map fun feed => (a, feed) with
  | none =>
    have hidle : ∀ a, s.acquires t = some a → a.stage.feed? = none := by
      intro a ha
      rw [ha] at hnext
      exact Option.map_eq_none_iff.mp hnext
    have hop : s.op (.spawn t) = .skip := by
      cases ha : s.acquires t with
      | none => simp only [op, ha]
      | some a => simp only [op, ha, hidle a ha]
    refine spec_of_around_eq h (by rw [inner_step, hop]; rfl) ?_
    cases ha : s.acquires t with
    | none => simp only [around, ha]
    | some a => simp only [around, ha, hidle a ha]
  | some next =>
    obtain ⟨a, ha, hnext⟩ := Option.bind_eq_some_iff.mp hnext
    obtain ⟨feed, hfeed, rfl⟩ := Option.map_eq_some_iff.mp hnext
    have hfeeds := StationInner.wsFeeds_spawn s.inner a.key feed t (spawnHolder t a feed) cfg.grace
    have hop : s.op (.spawn t) = .spawn a.key feed t (spawnHolder t a feed) := by
      simp only [op, ha, hfeed]
    rw [← hop, ← inner_step] at hfeeds
    have hstage := Stage.seeding?_of_feed? hfeed
    cases feed with
    | ws c =>
      have haround : s.around cfg (.spawn t) = s.returnOk t a := by simp only [around, ha, hfeed]
      refine ⟨?_, .spawns t a.key c hfeeds (seeds_eq_some ha hstage) ?_ ?_ ?_⟩
      · rw [haround]
        exact h.returnOk t a
      · rw [seeds_step, haround]
        exact seeds_returnOk s t a
      · rw [connectors_step, haround]
        exact connectors_returnOk s t a
      · rw [inner_step, hop]
        exact StationInner.fedBy_spawn s.inner a.key c t _ cfg.grace
    | poll =>
      have haround : s.around cfg (.spawn t) = s.returnOk t a := by simp only [around, ha, hfeed]
      refine ⟨?_, .stays ?_ ?_ ?_⟩
      · rw [haround]
        exact h.returnOk t a
      · rw [hfeeds, ← StationInner.wsFeeds_fresh hsound]
        exact Function.update_eq_self _ _
      · rw [seeds_step, haround, seeds_returnOk, ← seeds_eq_none ha hstage,
          Function.update_eq_self]
      · rw [connectors_step, haround]
        exact connectors_returnOk s t a
    | derived =>
      have haround : s.around cfg (.spawn t) =
          s.setAcquire t (some { a with stage := .settling }) := by
        simp only [around, ha, hfeed]
      refine ⟨?_, .stays ?_ ?_ ?_⟩
      · rw [haround]
        exact h.moveAcquire ha rfl rfl (by simp [Stage.connector?])
      · rw [hfeeds, ← StationInner.wsFeeds_fresh hsound]
        exact Function.update_eq_self _ _
      · rw [seeds_step, haround]
        refine seeds_moveAcquire (fun a₀ ha₀ => ?_) rfl
        rw [← Option.some.inj (ha.symm.trans ha₀)]
        exact hstage
      · rw [connectors_step, haround]
        rfl

/-- A derived acquire returns, once its forwarder has been seeded. -/
theorem seedDone_spec (cfg : Config) (h : Placed s) (t : ℕ) :
    Placed (s.around cfg (.seedDone t)) ∧
      (s.around cfg (.seedDone t)).seeds = s.seeds ∧
      (s.around cfg (.seedDone t)).connectors = s.connectors := by
  simp only [around]
  split
  · next ha =>
    refine ⟨h.returnOk t _, ?_, connectors_returnOk s t _⟩
    rw [seeds_returnOk, ← seeds_eq_none ha rfl, Function.update_eq_self]
  · exact ⟨h, rfl, rfl⟩

/-- An acquire returns its error. -/
theorem fail_spec (cfg : Config) (h : Placed s) (t : ℕ) :
    Placed (s.around cfg (.fail t)) ∧ (s.around cfg (.fail t)).seeds = s.seeds ∧
      (s.around cfg (.fail t)).connectors = s.connectors := by
  simp only [around]
  split
  · next ha =>
    refine ⟨h.returnErr t _, ?_, connectors_returnErr s t _⟩
    rw [seeds_returnErr h ha, ← seeds_eq_none ha rfl, Function.update_eq_self]
  · exact ⟨h, rfl, rfl⟩

/-- A forwarder of a kline resubscribes. -/
theorem disconnect_spec (h : Placed s) (i : ℕ) {unsubOk subOk : Bool}
    (hwhole : unsubOk = true → subOk = true) :
    Placed (s.around cfg (.disconnect i unsubOk subOk)) ∧
      Transfer s (s.step cfg (.disconnect i unsubOk subOk)) := by
  have hfeeds : StationInner.wsFeeds
      (s.step cfg (.disconnect i unsubOk subOk)).inner.forwarders =
        StationInner.wsFeeds s.inner.forwarders :=
    wsFeeds_step cfg s fun _ => by simp
  by_cases hresub : ∃ f c, s.inner.forwarders i = some f ∧ f.feed = .ws c ∧ f.phase = .running ∧
      f.key.kind.isKlineFamily = true
  · obtain ⟨⟨key, feed, phase, signalled, ackTaken, flushRx⟩, c, hf, rfl, rfl, hkline⟩ := hresub
    have hfed : StationInner.wsFeeds s.inner.forwarders i = some (key, c) := by
      rw [StationInner.wsFeeds, hf]
      rfl
    have haround : s.around cfg (.disconnect i unsubOk subOk) =
        let s := if unsubOk then s.setActive c (unsubscribeSpec (wsRequestFor key)) else s
        if subOk then s.setActive c (subscribeSpec (wsRequestFor key)) else s := by
      simp only [around, hf]
      exact if_pos hkline
    cases subOk with
    | false =>
      cases unsubOk with
      | true => cases hwhole rfl
      | false => exact spec_of_around_eq h hfeeds haround
    | true =>
      cases unsubOk with
      | true =>
        refine ⟨?_, .resubscribes i key c hfed hfeeds ?_ ?_⟩
        · rw [haround]
          exact (h.setActive c _).setActive c _
        · rw [seeds_step, haround]
          rfl
        · refine ⟨subscribeSpec (wsRequestFor key) ∘ unsubscribeSpec (wsRequestFor key),
            fun _ _ => mem_resubscribeSpec, ?_⟩
          rw [connectors_step, haround, ← setActive_setActive]
          rfl
      | false =>
        refine ⟨?_, .resubscribes i key c hfed hfeeds ?_ ?_⟩
        · rw [haround]
          exact h.setActive c _
        · rw [seeds_step, haround]
          rfl
        · refine ⟨subscribeSpec (wsRequestFor key), fun _ _ => mem_subscribeSpec, ?_⟩
          rw [connectors_step, haround]
          rfl
  · refine spec_of_around_eq h hfeeds ?_
    simp only [around]
    split
    · next key c signalled ackTaken flushRx hf =>
      refine if_neg fun hkline => hresub ⟨_, c, hf, rfl, rfl, ?_⟩
      exact hkline
    · rfl

/-- **Step lemma.** -/
theorem step_spec (cfg : Config) (h : Placed s) (hsound : s.inner.view.Sound) {action : Action}
    (hwhole : ∀ i, action ≠ .disconnect i true false) :
    Placed (s.step cfg action) ∧ Transfer s (s.step cfg action) := by
  suffices hsuff : Placed (s.around cfg action) ∧ Transfer s (s.step cfg action) from
    ⟨hsuff.1.withInner, hsuff.2⟩
  cases action with
  | connectWebsocket exchange accountType =>
    refine ⟨h.connect exchange accountType, .connects exchange accountType ?_ rfl rfl⟩
    exact wsFeeds_step cfg s fun _ => by simp
  | subscribe key source =>
    by_cases hmux : (s.inner.muxes key).isSome
    · refine spec_of_around_eq h ?_ (if_pos hmux)
      exact wsFeeds_step cfg s fun _ => by simp
    · have haround : s.around cfg (.subscribe key source) = s.startAcquire cfg key none source :=
        if_neg hmux
      refine ⟨?_, transfer_of_around (fun _ => by simp) ?_ ?_⟩
      · rw [haround]
        exact h.startAcquire source fun p hp => by cases hp
      · rw [haround]
        exact seeds_startAcquire h key none source
      · rw [haround]
        rfl
  | acquireUpstream t =>
    obtain ⟨hplaced, hseeds, hconnectors⟩ := acquireUpstream_spec cfg h t
    exact ⟨hplaced, transfer_of_around (fun _ => by simp) hseeds hconnectors⟩
  | reply t r => exact reply_spec h t r
  | spawn t => exact spawn_spec h hsound t
  | seedDone t =>
    obtain ⟨hplaced, hseeds, hconnectors⟩ := seedDone_spec cfg h t
    exact ⟨hplaced, transfer_of_around (fun _ => by simp) hseeds hconnectors⟩
  | fail t =>
    obtain ⟨hplaced, hseeds, hconnectors⟩ := fail_spec cfg h t
    exact ⟨hplaced, transfer_of_around (fun _ => by simp) hseeds hconnectors⟩
  | disconnect i unsubOk subOk =>
    refine disconnect_spec h i fun hunsub => ?_
    cases subOk with
    | true => rfl
    | false => exact absurd (by rw [hunsub]) (hwhole i)
  | dropRef | graceExpired | graceCancelled | forceUnsubscribe | openStore | leaveLoop | exit =>
    exact ⟨h, transfer_of_around (fun _ => by simp) rfl rfl⟩

/-! ## Runs -/

/-- The request of the key was accepted by the connector, for an acquire that has not spawned yet
    or for a forwarder. -/
def Asked (s : Station) (key : SeriesKey) (c : ℕ) : Prop :=
  (∃ i, StationInner.wsFeeds s.inner.forwarders i = some (key, c)) ∨
    ∃ t, s.seeds t = some (key, c)

/-- What holds after every run: the active subscriptions of a connector are the requests that it
    ever accepted. -/
structure Tracked (s : Station) : Prop where
  sound : s.inner.view.Sound
  placed : Placed s
  fed : ∀ i key c, StationInner.wsFeeds s.inner.forwarders i = some (key, c) → s.Serves c key
  active : ∀ c conn spec, s.connectors c = some conn →
    (spec ∈ conn.activeSubs ↔ ∃ key, s.Asked key c ∧ wsRequestFor key = some spec)

theorem exists_update_iff {α : Type} {g : ℕ → Option α} {n : ℕ} (h : g n = none) (x y : α) :
    (∃ i, Function.update g n (some x) i = some y) ↔ (∃ i, g i = some y) ∨ x = y := by
  constructor
  · rintro ⟨i, hi⟩
    by_cases hin : i = n
    · rw [hin, Function.update_self] at hi
      exact .inr (Option.some.inj hi)
    · rw [Function.update_of_ne hin] at hi
      exact .inl ⟨i, hi⟩
  · rintro (⟨i, hi⟩ | rfl)
    · have hin : i ≠ n := by
        rintro rfl
        cases h.symm.trans hi
      exact ⟨i, by rwa [Function.update_of_ne hin]⟩
    · exact ⟨n, Function.update_self ..⟩

theorem exists_update_none_iff {α : Type} {g : ℕ → Option α} {n : ℕ} {x : α} (h : g n = some x)
    (y : α) : (∃ i, g i = some y) ↔ (∃ i, Function.update g n none i = some y) ∨ x = y := by
  rw [← exists_update_iff (Function.update_self n none g), Function.update_idem, ← h,
    Function.update_eq_self]

theorem Tracked.serves_of_asked (h : Tracked s) (hasked : s.Asked key c) : s.Serves c key := by
  rcases hasked with ⟨i, hi⟩ | ⟨t, ht⟩
  · exact h.fed i key c hi
  · obtain ⟨a, ha, hstage⟩ := Option.bind_eq_some_iff.mp ht
    obtain ⟨c', hc', heq⟩ := Option.map_eq_some_iff.mp hstage
    obtain ⟨rfl, rfl⟩ := Prod.mk.inj heq
    exact h.placed.serves t a c' ha (Stage.connector?_of_seeding? hc')

theorem Adds.place_eq {spec? : Option StreamSpec} (h : Adds s s' c spec?) : s'.place = s.place := by
  obtain ⟨f, -, hconnectors⟩ := h
  rw [← place_setActive s c f]
  funext c'
  exact congrArg (Option.map _) (congrFun hconnectors c')

theorem Adds.mem_iff {spec? : Option StreamSpec} (h : Adds s s' c spec?) {c' : ℕ}
    {conn' : Connector} (hconn : s'.connectors c' = some conn') :
    ∃ conn, s.connectors c' = some conn ∧ ∀ spec,
      spec ∈ conn'.activeSubs ↔ spec ∈ conn.activeSubs ∨ c' = c ∧ spec? = some spec := by
  obtain ⟨f, hf, hconnectors⟩ := h
  rw [hconnectors] at hconn
  have hupdate : Function.update s.connectors c
      ((s.connectors c).map fun conn => { conn with activeSubs := f conn.activeSubs }) c' =
        some conn' := hconn
  by_cases hc : c' = c
  · rw [hc, Function.update_self] at hupdate
    obtain ⟨conn, hold, rfl⟩ := Option.map_eq_some_iff.mp hupdate
    refine ⟨conn, by rw [hc, hold], fun spec => ?_⟩
    rw [and_iff_right hc]
    exact hf conn.activeSubs spec
  · rw [Function.update_of_ne hc] at hupdate
    exact ⟨conn', hupdate, fun spec => by simp [hc]⟩

/-- A connector keeps its exchange and account. -/
theorem Transfer.place_of_some (h : Transfer s s') (hplaced : Placed s)
    {p : ExchangeId × AccountType} (hp : s.place c = some p) : s'.place c = some p := by
  cases h with
  | stays _ _ hconnectors => rwa [place, hconnectors]
  | connects exchange accountType _ _ hconnectors =>
    have hne : c ≠ s.nextTask := by
      rintro rfl
      rw [place, hplaced.connectors_fresh _ (le_refl _)] at hp
      cases hp
    rwa [place, hconnectors, Function.update_of_ne hne]
  | accepts t key c' _ _ _ hadds => rwa [hadds.place_eq]
  | spawns t key c' _ _ _ hconnectors _ => rwa [place, hconnectors]
  | resubscribes i key c' _ _ _ hadds => rwa [hadds.place_eq]

/-- What the forwarders on connectors were, they stay. -/
theorem Transfer.wsFeeds_of_some (h : Transfer s s') (hsound : s.inner.view.Sound) {i : ℕ}
    {x : SeriesKey × ℕ} (hx : StationInner.wsFeeds s.inner.forwarders i = some x) :
    StationInner.wsFeeds s'.inner.forwarders i = some x := by
  cases h with
  | stays hfeeds _ _ => rwa [hfeeds]
  | connects _ _ hfeeds _ _ => rwa [hfeeds]
  | accepts _ _ _ hfeeds _ _ _ => rwa [hfeeds]
  | spawns _ _ _ hfeeds _ _ _ _ =>
    have hne : i ≠ s.inner.next := by
      rintro rfl
      cases (StationInner.wsFeeds_fresh hsound).symm.trans hx
    rwa [hfeeds, Function.update_of_ne hne]
  | resubscribes _ _ _ _ hfeeds _ _ => rwa [hfeeds]

/-- A forwarder on a connector was there before, or is registered now. -/
theorem Transfer.wsFeeds_or_fedBy (h : Transfer s s')
    (hfed : ∃ i, StationInner.wsFeeds s'.inner.forwarders i = some (key, c))
    (hsound : s.inner.view.Sound) :
    (∃ i, StationInner.wsFeeds s.inner.forwarders i = some (key, c)) ∨ s'.inner.FedBy key c := by
  cases h with
  | stays hfeeds _ _ => exact .inl (by rwa [hfeeds] at hfed)
  | connects _ _ hfeeds _ _ => exact .inl (by rwa [hfeeds] at hfed)
  | accepts _ _ _ hfeeds _ _ _ => exact .inl (by rwa [hfeeds] at hfed)
  | spawns t key' c' hfeeds _ _ _ hnew =>
    rw [hfeeds, exists_update_iff (StationInner.wsFeeds_fresh hsound)] at hfed
    refine hfed.imp_right fun heq => ?_
    obtain ⟨rfl, rfl⟩ := Prod.mk.inj heq
    exact hnew
  | resubscribes _ _ _ _ hfeeds _ _ => exact .inl (by rwa [hfeeds] at hfed)

/-- A forwarder on a connector was there before, or its request had been accepted. -/
theorem Transfer.asked_of_wsFeeds (h : Transfer s s') {i : ℕ}
    (hi : StationInner.wsFeeds s'.inner.forwarders i = some (key, c)) : s.Asked key c := by
  cases h with
  | stays hfeeds _ _ => exact .inl ⟨i, by rwa [hfeeds] at hi⟩
  | connects _ _ hfeeds _ _ => exact .inl ⟨i, by rwa [hfeeds] at hi⟩
  | accepts _ _ _ hfeeds _ _ _ => exact .inl ⟨i, by rwa [hfeeds] at hi⟩
  | spawns t key' c' hfeeds hold _ _ _ =>
    rw [hfeeds] at hi
    by_cases hnext : i = s.inner.next
    · rw [hnext, Function.update_self] at hi
      exact .inr ⟨t, hold.trans hi⟩
    · rw [Function.update_of_ne hnext] at hi
      exact .inl ⟨i, hi⟩
  | resubscribes _ _ _ _ hfeeds _ _ => exact .inl ⟨i, by rwa [hfeeds] at hi⟩

/-- What the active subscriptions are follows the step. -/
theorem Transfer.active (h : Transfer s s') (hs : Tracked s) {conn : Connector} {spec : StreamSpec}
    (hconn : s'.connectors c = some conn) :
    spec ∈ conn.activeSubs ↔ ∃ key, s'.Asked key c ∧ wsRequestFor key = some spec := by
  cases h with
  | stays hfeeds hseeds hconnectors =>
    rw [hconnectors] at hconn
    simp only [Asked, hfeeds, hseeds]
    exact hs.active c conn spec hconn
  | connects exchange accountType hfeeds hseeds hconnectors =>
    rw [hconnectors] at hconn
    simp only [Asked, hfeeds, hseeds]
    by_cases hc : c = s.nextTask
    · subst hc
      rw [Function.update_self] at hconn
      obtain rfl := Option.some.inj hconn
      refine iff_of_false List.not_mem_nil ?_
      -- the number of the new connector was not in use
      rintro ⟨key, hasked, -⟩
      have hplace := (hs.serves_of_asked hasked).2
      rw [place, hs.placed.connectors_fresh _ (le_refl _)] at hplace
      cases hplace
    · rw [Function.update_of_ne hc] at hconn
      exact hs.active c conn spec hconn
  | accepts t key c' hfeeds hnew hseeds hadds =>
    obtain ⟨conn₀, hconn₀, hmem⟩ := hadds.mem_iff hconn
    have hasked : ∀ k, s'.Asked k c ↔ s.Asked k c ∨ (key, c') = (k, c) := by
      intro k
      rw [Asked, Asked, hfeeds, hseeds, exists_update_iff hnew, or_assoc]
    rw [hmem, hs.active c conn₀ spec hconn₀]
    simp only [hasked, or_and_right, exists_or]
    refine or_congr_right ⟨?_, ?_⟩
    · rintro ⟨rfl, hspec⟩
      exact ⟨key, rfl, hspec⟩
    · rintro ⟨k, heq, hspec⟩
      obtain ⟨rfl, rfl⟩ := Prod.mk.inj heq
      exact ⟨rfl, hspec⟩
  | spawns t key c' hfeeds hold hseeds hconnectors _ =>
    have hasked : ∀ k, s'.Asked k c ↔ s.Asked k c := by
      intro k
      rw [Asked, Asked, hfeeds, hseeds, exists_update_iff (StationInner.wsFeeds_fresh hs.sound),
        exists_update_none_iff hold, or_assoc, or_comm (b := ∃ t, _)]
    rw [hconnectors] at hconn
    simp only [hasked]
    exact hs.active c conn spec hconn
  | resubscribes i key c' hfed hfeeds hseeds hadds =>
    obtain ⟨conn₀, hconn₀, hmem⟩ := hadds.mem_iff hconn
    have hasked : ∀ k, s'.Asked k c ↔ s.Asked k c := by
      intro k
      rw [Asked, Asked, hfeeds, hseeds]
    simp only [hasked]
    rw [hmem, hs.active c conn₀ spec hconn₀, or_iff_left_iff_imp]
    rintro ⟨rfl, hspec⟩
    exact ⟨key, .inl ⟨i, hfed⟩, hspec⟩

theorem tracked_init : Tracked init where
  sound := Registry.sound_empty
  placed := placed_init
  fed := by
    intro i key c h
    cases h
  active := by
    intro c conn spec h
    cases h

/-- **Step lemma.** -/
theorem Tracked.step (h : Tracked s) {action : Action}
    (hwhole : ∀ i, action ≠ .disconnect i true false) : Tracked (s.step cfg action) := by
  obtain ⟨hplaced, htransfer⟩ := step_spec cfg h.placed h.sound hwhole
  refine ⟨StationInner.sound_apply cfg.grace h.sound _, hplaced, ?_, ?_⟩
  · intro i key c hi
    obtain ⟨hkind, hplace⟩ := h.serves_of_asked (htransfer.asked_of_wsFeeds hi)
    exact ⟨hkind, htransfer.place_of_some h.placed hplace⟩
  · exact fun c conn spec hconn => htransfer.active h hconn

theorem run_concat (cfg : Config) (as : List Action) (a : Action) :
    run cfg (as ++ [a]) = (run cfg as).step cfg a := List.foldl_concat _ _ _ _

theorem tracked_run (cfg : Config) {as : List Action} (hwhole : ResubscribesWhole as) :
    Tracked (run cfg as) := by
  refine foldl_invariant_of_steps tracked_init (fun s a hs ha => hs.step ha) ?_
  rintro pre a hpre i rfl
  exact hwhole i (hpre.subset (by simp))

/-- The keys that a connector fed at some time are those of the forwarders. -/
theorem exists_fedBy_iff (cfg : Config) {as : List Action} (hwhole : ResubscribesWhole as)
    (key : SeriesKey) (c : ℕ) :
    (∃ pre, pre <+: as ∧ (run cfg pre).inner.FedBy key c) ↔
      ∃ i, StationInner.wsFeeds (run cfg as).inner.forwarders i = some (key, c) := by
  induction as using List.reverseRecOn with
  | nil =>
    refine iff_of_false ?_ ?_
    · rintro ⟨pre, hpre, mux, f, hmux, -⟩
      obtain rfl := List.prefix_nil.mp hpre
      cases hmux
    · rintro ⟨i, hi⟩
      cases hi
  | append_singleton as a ih =>
    have hbefore : ResubscribesWhole as := fun i hi => hwhole i (List.mem_append_left _ hi)
    have hlast : ∀ i, a ≠ .disconnect i true false := by
      rintro i rfl
      exact hwhole i (by simp)
    have htracked := tracked_run cfg hbefore
    have htransfer := (step_spec cfg htracked.placed htracked.sound hlast).2
    rw [← run_concat] at htransfer
    constructor
    · rintro ⟨pre, hpre, hfed⟩
      rcases List.prefix_concat_iff.mp hpre with rfl | hpre
      · exact hfed.exists_wsFeeds (tracked_run cfg hwhole).sound
      · obtain ⟨i, hi⟩ := (ih hbefore).mp ⟨pre, hpre, hfed⟩
        exact ⟨i, htransfer.wsFeeds_of_some htracked.sound hi⟩
    · intro hi
      rcases htransfer.wsFeeds_or_fedBy hi htracked.sound with hold | hfed
      · obtain ⟨pre, hpre, hfed⟩ := (ih hbefore).mpr hold
        exact ⟨pre, hpre.trans (List.prefix_append _ _), hfed⟩
      · exact ⟨_, List.prefix_refl _, hfed⟩

/-- A settled station: what is subscribed is what was ever fed. -/
theorem Settled.active_iff (hs : Settled s) (h : Tracked s) {conn : Connector} {spec : StreamSpec}
    (hconn : s.connectors c = some conn) :
    spec ∈ conn.activeSubs ↔ ∃ key, (∃ i, StationInner.wsFeeds s.inner.forwarders i =
      some (key, c)) ∧ wsRequestFor key = some spec := by
  have hseeds : ∀ key, ¬∃ t, s.seeds t = some (key, c) := by
    rintro key ⟨t, ht⟩
    rw [seeds, hs.acquires t] at ht
    cases ht
  rw [h.active c conn spec hconn]
  simp only [Asked, hseeds, or_false]

/-- **Main theorem.** A settled station has exactly the subscriptions of its series exactly when
    the run has released none of the series that it acquired. -/
theorem subscriptions_lawful_iff (cfg : Config) (as : List Action)
    (hwhole : ResubscribesWhole as) (hs : Settled (run cfg as)) :
    SubscriptionsLawful (run cfg as) ↔ NothingReleased cfg as := by
  have htracked := tracked_run cfg hwhole
  have hserves : ∀ {key c}, (run cfg as).inner.FedBy key c → (run cfg as).Serves c key :=
    fun hfed => htracked.serves_of_asked (.inl (hfed.exists_wsFeeds htracked.sound))
  constructor
  · intro hlawful pre hpre key c hfed
    have hever := (exists_fedBy_iff cfg hwhole key c).mp ⟨pre, hpre, hfed⟩
    obtain ⟨hkind, hplace⟩ := htracked.serves_of_asked (.inl hever)
    obtain ⟨conn, hconn, -⟩ := Option.map_eq_some_iff.mp hplace
    obtain ⟨spec, hspec⟩ := exists_wsRequestFor hkind
    have hactive := (hs.active_iff htracked hconn).mpr ⟨key, hever, hspec⟩
    obtain ⟨key', hfed', hspec'⟩ := (hlawful.exact c conn spec hconn).mp hactive
    have hexchange : key.exchange = key'.exchange :=
      (Prod.mk.inj (Option.some.inj (hplace.symm.trans (hserves hfed').2))).1
    rwa [key_eq_of_wsRequestFor hspec hspec' hexchange]
  · intro hkept
    have hexact : ∀ c conn spec, (run cfg as).connectors c = some conn →
        (spec ∈ conn.activeSubs ↔
          ∃ key, (run cfg as).inner.FedBy key c ∧ wsRequestFor key = some spec) := by
      intro c conn spec hconn
      rw [hs.active_iff htracked hconn]
      refine exists_congr fun key => and_congr_left fun _ => ⟨fun hever => ?_, fun hfed => ?_⟩
      · obtain ⟨pre, hpre, hfed⟩ := (exists_fedBy_iff cfg hwhole key c).mpr hever
        exact hkept pre hpre key c hfed
      · exact hfed.exists_wsFeeds htracked.sound
    refine ⟨hexact, ?_, ?_⟩
    · intro key c conn spec hconn hexchange hspec hnone hactive
      obtain ⟨key', hfed, hspec'⟩ := (hexact c conn spec hconn).mp hactive
      have hplace := (hserves hfed).2
      rw [place, hconn] at hplace
      have hexchange' : conn.exchange = key'.exchange :=
        (Prod.mk.inj (Option.some.inj hplace)).1
      obtain rfl := key_eq_of_wsRequestFor hspec hspec' (hexchange.symm.trans hexchange')
      obtain ⟨mux, f, hmux, -⟩ := hfed
      cases hnone.symm.trans hmux
    · intro key mux c _ _ hfed
      obtain ⟨hkind, hplace⟩ := hserves hfed
      obtain ⟨conn, hconn, -⟩ := Option.map_eq_some_iff.mp hplace
      obtain ⟨spec, hspec⟩ := exists_wsRequestFor hkind
      exact ⟨conn, spec, hconn, hspec, (hexact c conn spec hconn).mpr ⟨key, hfed, hspec⟩⟩

/-- Numbers that are not in use hold nothing back. -/
theorem Tracked.settled (h : Tracked s) (hacquires : ∀ t < s.nextTask, s.acquires t = none)
    (htimers : ∀ t timer, s.inner.timers t = some timer → timer.cancelled = true)
    (hforwarders : ∀ i < s.inner.next, ∀ f, s.inner.forwarders i = some f →
      f.signalled = true → f.phase = .exited) : Settled s := by
  refine ⟨fun t => ?_, htimers, fun i f hf => ?_⟩
  · by_cases ht : t < s.nextTask
    · exact hacquires t ht
    · exact h.placed.acquires_fresh t (not_lt.mp ht)
  · by_cases hi : i < s.inner.next
    · exact hforwarders i hi f hf
    · have hnone := Option.map_eq_none_iff.mp (h.sound.fresh i (not_lt.mp hi))
      cases hf.symm.trans hnone

theorem resubscribesWhole_oneSubscribe (n : ℕ) : ResubscribesWhole (oneSubscribe.take n) := by
  intro i hi
  have hmem := List.mem_of_mem_take hi
  simp [oneSubscribe] at hmem

/-- The series is acquired, and its subscriber stays. -/
theorem subscriptions_lawful_iff_attached :
    SubscriptionsLawful (run { native := true, grace := false } (oneSubscribe.take 4)) := by
  have hwhole := resubscribesWhole_oneSubscribe 4
  refine (subscriptions_lawful_iff _ _ hwhole ?_).mpr ?_
  · refine (tracked_run _ hwhole).settled (fun t ht => ?_) (fun t timer ht => by cases ht) ?_
    · have ht' : t < 2 := ht
      interval_cases t <;> rfl
    · intro i hi f hf hsignalled
      have hi' : i < 1 := hi
      interval_cases i
      have hnot : ((run { native := true, grace := false } (oneSubscribe.take 4)).inner.forwarders
          0).map ForwarderTask.signalled = some false := by decide
      rw [hf, Option.map_some, hsignalled] at hnot
      cases hnot
  · intro pre hpre key c hfed
    rcases List.prefix_concat_iff.mp (show pre <+: oneSubscribe.take 3 ++ [.spawn 1] from hpre)
      with rfl | hpre
    · exact hfed
    · -- nothing is registered in front of the spawn
      obtain ⟨mux, f, hmux, -⟩ := hfed
      have hlength : pre.length ≤ 3 := hpre.length_le
      rw [List.prefix_iff_eq_take.mp hpre] at hmux
      generalize pre.length = n at hmux hlength
      interval_cases n <;> cases hmux

/-- The subscriber leaves, the forwarder exits, and the request stays in the active
    subscriptions. -/
theorem not_lawful_of_release :
    ¬ ∀ (cfg : Config) (as : List Action), Settled (run cfg as) →
      SubscriptionsLawful (run cfg as) := by
  intro h
  have hsettled : Settled (run { native := true, grace := false } oneSubscribe) := by
    refine (tracked_run _ (resubscribesWhole_oneSubscribe 7)).settled (fun t ht => ?_)
      (fun t timer ht => by cases ht) ?_
    · have ht' : t < 2 := ht
      interval_cases t <;> rfl
    · intro i hi f hf _
      have hi' : i < 1 := hi
      interval_cases i
      have hphase : ((run { native := true, grace := false } (oneSubscribe.take 7)).inner.forwarders
          0).map ForwarderTask.phase = some .exited := by decide
      rw [hf] at hphase
      exact Option.some.inj hphase
  obtain ⟨conn, hconn, hplace⟩ : ∃ conn,
      (run { native := true, grace := false } oneSubscribe).connectors 0 = some conn ∧
        conn.exchange = .binance := ⟨_, rfl, rfl⟩
  have hactive : ((run { native := true, grace := false } oneSubscribe).connectors 0).map
      Connector.activeSubs =
        some [⟨.trade, .raw btcTrades.symbol.toList, .spot, none, none⟩] := by decide
  rw [hconn] at hactive
  refine (h _ _ hsettled).released btcTrades 0 conn _ hconn hplace rfl rfl ?_
  rw [Option.some.inj hactive]
  exact List.mem_singleton_self _

end Station

end Digdigdig3.Multiplex
