import Digdigdig3.Core.StreamEvent
import Digdigdig3.Lib.Registry
import Digdigdig3.Lib.Runs

/-!
# The market feed

`MarketFeed` (`crates/digdigdig3/src/connector_manager/feed/feed.rs`): subscribers get handles on
broadcast channels, one for each `StreamKey`, and a pump task reads the event stream of the
connection and sends the events of its key on. Subscribes, drops of handles, upstream events, the
steps of the pumps and the ends of their streams come in any order.

* `feed_run`: when the pumps of all entries run, and what the reference counts count.
* `entry_outlives_pump`: an entry stays in the registry after its pump has ended.
-/

namespace Digdigdig3.Feed

/-! ## Keys and events -/

/-- `StreamKind` (lines 36–42). -/
inductive StreamKind
  | ticker
  | trade
  | orderbook
  | kline (interval : String)
  deriving DecidableEq

/-- `StreamKey` (lines 26–32). -/
structure StreamKey where
  exchange : ExchangeId
  accountType : AccountType
  symbol : String
  kind : StreamKind
  deriving DecidableEq

variable {Data : EventClass → Type}

/-- `matches_kind` (lines 255–264). -/
def matchesKind : StreamEvent Data → StreamKind → Bool
  | .ticker _ _, .ticker => true
  | .trade _ _, .trade => true
  | .orderbookSnapshot _ _, .orderbook => true
  | .orderbookDelta _ _, .orderbook => true
  | .kline _ _ _, .kline _ => true
  | _, _ => false

/-- `event_symbol` (lines 271–277). -/
def eventSymbol : StreamEvent Data → Option String
  | .ticker symbol _ => some symbol
  | .trade symbol _ => some symbol
  | _ => none

/-- `FeedEvent` (`handle.rs` lines 16–22). -/
structure FeedEvent (Data : EventClass → Type) where
  exchange : ExchangeId
  accountType : AccountType
  symbol : String
  event : StreamEvent Data

/-- What the pump of a key makes of an event (lines 223–238): skipped, or sent on. -/
def forwards (key : StreamKey) (event : StreamEvent Data) : Option (FeedEvent Data) :=
  if !matchesKind event key.kind then none
  else
    let symbol := (eventSymbol event).getD key.symbol
    if symbol ≠ key.symbol ∧ key.symbol ≠ "" then none
    else some ⟨key.exchange, key.accountType, symbol, event⟩

/-! ## State and steps -/

/-- A pump task: not yet scheduled, in its loop, or returned. -/
inductive Phase
  | spawned
  | reading
  | exited
  deriving DecidableEq

/-- A pump of `spawn_pump`, for one key on the connection `ws`. `since` is how much the connection
    had delivered when it was subscribed, `pos` what the pump reads next, and `sent` what went into
    its channel. -/
structure Pump (Data : EventClass → Type) where
  key : StreamKey
  ws : ℕ
  phase : Phase
  since : ℕ
  pos : ℕ
  sent : List (FeedEvent Data)

/-- A `FeedHandle`: its receiver, and whether it still has its `_keep_alive`. -/
structure FeedHandle where
  rx : ℕ
  keepAlive : Bool
  deriving DecidableEq

/-- The feed. An entry of `upstreams` is a number: that of its channel, its pump and its `refcount`,
    whose strong count is `strong`. `streams` is what each connection has delivered; an error is
    `none`. -/
structure MarketFeed (Data : EventClass → Type) where
  upstreams : StreamKey → Option ℕ
  pumps : ℕ → Option (Pump Data)
  next : ℕ
  strong : ℕ → ℕ
  handles : List FeedHandle
  streams : ℕ → List (Option (StreamEvent Data))

/-- A subscribe with what the hub and the connection answer, the drop of a handle or of its
    `_keep_alive`, a pump's first step, an upstream item, a pump that reads an item, skips to a
    later one because it lagged, or sees the end of its stream. -/
inductive Action (Data : EventClass → Type)
  | subscribe (key : StreamKey) (ws : Option ℕ)
  | dropHandle (handle : FeedHandle)
  | intoReceiver (rx : ℕ)
  | attach (pump : ℕ)
  | emit (ws : ℕ) (item : Option (StreamEvent Data))
  | poll (pump : ℕ)
  | lag (pump : ℕ) (pos : ℕ)
  | streamEnd (pump : ℕ)

namespace MarketFeed

/-- `MarketFeed::new` (lines 67–73). -/
def init : MarketFeed Data := ⟨fun _ => none, fun _ => none, 0, fun _ => 0, [], fun _ => []⟩

/-- The receivers of a channel. -/
def receivers (s : MarketFeed Data) (i : ℕ) : ℕ := s.handles.countP (fun h => h.rx = i)

/-- The handles that hold a clone of `refcount`. -/
def liveHandles (s : MarketFeed Data) (i : ℕ) : ℕ :=
  s.handles.countP (fun h => h.rx = i && h.keepAlive)

/-- `subscribe` (lines 149–206): `ws` is the connection if the hub has one and its `subscribe`
    succeeds. The lock is held throughout. -/
def subscribe (s : MarketFeed Data) (key : StreamKey) (ws : Option ℕ) : MarketFeed Data :=
  match s.upstreams key with
  | some i =>
    { s with
      handles := ⟨i, true⟩ :: s.handles
      strong := Function.update s.strong i (s.strong i + 1) }
  | none =>
    match ws with
    | none => s
    | some ws =>
      { s with
        upstreams := Function.update s.upstreams key (some s.next)
        pumps := Function.update s.pumps s.next
          (some ⟨key, ws, .spawned, (s.streams ws).length, 0, []⟩)
        next := s.next + 1
        -- one for the entry and one for the handle
        strong := Function.update s.strong s.next 2
        handles := ⟨s.next, true⟩ :: s.handles }

/-- A handle is dropped: its receiver, and its `_keep_alive` if it has one. -/
def dropHandle (s : MarketFeed Data) (handle : FeedHandle) : MarketFeed Data :=
  if handle ∈ s.handles then
    { s with
      handles := s.handles.erase handle
      strong := if handle.keepAlive then
        Function.update s.strong handle.rx (s.strong handle.rx - 1) else s.strong }
  else s

/-- `into_receiver` (`handle.rs` lines 47–49) keeps the receiver only. -/
def intoReceiver (s : MarketFeed Data) (rx : ℕ) : MarketFeed Data :=
  if ⟨rx, true⟩ ∈ s.handles then
    { s with
      handles := ⟨rx, false⟩ :: s.handles.erase ⟨rx, true⟩
      strong := Function.update s.strong rx (s.strong rx - 1) }
  else s

/-- Pump `i` goes on as `p`. -/
def setPump (s : MarketFeed Data) (i : ℕ) (p : Pump Data) : MarketFeed Data :=
  { s with pumps := Function.update s.pumps i (some p) }

/-- `p` after one round of its loop on an item (lines 220–252), with so many receivers on its
    channel: `send` fails without any. -/
def round (p : Pump Data) (receivers : ℕ) : Option (StreamEvent Data) → Pump Data
  | none => { p with pos := p.pos + 1 }
  | some event =>
    match forwards p.key event with
    | none => { p with pos := p.pos + 1 }
    | some fe =>
      if receivers = 0 then { p with pos := p.pos + 1, phase := .exited }
      else { p with pos := p.pos + 1, sent := p.sent ++ [fe] }

/-- The pump `p` after its own step `a` (lines 218–253), or `none` where it cannot take it. -/
def pumpStep (p : Pump Data) (receivers : ℕ) (stream : List (Option (StreamEvent Data))) :
    Action Data → Option (Pump Data)
  | .attach _ =>
    if p.phase = .spawned then some { p with phase := .reading, pos := stream.length } else none
  | .poll _ => if p.phase = .reading then stream[p.pos]?.map (round p receivers) else none
  | .lag _ pos =>
    if p.phase = .reading ∧ p.pos < pos ∧ pos ≤ stream.length then some { p with pos := pos }
    else none
  | .streamEnd _ =>
    if p.phase = .reading ∧ p.pos = stream.length then some { p with phase := .exited } else none
  | _ => none

/-- A step of pump `i`. -/
def ofPump (s : MarketFeed Data) (i : ℕ) (a : Action Data) : MarketFeed Data :=
  match s.pumps i with
  | none => s
  | some p => ((pumpStep p (s.receivers i) (s.streams p.ws) a).map (s.setPump i)).getD s

/-- One step. -/
def step (s : MarketFeed Data) : Action Data → MarketFeed Data
  | .subscribe key ws => s.subscribe key ws
  | .dropHandle handle => s.dropHandle handle
  | .intoReceiver rx => s.intoReceiver rx
  | .emit ws item => { s with streams := Function.update s.streams ws (s.streams ws ++ [item]) }
  | .attach i => s.ofPump i (.attach i)
  | .poll i => s.ofPump i (.poll i)
  | .lag i pos => s.ofPump i (.lag i pos)
  | .streamEnd i => s.ofPump i (.streamEnd i)

/-- The state after a run. -/
def run (as : List (Action Data)) : MarketFeed Data := as.foldl step init

/-! ## What the registry promises -/

/-- The pump of every entry is still running. -/
def PumpsRun (s : MarketFeed Data) : Prop :=
  ∀ key i, s.upstreams key = some i → ∃ p, s.pumps i = some p ∧ p.phase ≠ .exited

/-- The reference count of every entry is the number of its handles. -/
def CountsHandles (s : MarketFeed Data) : Prop :=
  ∀ key i, s.upstreams key = some i → s.strong i = s.liveHandles i

/-- No pump finds an event to send and no receiver, or the end of its stream. -/
def StaysUp (s : MarketFeed Data) : Action Data → Prop
  | .poll i =>
    ∀ p event, s.pumps i = some p → p.phase = .reading →
      (s.streams p.ws)[p.pos]? = some (some event) → (forwards p.key event).isSome →
        s.receivers i ≠ 0
  | .streamEnd i =>
    ∀ p, s.pumps i = some p → p.phase = .reading → p.pos ≠ (s.streams p.ws).length
  | _ => True

/-- The step does not start an upstream. -/
def NoNewUpstream (s : MarketFeed Data) : Action Data → Prop
  | .subscribe key ws => (s.upstreams key).isSome ∨ ws = none
  | _ => True

variable {s : MarketFeed Data}

/-! ## Steps of a pump -/

/-- A pump ends when it has an event to send and no receiver, or at the end of its stream. -/
def Ends (p : Pump Data) (receivers : ℕ) (stream : List (Option (StreamEvent Data))) :
    Action Data → Prop
  | .poll _ =>
    ∃ event, stream[p.pos]? = some (some event) ∧ (forwards p.key event).isSome ∧ receivers = 0
  | .streamEnd _ => p.pos = stream.length
  | _ => False

theorem round_of_skip {p : Pump Data} {event : StreamEvent Data}
    (h : forwards p.key event = none) (r : ℕ) :
    round p r (some event) = { p with pos := p.pos + 1 } := by
  rw [round, h]

theorem round_of_deaf {p : Pump Data} {event : StreamEvent Data} {fe : FeedEvent Data}
    (h : forwards p.key event = some fe) :
    round p 0 (some event) = { p with pos := p.pos + 1, phase := .exited } := by
  rw [round, h]
  exact if_pos rfl

theorem round_of_send {p : Pump Data} {event : StreamEvent Data} {fe : FeedEvent Data}
    (h : forwards p.key event = some fe) {r : ℕ} (hr : r ≠ 0) :
    round p r (some event) = { p with pos := p.pos + 1, sent := p.sent ++ [fe] } := by
  rw [round, h]
  exact if_neg hr

/-- What no step of a pump changes. -/
theorem round_frame (p : Pump Data) (r : ℕ) (item : Option (StreamEvent Data)) :
    (round p r item).key = p.key ∧ (round p r item).ws = p.ws ∧
      (round p r item).since = p.since ∧ (round p r item).pos = p.pos + 1 := by
  unfold round
  split
  · exact ⟨rfl, rfl, rfl, rfl⟩
  · split
    · exact ⟨rfl, rfl, rfl, rfl⟩
    · split <;> exact ⟨rfl, rfl, rfl, rfl⟩

/-- The steps that a pump can take, one by one. -/
theorem pumpStep_cases {p p' : Pump Data} {r : ℕ} {stream : List (Option (StreamEvent Data))}
    {a : Action Data} (h : pumpStep p r stream a = some p') :
    (∃ i, a = .attach i ∧ p.phase = .spawned ∧
      p' = { p with phase := .reading, pos := stream.length }) ∨
    (∃ i item, a = .poll i ∧ p.phase = .reading ∧ stream[p.pos]? = some item ∧
      p' = round p r item) ∨
    (∃ i pos, a = .lag i pos ∧ p.phase = .reading ∧ p.pos < pos ∧ pos ≤ stream.length ∧
      p' = { p with pos := pos }) ∨
    (∃ i, a = .streamEnd i ∧ p.phase = .reading ∧ p.pos = stream.length ∧
      p' = { p with phase := .exited }) := by
  cases a with
  | attach i =>
    obtain ⟨hphase, hp⟩ := Option.ite_none_right_eq_some.mp h
    obtain rfl := Option.some.inj hp
    exact Or.inl ⟨i, rfl, hphase, rfl⟩
  | poll i =>
    obtain ⟨hphase, hitem⟩ := Option.ite_none_right_eq_some.mp h
    obtain ⟨item, hget, rfl⟩ := Option.map_eq_some_iff.mp hitem
    exact Or.inr (Or.inl ⟨i, item, rfl, hphase, hget, rfl⟩)
  | lag i pos =>
    obtain ⟨⟨hphase, hlt, hle⟩, hp⟩ := Option.ite_none_right_eq_some.mp h
    obtain rfl := Option.some.inj hp
    exact Or.inr (Or.inr (Or.inl ⟨i, pos, rfl, hphase, hlt, hle, rfl⟩))
  | streamEnd i =>
    obtain ⟨⟨hphase, hpos⟩, hp⟩ := Option.ite_none_right_eq_some.mp h
    obtain rfl := Option.some.inj hp
    exact Or.inr (Or.inr (Or.inr ⟨i, rfl, hphase, hpos, rfl⟩))
  | _ => cases h

theorem pumpStep_frame {p p' : Pump Data} {r : ℕ} {stream : List (Option (StreamEvent Data))}
    {a : Action Data} (h : pumpStep p r stream a = some p') :
    p'.key = p.key ∧ p'.ws = p.ws ∧ p'.since = p.since := by
  obtain ⟨i, -, -, rfl⟩ | ⟨i, item, -, -, -, rfl⟩ | ⟨i, pos, -, -, -, -, rfl⟩ |
    ⟨i, -, -, -, rfl⟩ := pumpStep_cases h
  · exact ⟨rfl, rfl, rfl⟩
  · obtain ⟨hkey, hws, hsince, -⟩ := round_frame p r item
    exact ⟨hkey, hws, hsince⟩
  · exact ⟨rfl, rfl, rfl⟩
  · exact ⟨rfl, rfl, rfl⟩

theorem round_exited_iff {p : Pump Data} (hphase : p.phase = .reading) (r : ℕ)
    (item : Option (StreamEvent Data)) :
    (round p r item).phase = .exited ↔
      ∃ event, item = some event ∧ (forwards p.key event).isSome ∧ r = 0 := by
  have hnot : p.phase ≠ .exited := by
    rw [hphase]
    decide
  cases item with
  | none => exact iff_of_false hnot fun ⟨_, h, _⟩ => nomatch h
  | some event =>
    cases hfe : forwards p.key event with
    | none =>
      rw [round_of_skip hfe]
      refine iff_of_false hnot ?_
      rintro ⟨event', heq, hsome, -⟩
      cases heq
      rw [hfe] at hsome
      cases hsome
    | some fe =>
      by_cases hr : r = 0
      · subst hr
        rw [round_of_deaf hfe]
        exact iff_of_true rfl ⟨event, rfl, by rw [hfe]; rfl, rfl⟩
      · rw [round_of_send hfe hr]
        exact iff_of_false hnot fun ⟨_, _, _, h⟩ => hr h

/-- A step ends a pump exactly where `Ends` says so. -/
theorem pumpStep_exited_iff {p p' : Pump Data} {r : ℕ}
    {stream : List (Option (StreamEvent Data))} {a : Action Data}
    (h : pumpStep p r stream a = some p') : p'.phase = .exited ↔ Ends p r stream a := by
  obtain ⟨i, rfl, -, rfl⟩ | ⟨i, item, rfl, hphase, hget, rfl⟩ | ⟨i, pos, rfl, hphase, -, -, rfl⟩ |
    ⟨i, rfl, -, hpos, rfl⟩ := pumpStep_cases h
  · exact iff_of_false (by simp) id
  · rw [round_exited_iff hphase, Ends, hget]
    simp only [Option.some.injEq]
  · refine iff_of_false ?_ id
    rw [hphase]
    decide
  · exact iff_of_true rfl hpos

/-- A step of pump `i` changes that pump or nothing. -/
theorem ofPump_cases (s : MarketFeed Data) (i : ℕ) (a : Action Data) :
    s.ofPump i a = s ∧ (∀ p, s.pumps i = some p →
        pumpStep p (s.receivers i) (s.streams p.ws) a = none) ∨
      ∃ p p', s.pumps i = some p ∧
        pumpStep p (s.receivers i) (s.streams p.ws) a = some p' ∧
          s.ofPump i a = s.setPump i p' := by
  cases hp : s.pumps i with
  | none =>
    refine Or.inl ⟨?_, fun p h => nomatch h⟩
    rw [ofPump, hp]
  | some p =>
    have heq : s.ofPump i a =
        ((pumpStep p (s.receivers i) (s.streams p.ws) a).map (s.setPump i)).getD s := by
      rw [ofPump, hp]
    cases hstep : pumpStep p (s.receivers i) (s.streams p.ws) a with
    | none =>
      rw [hstep] at heq
      refine Or.inl ⟨heq, fun q hq => ?_⟩
      obtain rfl := Option.some.inj hq
      exact hstep
    | some p' =>
      rw [hstep] at heq
      exact Or.inr ⟨p, p', rfl, hstep, heq⟩

/-! ## The registry -/

/-- What all steps preserve: entries and pumps belong together, and the strong count of an entry is
    one more than its handles. -/
structure Registered (s : MarketFeed Data) : Prop where
  entry : ∀ key i, s.upstreams key = some i → ∃ p, s.pumps i = some p ∧ p.key = key
  pump : ∀ i p, s.pumps i = some p → s.upstreams p.key = some i
  lt : ∀ i p, s.pumps i = some p → i < s.next
  rx : ∀ h ∈ s.handles, h.rx < s.next
  strong : ∀ i p, s.pumps i = some p → s.strong i = s.liveHandles i + 1

theorem registered_init : (init : MarketFeed Data).Registered where
  entry _ _ h := nomatch h
  pump _ _ h := nomatch h
  lt _ _ h := nomatch h
  rx _ h := nomatch h
  strong _ _ h := nomatch h

theorem Registered.setPump (h : s.Registered) {i : ℕ} {p p' : Pump Data}
    (hp : s.pumps i = some p) (hkey : p'.key = p.key) : (s.setPump i p').Registered where
  entry key j hj := by
    obtain ⟨q, hq, rfl⟩ := h.entry key j hj
    by_cases hji : j = i
    · subst hji
      obtain rfl := Option.some.inj (hp.symm.trans hq)
      exact ⟨p', Function.update_self .., hkey⟩
    · exact ⟨q, (Function.update_of_ne hji _ _).trans hq, rfl⟩
  pump j q hq := by
    rcases update_eq_some hq with ⟨rfl, hsome⟩ | ⟨-, hq⟩
    · obtain rfl := Option.some.inj hsome
      rw [hkey]
      exact h.pump j p hp
    · exact h.pump j q hq
  lt j q hq := by
    rcases update_eq_some hq with ⟨rfl, -⟩ | ⟨-, hq⟩
    · exact h.lt j p hp
    · exact h.lt j q hq
  rx := h.rx
  strong j q hq := by
    rcases update_eq_some hq with ⟨rfl, -⟩ | ⟨-, hq⟩
    · exact h.strong j p hp
    · exact h.strong j q hq

theorem Registered.ofPump (h : s.Registered) (i : ℕ) (a : Action Data) :
    (s.ofPump i a).Registered := by
  obtain ⟨heq, -⟩ | ⟨p, p', hp, hstep, heq⟩ := ofPump_cases s i a
  · rw [heq]
    exact h
  · rw [heq]
    exact h.setPump hp (pumpStep_frame hstep).1

/-- Handles and strong counts that change together. -/
theorem Registered.setHandles (h : s.Registered) {handles : List FeedHandle} {strong : ℕ → ℕ}
    (hrx : ∀ g ∈ handles, g.rx < s.next)
    (hstrong : ∀ i p, s.pumps i = some p →
      strong i = handles.countP (fun g => g.rx = i && g.keepAlive) + 1) :
    ({ s with handles := handles, strong := strong } : MarketFeed Data).Registered :=
  ⟨h.entry, h.pump, h.lt, hrx, hstrong⟩

theorem subscribe_of_entry {key : StreamKey} {i : ℕ} (h : s.upstreams key = some i)
    (ws : Option ℕ) : s.subscribe key ws = { s with
      handles := ⟨i, true⟩ :: s.handles
      strong := Function.update s.strong i (s.strong i + 1) } := by
  unfold MarketFeed.subscribe
  rw [h]

theorem subscribe_of_refused {key : StreamKey} (h : s.upstreams key = none) :
    s.subscribe key none = s := by
  unfold MarketFeed.subscribe
  rw [h]

theorem subscribe_of_new {key : StreamKey} (h : s.upstreams key = none) (ws : ℕ) :
    s.subscribe key (some ws) = { s with
      upstreams := Function.update s.upstreams key (some s.next)
      pumps := Function.update s.pumps s.next
        (some ⟨key, ws, .spawned, (s.streams ws).length, 0, []⟩)
      next := s.next + 1
      strong := Function.update s.strong s.next 2
      handles := ⟨s.next, true⟩ :: s.handles } := by
  unfold MarketFeed.subscribe
  rw [h]

theorem Registered.subscribe (h : s.Registered) (key : StreamKey) (ws : Option ℕ) :
    (s.subscribe key ws).Registered := by
  cases hkey : s.upstreams key with
  | some i =>
    obtain ⟨p, hp, -⟩ := h.entry key i hkey
    rw [subscribe_of_entry hkey]
    refine h.setHandles ?_ ?_
    · intro g hg
      rcases List.mem_cons.mp hg with rfl | hg
      · exact h.lt i p hp
      · exact h.rx g hg
    · intro j q hq
      have hcount := h.strong j q hq
      rw [liveHandles] at hcount
      by_cases hji : j = i
      · subst hji
        rw [Function.update_self, hcount, List.countP_cons_of_pos (by simp)]
      · rw [Function.update_of_ne hji, hcount,
          List.countP_cons_of_neg (by simpa using fun he => hji he.symm)]
  | none =>
    cases ws with
    | none =>
      rw [subscribe_of_refused hkey]
      exact h
    | some ws =>
      have hfresh : ∀ i p, s.pumps i = some p → i ≠ s.next := fun i p hp =>
        Nat.ne_of_lt (h.lt i p hp)
      rw [subscribe_of_new hkey]
      refine ⟨?_, ?_, ?_, ?_, ?_⟩
      · intro key' i hi
        rcases update_eq_some hi with ⟨rfl, hsome⟩ | ⟨-, hi⟩
        · obtain rfl := Option.some.inj hsome
          exact ⟨_, Function.update_self .., rfl⟩
        · obtain ⟨p, hp, hpkey⟩ := h.entry key' i hi
          exact ⟨p, (Function.update_of_ne (hfresh i p hp) _ _).trans hp, hpkey⟩
      · intro i p hp
        rcases update_eq_some hp with ⟨rfl, hsome⟩ | ⟨-, hold⟩
        · obtain rfl := Option.some.inj hsome
          exact Function.update_self ..
        · have hpkey : p.key ≠ key := by
            rintro rfl
            cases hkey.symm.trans (h.pump i p hold)
          exact (Function.update_of_ne hpkey _ _).trans (h.pump i p hold)
      · intro i p hp
        rcases update_eq_some hp with ⟨rfl, -⟩ | ⟨-, hp⟩
        · exact Nat.lt_succ_self _
        · exact Nat.lt_succ_of_lt (h.lt i p hp)
      · intro g hg
        rcases List.mem_cons.mp hg with rfl | hg
        · exact Nat.lt_succ_self _
        · exact Nat.lt_succ_of_lt (h.rx g hg)
      · intro i p hp
        rcases update_eq_some hp with ⟨rfl, -⟩ | ⟨hne, hp⟩
        · -- nobody held a handle on a channel that did not exist
          have hnone : s.handles.countP (fun g => g.rx = s.next && g.keepAlive) = 0 := by
            rw [List.countP_eq_zero]
            intro g hg hcount
            have hrx : g.rx = s.next := by
              simp only [Bool.and_eq_true, decide_eq_true_eq] at hcount
              exact hcount.1
            exact Nat.ne_of_lt (h.rx g hg) hrx
          show Function.update s.strong s.next 2 s.next = _
          rw [Function.update_self, liveHandles, List.countP_cons_of_pos (by simp), hnone]
        · show Function.update s.strong s.next 2 i = _
          have hcount := h.strong i p hp
          rw [Function.update_of_ne hne, hcount, liveHandles, liveHandles,
            List.countP_cons_of_neg (by simpa using fun he => hne he.symm)]

/-- What a handle counted while it was there. -/
theorem countP_erase_handle {handles : List FeedHandle} {g : FeedHandle} (hg : g ∈ handles)
    (q : FeedHandle → Bool) :
    handles.countP q = (handles.erase g).countP q + if q g then 1 else 0 := by
  rw [(List.perm_cons_erase hg).countP_eq, List.countP_cons]

theorem Registered.dropHandle (h : s.Registered) (g : FeedHandle) :
    (s.dropHandle g).Registered := by
  unfold MarketFeed.dropHandle
  split
  · rename_i hg
    refine h.setHandles (fun g' hg' => h.rx g' (List.mem_of_mem_erase hg')) ?_
    intro i p hp
    have hcount := h.strong i p hp
    rw [liveHandles, countP_erase_handle hg] at hcount
    by_cases hkeep : g.keepAlive = true
    · rw [if_pos hkeep]
      by_cases hi : i = g.rx
      · subst hi
        rw [Function.update_self, hcount, if_pos (by simp [hkeep])]
        rfl
      · rw [Function.update_of_ne hi, hcount, if_neg (by simpa using fun he => absurd he.symm hi)]
    · rw [if_neg hkeep, hcount, if_neg (by simp [hkeep])]
  · exact h

theorem Registered.intoReceiver (h : s.Registered) (rx : ℕ) : (s.intoReceiver rx).Registered := by
  unfold MarketFeed.intoReceiver
  split
  · rename_i hg
    refine h.setHandles ?_ ?_
    · intro g' hg'
      rcases List.mem_cons.mp hg' with rfl | hg'
      · exact h.rx ⟨rx, true⟩ hg
      · exact h.rx g' (List.mem_of_mem_erase hg')
    · intro i p hp
      have hcount := h.strong i p hp
      rw [liveHandles, countP_erase_handle hg] at hcount
      rw [List.countP_cons_of_neg (by simp)]
      by_cases hi : i = rx
      · subst hi
        rw [Function.update_self, hcount, if_pos (by simp)]
        rfl
      · rw [Function.update_of_ne hi, hcount, if_neg (by simpa using fun he => hi he.symm)]
  · exact h

/-- **Step lemma.** -/
theorem Registered.step (h : s.Registered) (a : Action Data) : (s.step a).Registered := by
  cases a with
  | subscribe key ws => exact h.subscribe key ws
  | dropHandle g => exact h.dropHandle g
  | intoReceiver rx => exact h.intoReceiver rx
  | emit ws item => exact ⟨h.entry, h.pump, h.lt, h.rx, h.strong⟩
  | attach i => exact h.ofPump i _
  | poll i => exact h.ofPump i _
  | lag i pos => exact h.ofPump i _
  | streamEnd i => exact h.ofPump i _

/-- **Run lemma.** -/
theorem registered_run (as : List (Action Data)) : (run as).Registered :=
  foldl_invariant registered_init (fun _ a h => h.step a) as

/-! ## Running pumps -/

theorem Registered.pumpsRun_iff (h : s.Registered) :
    s.PumpsRun ↔ ∀ i p, s.pumps i = some p → p.phase ≠ .exited := by
  constructor
  · intro hrun i p hp
    obtain ⟨q, hq, hphase⟩ := hrun p.key i (h.pump i p hp)
    obtain rfl := Option.some.inj (hp.symm.trans hq)
    exact hphase
  · intro hrun key i hi
    obtain ⟨p, hp, -⟩ := h.entry key i hi
    exact ⟨p, hp, hrun i p hp⟩

theorem pumpsRun_ofPump (h : s.Registered) (hrun : s.PumpsRun) (i : ℕ) (a : Action Data) :
    (s.ofPump i a).PumpsRun ↔ ∀ p p', s.pumps i = some p →
      pumpStep p (s.receivers i) (s.streams p.ws) a = some p' →
        ¬ Ends p (s.receivers i) (s.streams p.ws) a := by
  obtain ⟨heq, hnone⟩ | ⟨p, p', hp, hstep, heq⟩ := ofPump_cases s i a
  · rw [heq]
    refine iff_of_true hrun fun p p' hp hstep => ?_
    cases (hnone p hp).symm.trans hstep
  · have hreg : (s.setPump i p').Registered := h.setPump hp (pumpStep_frame hstep).1
    rw [heq, hreg.pumpsRun_iff]
    constructor
    · intro hall q q' hq hq'
      obtain rfl := Option.some.inj (hp.symm.trans hq)
      obtain rfl := Option.some.inj (hstep.symm.trans hq')
      rw [← pumpStep_exited_iff hstep]
      exact hall i p' (Function.update_self ..)
    · intro hends j q hq
      rcases update_eq_some hq with ⟨rfl, hsome⟩ | ⟨-, hold⟩
      · obtain rfl := Option.some.inj hsome
        rw [Ne, pumpStep_exited_iff hstep]
        exact hends p p' hp hstep
      · exact h.pumpsRun_iff.mp hrun j q hold

/-- A step that leaves the entries and the pumps. -/
theorem PumpsRun.congr {s' : MarketFeed Data} (h : s.PumpsRun)
    (hentry : s'.upstreams = s.upstreams) (hpumps : s'.pumps = s.pumps) : s'.PumpsRun := by
  unfold PumpsRun
  rw [hentry, hpumps]
  exact h

theorem PumpsRun.subscribe (h : s.PumpsRun) (hreg : s.Registered) (key : StreamKey)
    (ws : Option ℕ) : (s.subscribe key ws).PumpsRun := by
  cases hkey : s.upstreams key with
  | some i =>
    rw [subscribe_of_entry hkey]
    exact h
  | none =>
    cases ws with
    | none =>
      rw [subscribe_of_refused hkey]
      exact h
    | some ws =>
      have hnext := hreg.subscribe key (some ws)
      rw [subscribe_of_new hkey] at hnext ⊢
      rw [hnext.pumpsRun_iff]
      intro i p hp
      rcases update_eq_some hp with ⟨-, hsome⟩ | ⟨-, hold⟩
      · obtain rfl := Option.some.inj hsome
        simp
      · exact hreg.pumpsRun_iff.mp h i p hold

/-- **Step lemma.** -/
theorem pumpsRun_step (hreg : s.Registered) (h : s.PumpsRun) (a : Action Data) :
    (s.step a).PumpsRun ↔ s.StaysUp a := by
  cases a with
  | subscribe key ws => exact iff_of_true (h.subscribe hreg key ws) trivial
  | dropHandle g =>
    refine iff_of_true ?_ trivial
    show (s.dropHandle g).PumpsRun
    unfold dropHandle
    split
    · exact h.congr rfl rfl
    · exact h
  | intoReceiver rx =>
    refine iff_of_true ?_ trivial
    show (s.intoReceiver rx).PumpsRun
    unfold intoReceiver
    split
    · exact h.congr rfl rfl
    · exact h
  | emit ws item => exact iff_of_true (h.congr rfl rfl) trivial
  | attach i =>
    refine iff_of_true ?_ trivial
    exact (pumpsRun_ofPump hreg h i _).mpr fun _ _ _ _ => id
  | lag i pos =>
    refine iff_of_true ?_ trivial
    exact (pumpsRun_ofPump hreg h i _).mpr fun _ _ _ _ => id
  | poll i =>
    refine (pumpsRun_ofPump hreg h i _).trans ⟨fun hall p event hp hphase hget hfe hr => ?_,
      fun hup p p' hp hstep hends => ?_⟩
    · refine hall p (round p (s.receivers i) (some event)) hp ?_ ⟨event, hget, hfe, hr⟩
      rw [pumpStep, if_pos hphase, hget]
      rfl
    · obtain ⟨event, hget, hfe, hr⟩ := hends
      obtain ⟨hphase, -⟩ := Option.ite_none_right_eq_some.mp hstep
      exact hup p event hp hphase hget hfe hr
  | streamEnd i =>
    refine (pumpsRun_ofPump hreg h i _).trans ⟨fun hall p hp hphase hpos => ?_,
      fun hup p p' hp hstep hends => ?_⟩
    · exact hall p { p with phase := .exited } hp (if_pos ⟨hphase, hpos⟩) hpos
    · obtain ⟨⟨hphase, -⟩, -⟩ := Option.ite_none_right_eq_some.mp hstep
      exact hup p hp hphase hends

/-! ## Entries stay -/

theorem upstreams_ofPump (i : ℕ) (a : Action Data) : (s.ofPump i a).upstreams = s.upstreams := by
  obtain ⟨heq, -⟩ | ⟨p, p', -, -, heq⟩ := ofPump_cases s i a <;> rw [heq]
  rfl

/-- Only a subscribe touches the entries, and it keeps those that are there. -/
theorem upstreams_step (a : Action Data) :
    (s.step a).upstreams = s.upstreams ∨
      ∃ key ws, a = .subscribe key (some ws) ∧ s.upstreams key = none ∧
        (s.step a).upstreams = Function.update s.upstreams key (some s.next) := by
  cases a with
  | subscribe key ws =>
    show (s.subscribe key ws).upstreams = s.upstreams ∨ _
    cases hkey : s.upstreams key with
    | some i =>
      rw [subscribe_of_entry hkey]
      exact Or.inl rfl
    | none =>
      cases ws with
      | none =>
        rw [subscribe_of_refused hkey]
        exact Or.inl rfl
      | some ws =>
        refine Or.inr ⟨key, ws, rfl, hkey, ?_⟩
        show (s.subscribe key (some ws)).upstreams = _
        rw [subscribe_of_new hkey]
  | dropHandle g =>
    left
    show (s.dropHandle g).upstreams = s.upstreams
    unfold dropHandle
    split <;> rfl
  | intoReceiver rx =>
    left
    show (s.intoReceiver rx).upstreams = s.upstreams
    unfold intoReceiver
    split <;> rfl
  | emit ws item => exact Or.inl rfl
  | attach i => exact Or.inl (upstreams_ofPump i _)
  | poll i => exact Or.inl (upstreams_ofPump i _)
  | lag i pos => exact Or.inl (upstreams_ofPump i _)
  | streamEnd i => exact Or.inl (upstreams_ofPump i _)

theorem upstreams_step_of_some {key : StreamKey} {i : ℕ} (h : s.upstreams key = some i)
    (a : Action Data) : (s.step a).upstreams key = some i := by
  rcases upstreams_step (s := s) a with heq | ⟨key', ws, -, hnone, heq⟩
  · rw [heq]
    exact h
  · have hne : key ≠ key' := by
      rintro rfl
      cases hnone.symm.trans h
    rw [heq, Function.update_of_ne hne]
    exact h

/-- The count is never that of the handles. -/
theorem Registered.countsHandles_iff (h : s.Registered) :
    s.CountsHandles ↔ ∀ key, s.upstreams key = none := by
  constructor
  · intro hcount key
    rw [Option.eq_none_iff_forall_ne_some]
    intro i hi
    obtain ⟨p, hp, -⟩ := h.entry key i hi
    have hlive := hcount key i hi
    rw [h.strong i p hp] at hlive
    exact Nat.succ_ne_self _ hlive
  · intro hnone key i hi
    cases (hnone key).symm.trans hi

/-- **Step lemma.** -/
theorem countsHandles_step (hreg : s.Registered) (h : s.CountsHandles) (a : Action Data) :
    (s.step a).CountsHandles ↔ s.NoNewUpstream a := by
  rw [hreg.countsHandles_iff] at h
  rw [(hreg.step a).countsHandles_iff]
  rcases upstreams_step (s := s) a with heq | ⟨key, ws, rfl, hnone, heq⟩
  · rw [heq]
    refine iff_of_true h ?_
    cases a with
    | subscribe key ws =>
      cases ws with
      | none => exact Or.inr rfl
      | some ws =>
        have hnew := congrFun heq key
        rw [h key] at hnew
        have hsome : (s.subscribe key (some ws)).upstreams key = some s.next := by
          rw [subscribe_of_new (h key)]
          exact Function.update_self ..
        cases hnew.symm.trans hsome
    | _ => trivial
  · refine iff_of_false (fun hall => ?_) ?_
    · have hsome := hall key
      rw [heq, Function.update_self] at hsome
      cases hsome
    · rintro (hsome | hws)
      · rw [hnone] at hsome
        cases hsome
      · cases hws

/-! ## Runs -/

/-- An entry that is there stays for the rest of the run. -/
theorem upstreams_run {pre as : List (Action Data)} (hpre : pre <+: as) {key : StreamKey} {i : ℕ}
    (h : (run pre).upstreams key = some i) : (run as).upstreams key = some i := by
  obtain ⟨rest, rfl⟩ := hpre
  rw [run, List.foldl_append]
  exact @foldl_invariant _ _ step (run pre) (fun t => t.upstreams key = some i) h
    (fun _ a ht => upstreams_step_of_some ht a) rest

/-- **Main theorem.** The pumps of all entries run all along a run exactly when no pump finds an
    event to send and no receiver, or the end of its stream. The reference counts count the
    handles exactly as long as no upstream starts: each is one more than its handles, and its
    entry stays. -/
theorem feed_run (as : List (Action Data)) :
    ((∀ pre, pre <+: as → (run pre).PumpsRun) ↔ StepsMeet step init StaysUp as) ∧
      ((∀ pre, pre <+: as → (run pre).CountsHandles) ↔ StepsMeet step init NoNewUpstream as) ∧
      ∀ pre, pre <+: as → ∀ key i, (run pre).upstreams key = some i →
        (run as).upstreams key = some i ∧ (run as).strong i = (run as).liveHandles i + 1 := by
  refine ⟨?_, ?_, ?_⟩
  · exact forall_prefix_iff_of_invariant registered_init (fun _ a h => h.step a)
      (fun _ _ h => nomatch h) (fun _ a hreg h => pumpsRun_step hreg h a) as
  · exact forall_prefix_iff_of_invariant registered_init (fun _ a h => h.step a)
      (fun _ _ h => nomatch h) (fun _ a hreg h => countsHandles_step hreg h a) as
  · intro pre hpre key i hi
    have hlast := upstreams_run hpre hi
    obtain ⟨p, hp, -⟩ := (registered_run as).entry key i hlast
    exact ⟨hlast, (registered_run as).strong i p hp⟩

/-- The last handle is dropped before an event comes, and somebody subscribes again. -/
def resubscribe : List (Action fun _ => Unit) :=
  [.subscribe ⟨.binance, .spot, "BTCUSDT", .trade⟩ (some 0), .attach 0,
    .dropHandle ⟨0, true⟩, .emit 0 (some (.trade "BTCUSDT" ())), .poll 0,
    .subscribe ⟨.binance, .spot, "BTCUSDT", .trade⟩ (some 0)]

/-- The new handle is on the channel of a pump that has returned. -/
theorem entry_outlives_pump : ¬ ∀ as : List (Action fun _ => Unit), (run as).PumpsRun := by
  intro h
  have hentry : (run resubscribe).upstreams ⟨.binance, .spot, "BTCUSDT", .trade⟩ = some 0 := by
    decide
  have hphase : ((run resubscribe).pumps 0).map Pump.phase = some .exited := by decide
  obtain ⟨p, hp, hrun⟩ := h resubscribe _ 0 hentry
  rw [hp] at hphase
  exact hrun (Option.some.inj hphase)

end MarketFeed

end Digdigdig3.Feed
