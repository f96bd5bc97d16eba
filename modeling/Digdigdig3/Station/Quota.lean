import Digdigdig3.Lib.Runs
import Digdigdig3.Series.Key

/-!
# `ConsumerHandle`: quotas on a shared station

`ConsumerHandle::subscribe` (`crates/digdigdig3-station/src/quota.rs` lines 306–359) on the
continue-on-error `Station::subscribe` (`station.rs` lines 1371–1630). Calls on one handle may
overlap: each is a task, and the lock on the references is held from the check of the cap to
the end of the call. A request carries the answers it is going to get.

* `World`, `World.step`: a handle, the calls on it and the consumer counts of the station.
* `Atomic`: what the quota promises.
* `atomic_run`: it holds as long as no accepted batch has a stream that is not supported.
-/

namespace Digdigdig3.Quota

open Series (Kind SeriesKey)

/-- `StationError` (`error.rs` lines 3–31), as far as a subscribe returns it. -/
inductive StationError
  | subscribe (message : String)
  | streamNotSupported (reason : String)
  | core (message : String)

/-- `is_not_supported` (lines 38–40). -/
def StationError.isNotSupported : StationError → Bool
  | .streamNotSupported _ => true
  | _ => false

/-- A stream that is asked for, by its kind, and what its acquire returns: `none` where it
    succeeds. -/
structure StreamRequest where
  kind : Kind
  answer : Option StationError

/-- An entry of a `SubscriptionSet`, the result of its connect, and its raw symbol or why the
    normalizer refuses it. -/
structure SubscriptionEntry where
  exchange : ExchangeId
  accountType : AccountType
  symbol : String
  streams : List StreamRequest
  connected : Except String Unit
  raw : Except String String

abbrev SubscriptionSet := List SubscriptionEntry

/-- `FailedStream` (`subscription.rs` lines 791–798). -/
structure FailedStream where
  exchange : ExchangeId
  accountType : AccountType
  symbol : String
  kind : Kind
  error : StationError

/-- `SubscribeReport` (lines 816–835): `refs` are those of its handle. -/
structure SubscribeReport where
  ok : List SeriesKey
  failed : List FailedStream
  refs : List SeriesKey

/-- Why a whitelist refuses a stream (`quota.rs` lines 152–161). -/
inductive Rejection
  | exchange (exchange : ExchangeId)
  | kind (kind : Kind)
  | symbol (symbol : String)

/-- `ConsumerWhitelist` (lines 110–117). -/
structure ConsumerWhitelist where
  exchanges : List ExchangeId
  kinds : List Kind
  symbols : Option (List String)

/-- `ConsumerQuota` (lines 60–72), without the REST limits. -/
structure ConsumerQuota where
  maxActiveSubs : Option ℕ
  whitelist : Option ConsumerWhitelist

/-- `QuotaError` (lines 171–193), as far as `subscribe` returns it. -/
inductive QuotaError
  | subsCapExceeded (held cap : ℕ)
  | notInWhitelist (rejection : Rejection)
  | inner (error : StationError)

/-- `ConsumerWhitelist::check` (lines 146–163). -/
def ConsumerWhitelist.check (wl : ConsumerWhitelist) (exchange : ExchangeId) (kind : Kind)
    (symbol : String) : Option Rejection :=
  if wl.exchanges ≠ [] ∧ exchange ∉ wl.exchanges then some (.exchange exchange)
  else if wl.kinds ≠ [] ∧ kind ∉ wl.kinds then some (.kind kind)
  else match wl.symbols with
    | some symbols => if symbol ∈ symbols then none else some (.symbol symbol)
    | none => none

/-- The whitelist check of a batch (lines 318–327): the first stream refused. -/
def ConsumerQuota.rejection (quota : ConsumerQuota) (set : SubscriptionSet) : Option Rejection :=
  quota.whitelist.bind fun wl =>
    (set.flatMap fun entry => entry.streams.map fun s => (entry, s.kind)).findSome? fun request =>
      wl.check request.1.exchange request.2 request.1.symbol

/-- `saturating_add` on `u32`. -/
def saturatingAdd (m n : ℕ) : ℕ := min (m + n) (2 ^ 32 - 1)

/-- How many streams a batch asks for. -/
def streamCount (set : SubscriptionSet) : ℕ := (set.map fun entry => entry.streams.length).sum

/-- `n_new` (lines 311–315), with the wrap-around of a release build. -/
def nNew (set : SubscriptionSet) : ℕ :=
  (set.map fun entry => entry.streams.length % 2 ^ 32).sum % 2 ^ 32

/-! ## `Station::subscribe` -/

/-- What `Station::subscribe` comes to for one stream. -/
inductive Reply
  | acquired (key : SeriesKey)
  | failed (failed : FailedStream)

/-- A failure of a stream of an entry. -/
def SubscriptionEntry.fail (entry : SubscriptionEntry) (error : StationError)
    (s : StreamRequest) : Reply :=
  .failed
    { exchange := entry.exchange, accountType := entry.accountType, symbol := entry.symbol
      kind := s.kind, error }

/-- The streams of an entry whose connector does not connect (lines 1430–1457). -/
def SubscriptionEntry.unconnected (entry : SubscriptionEntry) : List Reply :=
  match entry.connected with
  | .ok () => []
  | .error message =>
    (entry.streams.filter fun s => s.kind.isPollOnly.isNone).map
      (entry.fail (.core ("connect_websocket: " ++ message)))

/-- The loop over the streams of an entry (lines 1519–1580), or the failure of its symbol
    (lines 1475–1495). -/
def SubscriptionEntry.acquire (entry : SubscriptionEntry) : List Reply :=
  match entry.raw with
  | .error message => entry.streams.map (entry.fail (.subscribe ("symbol normalize: " ++ message)))
  | .ok raw =>
    entry.streams.map fun s =>
      match s.answer with
      | none =>
        .acquired
          { exchange := entry.exchange, accountType := entry.accountType, symbol := raw
            kind := s.kind }
      | some error => entry.fail error s

/-- One entry of the batch (lines 1382–1630). An entry that is not connected is given up
    unless one of its streams is polled. -/
def SubscriptionEntry.replies (entry : SubscriptionEntry) : List Reply :=
  if entry.unconnected ≠ [] ∧ ∀ s ∈ entry.streams, s.kind.isPollOnly.isNone then
    entry.unconnected
  else entry.unconnected ++ entry.acquire

/-- How many replies bring a reference. -/
def acquiredCount (replies : List Reply) : ℕ :=
  replies.countP fun reply => match reply with
    | .acquired _ => true
    | .failed _ => false

/-- The reply is not a failure for want of support. -/
def Reply.Supported : Reply → Prop
  | .acquired _ => True
  | .failed f => f.error.isNotSupported = false

theorem acquiredCount_append (replies more : List Reply) :
    acquiredCount (replies ++ more) = acquiredCount replies + acquiredCount more :=
  List.countP_append

theorem acquiredCount_fail (entry : SubscriptionEntry) (error : StationError)
    (streams : List StreamRequest) : acquiredCount (streams.map (entry.fail error)) = 0 := by
  refine List.countP_eq_zero.mpr fun reply hreply => ?_
  obtain ⟨s, -, rfl⟩ := List.mem_map.mp hreply
  exact Bool.false_ne_true

/-- An entry brings no more references than it has streams. -/
theorem acquiredCount_replies_le (entry : SubscriptionEntry) :
    acquiredCount entry.replies ≤ entry.streams.length := by
  have hunconnected : acquiredCount entry.unconnected = 0 := by
    unfold SubscriptionEntry.unconnected
    split
    · rfl
    · exact acquiredCount_fail _ _ _
  have hacquire : acquiredCount entry.acquire ≤ entry.streams.length := by
    unfold SubscriptionEntry.acquire
    split
    · rw [acquiredCount_fail]
      exact Nat.zero_le _
    · exact List.countP_le_length.trans_eq (List.length_map _)
  unfold SubscriptionEntry.replies
  split_ifs
  · rw [hunconnected]
    exact Nat.zero_le _
  · rw [acquiredCount_append, hunconnected, Nat.zero_add]
    exact hacquire

theorem acquiredCount_le (set : SubscriptionSet) :
    acquiredCount (set.flatMap SubscriptionEntry.replies) ≤ streamCount set := by
  induction set with
  | nil => exact le_rfl
  | cons entry set ih =>
    rw [List.flatMap_cons, acquiredCount_append]
    exact Nat.add_le_add (acquiredCount_replies_le entry) ih

theorem nNew_eq {set : SubscriptionSet} (h : streamCount set < 2 ^ 32) :
    nNew set = streamCount set := by
  have hmod : ∀ entry ∈ set, entry.streams.length % 2 ^ 32 = entry.streams.length := by
    intro entry hentry
    have hle : entry.streams.length ≤ streamCount set :=
      List.single_le_sum (fun _ _ => Nat.zero_le _) _
        (List.mem_map_of_mem (f := fun e => e.streams.length) hentry)
    exact Nat.mod_eq_of_lt (lt_of_le_of_lt hle h)
  have hsum : (set.map fun entry => entry.streams.length % 2 ^ 32).sum = streamCount set :=
    congrArg List.sum (List.map_congr_left hmod)
  rw [nNew, hsum, Nat.mod_eq_of_lt h]

/-! ## Calls on a handle -/

/-- Where a call of `ConsumerHandle::subscribe` is. -/
inductive Stage
  /-- Awaiting the lock. -/
  | waiting
  /-- In `Station::subscribe`, with the lock. -/
  | subscribing (todo : List Reply) (report : SubscribeReport)
  | returned (result : Except QuotaError SubscribeReport)

/-- A stage that has neither references nor a report. -/
def Stage.Idle : Stage → Prop
  | .waiting => True
  | .subscribing _ _ => False
  | .returned (.error _) => True
  | .returned (.ok _) => False

/-- A call: its batch, its stage, and the active count it found once it had the lock. -/
structure Call where
  set : SubscriptionSet
  stage : Stage
  found : ℕ

/-- The handle, the calls on it, and the consumer counts of the station's multiplexers. The last
    two fields are a record: what each call has moved into the handle, and what other consumers
    hold. -/
structure World where
  quota : ConsumerQuota
  lockedBy : Option ℕ
  active : ℕ
  refs : List SeriesKey
  calls : ℕ → Option Call
  consumers : SeriesKey → ℕ
  moved : List (ℕ × List SeriesKey)
  others : SeriesKey → ℕ

inductive Action
  | call (i : ℕ) (set : SubscriptionSet)
  /-- A waiting call gets the lock. -/
  | lock (i : ℕ)
  /-- The call with the lock comes to its next stream, or returns. -/
  | next (i : ℕ)
  /-- Another consumer takes or gives up a reference. -/
  | other (key : SeriesKey) (taken : Bool)

namespace World

/-- A handle that has just been registered. -/
def new (quota : ConsumerQuota) : World where
  quota := quota
  lockedBy := none
  active := 0
  refs := []
  calls := fun _ => none
  consumers := fun _ => 0
  moved := []
  others := fun _ => 0

def setCall (w : World) (i : ℕ) (call : Call) : World :=
  { w with calls := Function.update w.calls i (some call) }

/-- The start of `subscribe` (lines 311–332): the whitelist is checked without the lock. -/
def call (w : World) (i : ℕ) (set : SubscriptionSet) : World :=
  match w.calls i with
  | some _ => w
  | none =>
    match w.quota.rejection set with
    | some rejection =>
      w.setCall i { set, stage := .returned (.error (.notInWhitelist rejection)), found := 0 }
    | none => w.setCall i { set, stage := .waiting, found := 0 }

/-- The cap is exceeded (lines 337–343). -/
def capExceeded (w : World) (set : SubscriptionSet) : Option QuotaError :=
  w.quota.maxActiveSubs.bind fun cap =>
    if cap < saturatingAdd w.active (nNew set) then
      some (.subsCapExceeded (saturatingAdd w.active (nNew set)) cap)
    else none

/-- The call has the lock (lines 334–351). An empty set is an error of the station. -/
def begin (w : World) (i : ℕ) (set : SubscriptionSet) : World :=
  match w.capExceeded set with
  | some error => w.setCall i { set, stage := .returned (.error error), found := w.active }
  | none =>
    if set = [] then
      w.setCall i
        { set, stage := .returned (.error (.inner (.subscribe "empty SubscriptionSet")))
          found := w.active }
    else
      { w.setCall i
          { set, stage := .subscribing (set.flatMap SubscriptionEntry.replies)
              { ok := [], failed := [], refs := [] }
            found := w.active } with
        lockedBy := some i }

def lock (w : World) (i : ℕ) : World :=
  match w.calls i with
  | some { set, stage := .waiting, .. } => if w.lockedBy = none then w.begin i set else w
  | _ => w

/-- The end of `subscribe` (lines 353–358) and `take_refs_into`. -/
def finish (w : World) (i : ℕ) (call : Call) (report : SubscribeReport) : World :=
  { w.setCall i { call with stage := .returned (.ok { report with refs := [] }) } with
    lockedBy := none
    active := saturatingAdd w.active report.ok.length
    refs := w.refs ++ report.refs
    moved := w.moved ++ [(i, report.refs)] }

/-- One stream of the batch. -/
def takeReply (w : World) (i : ℕ) (call : Call) (todo : List Reply) (report : SubscribeReport) :
    Reply → World
  | .acquired key =>
    { w.setCall i
        { call with
          stage := .subscribing todo
            { report with ok := report.ok ++ [key], refs := report.refs ++ [key] } } with
      consumers := Function.update w.consumers key (w.consumers key + 1) }
  | .failed failed =>
    w.setCall i
      { call with
        stage := .subscribing todo { report with failed := report.failed ++ [failed] } }

def next (w : World) (i : ℕ) : World :=
  match w.calls i with
  | none => w
  | some call =>
    match call.stage with
    | .subscribing (reply :: todo) report => w.takeReply i call todo report reply
    | .subscribing [] report => w.finish i call report
    | _ => w

def other (w : World) (key : SeriesKey) (taken : Bool) : World :=
  if taken then
    { w with
      consumers := Function.update w.consumers key (w.consumers key + 1)
      others := Function.update w.others key (w.others key + 1) }
  else if 0 < w.others key then
    { w with
      consumers := Function.update w.consumers key (w.consumers key - 1)
      others := Function.update w.others key (w.others key - 1) }
  else w

def step (w : World) : Action → World
  | .call i set => w.call i set
  | .lock i => w.lock i
  | .next i => w.next i
  | .other key taken => w.other key taken

def run (quota : ConsumerQuota) (as : List Action) : World := as.foldl step (new quota)

/-! ## What the quota promises -/

/-- The references of the call that has the lock. -/
def inFlight (w : World) : List SeriesKey :=
  match w.lockedBy with
  | none => []
  | some i =>
    match w.calls i with
    | some { stage := .subscribing _ report, .. } => report.refs
    | _ => []

/-- The active count is the number of references and within the cap; the references are those
    moved by calls that returned `Ok`; the multiplexers count them, those of the call in flight
    and those of others; and a call returns `Ok` only for a batch that the whitelist admits,
    that fits the cap, and of which every stream is supported. -/
structure Atomic (w : World) : Prop where
  active_eq : w.active = w.refs.length
  active_le : ∀ cap, w.quota.maxActiveSubs = some cap → w.active ≤ cap
  refs_eq : w.refs = w.moved.flatMap Prod.snd
  consumers_eq : ∀ key, w.consumers key =
    w.others key + w.refs.count key + w.inFlight.count key
  moved_returned : ∀ m ∈ w.moved, ∃ call report, w.calls m.1 = some call ∧
    call.stage = .returned (.ok report) ∧ report.ok = m.2
  returned_ok : ∀ i call report, w.calls i = some call → call.stage = .returned (.ok report) →
    w.quota.rejection call.set = none ∧
    (∀ cap, w.quota.maxActiveSubs = some cap → call.found + streamCount call.set ≤ cap) ∧
    ∀ f ∈ report.failed, f.error.isNotSupported = false

/-- A batch that no counter overflows on, and of which every stream is supported. -/
def Admissible (w : World) (set : SubscriptionSet) : Prop :=
  w.refs.length + streamCount set < 2 ^ 32 ∧
    ∀ reply ∈ set.flatMap SubscriptionEntry.replies, reply.Supported

/-- A call that gets the lock and is not refused has an admissible batch. -/
def AdmitsSupported (w : World) : Action → Prop
  | .lock i => ∀ call, w.calls i = some call → call.stage = .waiting → w.lockedBy = none →
      w.capExceeded call.set = none → call.set ≠ [] → w.Admissible call.set
  | _ => True

/-- What the call with the lock has done, and can still do. -/
structure Subscribing (w : World) (i : ℕ) (call : Call) (todo : List Reply)
    (report : SubscribeReport) : Prop where
  locked : w.lockedBy = some i
  ok_eq : report.ok = report.refs
  lt : w.refs.length + report.refs.length + acquiredCount todo < 2 ^ 32
  le : ∀ cap, w.quota.maxActiveSubs = some cap →
    w.refs.length + report.refs.length + acquiredCount todo ≤ cap
  admitted : w.quota.rejection call.set = none
  fits : ∀ cap, w.quota.maxActiveSubs = some cap → call.found + streamCount call.set ≤ cap
  todo_supported : ∀ reply ∈ todo, reply.Supported
  failed_supported : ∀ f ∈ report.failed, f.error.isNotSupported = false

/-- The calls that have not returned. -/
structure Pending (w : World) : Prop where
  waiting : ∀ i call, w.calls i = some call → call.stage = .waiting →
    w.quota.rejection call.set = none
  subscribing : ∀ i call todo report, w.calls i = some call →
    call.stage = .subscribing todo report → Subscribing w i call todo report

/-- The invariant of a run. -/
def Sound (w : World) : Prop := Atomic w ∧ Pending w

/-! ### One call changes -/

theorem calls_setCall_self (w : World) (i : ℕ) (call : Call) :
    (w.setCall i call).calls i = some call := Function.update_self _ _ _

theorem calls_setCall_of_ne (w : World) {i j : ℕ} (h : j ≠ i) (call : Call) :
    (w.setCall i call).calls j = w.calls j := Function.update_of_ne h _ _

/-- After call `i` has changed, a call is that one or as it was before. -/
theorem calls_cases {calls calls' : ℕ → Option Call} {i j : ℕ} {call c : Call}
    (hself : calls' i = some call) (hne : ∀ j, j ≠ i → calls' j = calls j)
    (hc : calls' j = some c) : j = i ∧ c = call ∨ j ≠ i ∧ calls j = some c := by
  by_cases hj : j = i
  · subst hj
    exact Or.inl ⟨rfl, Option.some.inj (hc.symm.trans hself)⟩
  · exact Or.inr ⟨hj, (hne j hj).symm.trans hc⟩

theorem calls_setCall_cases {w : World} {i j : ℕ} {call c : Call}
    (hc : (w.setCall i call).calls j = some c) : j = i ∧ c = call ∨ j ≠ i ∧ w.calls j = some c :=
  calls_cases (calls_setCall_self w i call) (fun _ hj => calls_setCall_of_ne w hj call) hc

theorem inFlight_of_idle {w : World} {i : ℕ} (hlocked : w.lockedBy = some i)
    (h : ∀ call, w.calls i = some call → call.stage.Idle) : w.inFlight = [] := by
  unfold inFlight
  rw [hlocked]
  dsimp only
  cases hcall : w.calls i with
  | none => rfl
  | some call =>
    obtain ⟨set, stage, found⟩ := call
    cases stage with
    | subscribing todo report => exact (h _ hcall).elim
    | waiting => rfl
    | returned result => rfl

/-- A call goes from one idle stage to another. -/
theorem sound_setCall {w : World} (h : Sound w) {i : ℕ} {call : Call}
    (hold : ∀ old, w.calls i = some old → old.stage.Idle) (hnew : call.stage.Idle)
    (hwaiting : call.stage = .waiting → w.quota.rejection call.set = none) :
    Sound (w.setCall i call) := by
  obtain ⟨hatomic, hpending⟩ := h
  have hflight : (w.setCall i call).inFlight = w.inFlight := by
    by_cases hlocked : w.lockedBy = some i
    · rw [inFlight_of_idle hlocked hold]
      refine inFlight_of_idle (i := i) hlocked fun c hc => ?_
      rw [calls_setCall_self] at hc
      cases hc
      exact hnew
    · unfold inFlight
      show (match w.lockedBy with | none => _ | some j => _) = _
      cases hj : w.lockedBy with
      | none => rfl
      | some j =>
        have hne : j ≠ i := fun heq => hlocked (heq ▸ hj)
        dsimp only
        rw [calls_setCall_of_ne w hne]
  refine ⟨⟨hatomic.active_eq, hatomic.active_le, hatomic.refs_eq, fun key => ?_, fun m hm => ?_,
    fun j c report hc hstage => ?_⟩, ⟨fun j c hc hstage => ?_, fun j c todo report hc hstage => ?_⟩⟩
  · rw [hflight]
    exact hatomic.consumers_eq key
  · obtain ⟨c, report, hc, hstage, hok⟩ := hatomic.moved_returned m hm
    refine ⟨c, report, ?_, hstage, hok⟩
    rw [calls_setCall_of_ne w, hc]
    rintro rfl
    have hidle := hold c hc
    rw [hstage] at hidle
    exact hidle
  · rcases calls_setCall_cases hc with ⟨rfl, rfl⟩ | ⟨-, hc⟩
    · rw [hstage] at hnew
      exact hnew.elim
    · exact hatomic.returned_ok j c report hc hstage
  · rcases calls_setCall_cases hc with ⟨rfl, rfl⟩ | ⟨-, hc⟩
    · exact hwaiting hstage
    · exact hpending.waiting j c hc hstage
  · rcases calls_setCall_cases hc with ⟨rfl, rfl⟩ | ⟨-, hc⟩
    · rw [hstage] at hnew
      exact hnew.elim
    · obtain ⟨hlocked, hok, hlt, hle, hadmitted, hfits, htodo, hfailed⟩ :=
        hpending.subscribing j c todo report hc hstage
      exact ⟨hlocked, hok, hlt, hle, hadmitted, hfits, htodo, hfailed⟩

/-! ### The steps -/

theorem sound_call {w : World} (h : Sound w) (i : ℕ) (set : SubscriptionSet) :
    Sound (w.call i set) := by
  unfold call
  split
  · exact h
  · next hnone =>
    have hold : ∀ old, w.calls i = some old → old.stage.Idle := by
      intro old hc
      rw [hnone] at hc
      cases hc
    split
    · exact sound_setCall h hold trivial fun hstage => nomatch hstage
    · next hadmitted => exact sound_setCall h hold trivial fun _ => hadmitted

/-- A batch that is not over the cap fits it. -/
theorem le_of_not_capExceeded {w : World} (hactive : w.active = w.refs.length)
    {set : SubscriptionSet} (hsize : w.refs.length + streamCount set < 2 ^ 32)
    (h : w.capExceeded set = none) {cap : ℕ} (hcap : w.quota.maxActiveSubs = some cap) :
    w.refs.length + streamCount set ≤ cap := by
  unfold capExceeded at h
  rw [hcap, Option.bind_some] at h
  split_ifs at h with hlt
  have hnew : nNew set = streamCount set := nNew_eq (by omega)
  rw [hnew, saturatingAdd, hactive] at hlt
  omega

theorem sound_begin {w : World} (h : Sound w) {i : ℕ} {old : Call} (hcall : w.calls i = some old)
    (hstage : old.stage = .waiting) (hlocked : w.lockedBy = none)
    (hadmits : w.capExceeded old.set = none → old.set ≠ [] → w.Admissible old.set) :
    Sound (w.begin i old.set) := by
  have hidle : ∀ c, w.calls i = some c → c.stage.Idle := by
    intro c hc
    rw [hcall] at hc
    cases hc
    rw [hstage]
    trivial
  have hadmitted := h.2.waiting i old hcall hstage
  unfold begin
  split
  · exact sound_setCall h hidle trivial fun hw => nomatch hw
  · next hcap =>
    split_ifs with hempty
    · exact sound_setCall h hidle trivial fun hw => nomatch hw
    · obtain ⟨hsize, hsupported⟩ := hadmits hcap hempty
      obtain ⟨hatomic, hpending⟩ := h
      have hacquired := acquiredCount_le old.set
      have hnone : w.inFlight = [] := by
        unfold inFlight
        rw [hlocked]
      refine ⟨⟨hatomic.active_eq, hatomic.active_le, hatomic.refs_eq, fun key => ?_, fun m hm => ?_,
        fun j c report hc hret => ?_⟩,
        ⟨fun j c hc hwait => ?_, fun j c todo report hc hsub => ?_⟩⟩
      · have hflight : inFlight
            { w.setCall i
                { set := old.set
                  stage := .subscribing (old.set.flatMap SubscriptionEntry.replies)
                    { ok := [], failed := [], refs := [] }
                  found := w.active } with
              lockedBy := some i } = [] := by
          unfold inFlight
          dsimp only
          rw [calls_setCall_self]
        rw [hflight]
        have hcount := hatomic.consumers_eq key
        rw [hnone] at hcount
        exact hcount
      · obtain ⟨c, report, hc, hret, hok⟩ := hatomic.moved_returned m hm
        refine ⟨c, report, ?_, hret, hok⟩
        refine (calls_setCall_of_ne w ?_ _).trans hc
        rintro rfl
        have hbad := hidle c hc
        rw [hret] at hbad
        exact hbad
      · rcases calls_setCall_cases hc with ⟨rfl, rfl⟩ | ⟨hj, hc⟩
        · cases hret
        · exact hatomic.returned_ok j c report hc hret
      · rcases calls_setCall_cases hc with ⟨rfl, rfl⟩ | ⟨hj, hc⟩
        · cases hwait
        · exact hpending.waiting j c hc hwait
      · rcases calls_setCall_cases hc with ⟨rfl, rfl⟩ | ⟨hj, hc⟩
        · cases hsub
          refine ⟨rfl, rfl, ?_, fun cap hmax => ?_, hadmitted, fun cap hmax => ?_, hsupported,
            fun f hf => absurd hf List.not_mem_nil⟩
          · show w.refs.length + 0 + _ < _
            omega
          · have hfit := le_of_not_capExceeded hatomic.active_eq hsize hcap hmax
            show w.refs.length + 0 + _ ≤ _
            omega
          · show w.active + _ ≤ _
            rw [hatomic.active_eq]
            exact le_of_not_capExceeded hatomic.active_eq hsize hcap hmax
        · have hother := hpending.subscribing j c todo report hc hsub
          exact nomatch hlocked.symm.trans hother.locked

/-- The references in flight, of a call that is subscribing. -/
theorem inFlight_of_subscribing {w : World} {i : ℕ} {call : Call} {todo : List Reply}
    {report : SubscribeReport} (hlocked : w.lockedBy = some i) (hcall : w.calls i = some call)
    (hstage : call.stage = .subscribing todo report) : w.inFlight = report.refs := by
  obtain ⟨set, stage, found⟩ := call
  cases hstage
  unfold inFlight
  rw [hlocked]
  dsimp only
  rw [hcall]

/-- A call that is subscribing goes on; the rest of the state stays as `counts` leaves it. -/
theorem sound_proceed {w w' : World} (h : Sound w) {i : ℕ} {old call : Call} {todo : List Reply}
    {report report' : SubscribeReport} {reply : Reply} (hcall : w.calls i = some old)
    (hold : old.stage = .subscribing (reply :: todo) report)
    (hnew : call = { old with stage := .subscribing todo report' })
    (hw : w' = { w.setCall i call with consumers := w'.consumers })
    (hconsumers : ∀ key, w'.consumers key =
      w.others key + w.refs.count key + report'.refs.count key)
    (hok : report'.ok = report'.refs)
    (hlength : report'.refs.length + acquiredCount todo ≤
      report.refs.length + acquiredCount (reply :: todo))
    (hfailed : ∀ f ∈ report'.failed, f.error.isNotSupported = false) : Sound w' := by
  obtain ⟨hatomic, hpending⟩ := h
  have hsub := hpending.subscribing i old _ _ hcall hold
  have hself : w'.calls i = some call := by
    rw [hw]
    exact calls_setCall_self w i call
  have hne : ∀ j, j ≠ i → w'.calls j = w.calls j := by
    intro j hj
    rw [hw]
    exact calls_setCall_of_ne w hj call
  have hquota : w'.quota = w.quota := by rw [hw]; rfl
  have hrefs : w'.refs = w.refs := by rw [hw]; rfl
  have hactive : w'.active = w.active := by rw [hw]; rfl
  have hlocked : w'.lockedBy = w.lockedBy := by rw [hw]; rfl
  have hmoved : w'.moved = w.moved := by rw [hw]; rfl
  have hothers : w'.others = w.others := by rw [hw]; rfl
  have hstage : call.stage = .subscribing todo report' := by rw [hnew]
  have hset : call.set = old.set := by rw [hnew]
  have hfound : call.found = old.found := by rw [hnew]
  refine ⟨⟨?_, ?_, ?_, fun key => ?_, fun m hm => ?_, fun j c r hc hret => ?_⟩,
    ⟨fun j c hc hwait => ?_, fun j c todo' r hc hsub' => ?_⟩⟩
  · rw [hactive, hrefs, hatomic.active_eq]
  · rw [hquota, hactive]
    exact hatomic.active_le
  · rw [hrefs, hmoved, hatomic.refs_eq]
  · rw [inFlight_of_subscribing (hlocked.trans hsub.locked) hself hstage, hothers, hrefs]
    exact hconsumers key
  · rw [hmoved] at hm
    obtain ⟨c, r, hc, hret, hreport⟩ := hatomic.moved_returned m hm
    refine ⟨c, r, ?_, hret, hreport⟩
    rw [hne, hc]
    intro heq
    rw [heq, hcall] at hc
    cases hc
    exact nomatch hold.symm.trans hret
  · rcases calls_cases hself hne hc with ⟨rfl, rfl⟩ | ⟨hj, hc⟩
    · exact nomatch hstage.symm.trans hret
    · rw [hquota]
      exact hatomic.returned_ok j c r hc hret
  · rw [hquota]
    rcases calls_cases hself hne hc with ⟨rfl, rfl⟩ | ⟨hj, hc⟩
    · exact nomatch hstage.symm.trans hwait
    · exact hpending.waiting j c hc hwait
  · rcases calls_cases hself hne hc with ⟨rfl, rfl⟩ | ⟨hj, hc⟩
    · cases hstage.symm.trans hsub'
      refine ⟨hlocked.trans hsub.locked, hok, ?_, fun cap hcap => ?_, ?_, fun cap hcap => ?_,
        fun r hr => hsub.todo_supported r (List.mem_cons_of_mem _ hr), hfailed⟩
      · have hlt := hsub.lt
        rw [hrefs]
        omega
      · have hle := hsub.le cap (hquota ▸ hcap)
        rw [hrefs]
        omega
      · rw [hquota, hset]
        exact hsub.admitted
      · rw [hset, hfound]
        exact hsub.fits cap (hquota ▸ hcap)
    · have hother := hpending.subscribing j c todo' r hc hsub'
      exact absurd (Option.some.inj (hother.locked.symm.trans hsub.locked)) hj

theorem sound_takeReply {w : World} (h : Sound w) {i : ℕ} {call : Call} {todo : List Reply}
    {report : SubscribeReport} {reply : Reply} (hcall : w.calls i = some call)
    (hstage : call.stage = .subscribing (reply :: todo) report) :
    Sound (w.takeReply i call todo report reply) := by
  have hsub := h.2.subscribing i call _ _ hcall hstage
  have hcounts : ∀ key, w.consumers key =
      w.others key + w.refs.count key + report.refs.count key := by
    intro key
    rw [h.1.consumers_eq key, inFlight_of_subscribing hsub.locked hcall hstage]
  cases reply with
  | acquired key =>
    refine sound_proceed h hcall hstage rfl rfl (fun other => ?_) ?_ ?_ hsub.failed_supported
    · show Function.update w.consumers key (w.consumers key + 1) other =
        w.others other + w.refs.count other + (report.refs ++ [key]).count other
      rw [List.count_append, List.count_singleton]
      by_cases hkey : other = key
      · subst hkey
        rw [Function.update_self, hcounts other, BEq.rfl, if_pos rfl]
        rfl
      · rw [Function.update_of_ne hkey, hcounts other, if_neg (by simpa using Ne.symm hkey)]
        rfl
    · show report.ok ++ [key] = report.refs ++ [key]
      rw [hsub.ok_eq]
    · show (report.refs ++ [key]).length + acquiredCount todo ≤ _
      rw [List.length_append, List.length_singleton]
      show _ ≤ report.refs.length + acquiredCount ([Reply.acquired key] ++ todo)
      rw [acquiredCount_append]
      show _ ≤ report.refs.length + (1 + acquiredCount todo)
      omega
  | failed f =>
    refine sound_proceed h hcall hstage rfl rfl hcounts hsub.ok_eq ?_ fun g hg => ?_
    · show report.refs.length + acquiredCount todo ≤
        report.refs.length + acquiredCount ([Reply.failed f] ++ todo)
      rw [acquiredCount_append]
      show _ ≤ report.refs.length + (0 + acquiredCount todo)
      omega
    · rcases List.mem_append.mp hg with hg | hg
      · exact hsub.failed_supported g hg
      · rw [List.mem_singleton.mp hg]
        exact hsub.todo_supported _ List.mem_cons_self

theorem sound_finish {w : World} (h : Sound w) {i : ℕ} {call : Call} {report : SubscribeReport}
    (hcall : w.calls i = some call) (hstage : call.stage = .subscribing [] report) :
    Sound (w.finish i call report) := by
  have hsub := h.2.subscribing i call _ _ hcall hstage
  have hflight := inFlight_of_subscribing hsub.locked hcall hstage
  obtain ⟨hatomic, hpending⟩ := h
  have hlt : w.refs.length + report.refs.length < 2 ^ 32 := hsub.lt
  have hactive : saturatingAdd w.active report.ok.length =
      w.refs.length + report.refs.length := by
    rw [saturatingAdd, hatomic.active_eq, hsub.ok_eq]
    exact min_eq_left (by omega)
  have hself : (w.finish i call report).calls i =
      some { call with stage := .returned (.ok { report with refs := [] }) } :=
    calls_setCall_self w i _
  have hne : ∀ j, j ≠ i → (w.finish i call report).calls j = w.calls j :=
    fun j hj => calls_setCall_of_ne w hj _
  refine ⟨⟨?_, fun cap hcap => ?_, ?_, fun key => ?_, fun m hm => ?_, fun j c r hc hret => ?_⟩,
    ⟨fun j c hc hwait => ?_, fun j c todo r hc hsub' => ?_⟩⟩
  · show saturatingAdd w.active report.ok.length = (w.refs ++ report.refs).length
    rw [hactive, List.length_append]
  · show saturatingAdd w.active report.ok.length ≤ cap
    rw [hactive]
    exact hsub.le cap hcap
  · show w.refs ++ report.refs = (w.moved ++ [(i, report.refs)]).flatMap Prod.snd
    rw [List.flatMap_append, ← hatomic.refs_eq, List.flatMap_singleton]
  · show w.consumers key =
      w.others key + (w.refs ++ report.refs).count key +
        (inFlight (w.finish i call report)).count key
    have hnone : inFlight (w.finish i call report) = [] := rfl
    rw [hnone, hatomic.consumers_eq key, hflight, List.count_append, List.count_nil]
    omega
  · rcases List.mem_append.mp hm with hm | hm
    · obtain ⟨c, r, hc, hret, hreport⟩ := hatomic.moved_returned m hm
      refine ⟨c, r, ?_, hret, hreport⟩
      rw [hne, hc]
      intro heq
      rw [heq, hcall] at hc
      cases hc
      exact nomatch hstage.symm.trans hret
    · rw [List.mem_singleton.mp hm]
      exact ⟨_, _, hself, rfl, hsub.ok_eq⟩
  · rcases calls_cases hself hne hc with ⟨rfl, rfl⟩ | ⟨hj, hc⟩
    · cases hret
      exact ⟨hsub.admitted, hsub.fits, hsub.failed_supported⟩
    · exact hatomic.returned_ok j c r hc hret
  · rcases calls_cases hself hne hc with ⟨rfl, rfl⟩ | ⟨hj, hc⟩
    · cases hwait
    · exact hpending.waiting j c hc hwait
  · rcases calls_cases hself hne hc with ⟨rfl, rfl⟩ | ⟨hj, hc⟩
    · cases hsub'
    · have hother := hpending.subscribing j c todo r hc hsub'
      exact absurd (Option.some.inj (hother.locked.symm.trans hsub.locked)) hj

theorem sound_other {w : World} (h : Sound w) (key : SeriesKey) (taken : Bool) :
    Sound (w.other key taken) := by
  obtain ⟨hatomic, hpending⟩ := h
  have hkeep : ∀ consumers others : SeriesKey → ℕ,
      (∀ k, consumers k = others k + w.refs.count k + w.inFlight.count k) →
      Sound { w with consumers := consumers, others := others } := by
    intro consumers others hcounts
    refine ⟨⟨hatomic.active_eq, hatomic.active_le, hatomic.refs_eq, hcounts,
      hatomic.moved_returned, hatomic.returned_ok⟩,
      ⟨hpending.waiting, fun j c todo r hc hsub => ?_⟩⟩
    obtain ⟨hlocked, hok, hlt, hle, hadmitted, hfits, htodo, hfailed⟩ :=
      hpending.subscribing j c todo r hc hsub
    exact ⟨hlocked, hok, hlt, hle, hadmitted, hfits, htodo, hfailed⟩
  unfold other
  split_ifs with htaken hpos
  · refine hkeep _ _ fun k => ?_
    have hk := hatomic.consumers_eq k
    by_cases heq : k = key
    · subst heq
      rw [Function.update_self, Function.update_self]
      omega
    · rw [Function.update_of_ne heq, Function.update_of_ne heq, hk]
  · refine hkeep _ _ fun k => ?_
    have hk := hatomic.consumers_eq k
    by_cases heq : k = key
    · subst heq
      rw [Function.update_self, Function.update_self]
      omega
    · rw [Function.update_of_ne heq, Function.update_of_ne heq, hk]
  · exact ⟨hatomic, hpending⟩

/-- **Step lemma.** A step that admits a supported batch keeps the promise. -/
theorem sound_step {w : World} (a : Action) (h : Sound w) (hadmits : w.AdmitsSupported a) :
    Sound (w.step a) := by
  cases a with
  | call i set => exact sound_call h i set
  | lock i =>
    show Sound (w.lock i)
    unfold lock
    split
    · next set found hcall =>
      split_ifs with hlocked
      · have hbegin := sound_begin h hcall rfl hlocked fun hcap hempty =>
          hadmits _ hcall rfl hlocked hcap hempty
        exact hbegin
      · exact h
    · exact h
  | next i =>
    show Sound (w.next i)
    unfold next
    split
    · exact h
    · next call hcall =>
      split
      · next reply todo report hstage => exact sound_takeReply h hcall hstage
      · next report hstage => exact sound_finish h hcall hstage
      · exact h
  | other key taken => exact sound_other h key taken

/-- **Main theorem.** Whatever calls overlap on a handle, the quota's promise holds all along a run
in which no accepted batch has a stream that is not supported. -/
theorem atomic_run (quota : ConsumerQuota) (as : List Action)
    (h : StepsMeet step (new quota) AdmitsSupported as) :
    ∀ pre, pre <+: as → Atomic (run quota pre) := by
  intro pre hpre
  have hsteps : StepsMeet step (new quota) AdmitsSupported pre :=
    fun pre' a hpre' => h pre' a (hpre'.trans hpre)
  have hinit : Sound (new quota) := by
    refine ⟨⟨rfl, fun _ _ => Nat.zero_le _, rfl, fun _ => rfl, fun m hm => ?_, fun i c r hc => ?_⟩,
      ⟨fun i c hc => ?_, fun i c todo r hc => ?_⟩⟩
    · exact absurd hm List.not_mem_nil
    · exact nomatch hc
    · exact nomatch hc
    · exact nomatch hc
  exact (foldl_invariant_of_steps hinit (fun _ a hs => sound_step a hs) hsteps).1

/-- Trades and tickers of one instrument, of which the second stream answers as given. -/
def btcEntry (answer : Option StationError) : SubscriptionEntry where
  exchange := .binance
  accountType := .spot
  symbol := "BTC-USDT"
  streams := [{ kind := .trade, answer := none }, { kind := .ticker, answer }]
  connected := .ok ()
  raw := .ok "BTCUSDT"

/-- At most two active subscriptions. -/
def twoSubs : ConsumerQuota where
  maxActiveSubs := some 2
  whitelist := none

/-- One call from its start to its end, and one that waits for the lock meanwhile. -/
def oneCall (answer : Option StationError) : List Action :=
  [.call 0 [btcEntry answer], .call 1 [btcEntry none], .lock 0, .lock 1, .next 0, .next 0, .next 0]

theorem atomic_oneCall : Atomic (run twoSubs (oneCall none)) := by
  refine atomic_run twoSubs (oneCall none) ?_ _ (List.prefix_refl _)
  simp only [oneCall, stepsMeet_cons]
  refine ⟨trivial, trivial, fun call hcall _ _ _ _ => ?_, fun _ _ _ hlocked => (nomatch hlocked),
    trivial, trivial, trivial, stepsMeet_nil _⟩
  obtain rfl : { set := [btcEntry none], stage := .waiting, found := 0 } = call :=
    Option.some.inj hcall
  refine ⟨by decide, fun reply hreply => ?_⟩
  have hreplies : reply ∈
      [Reply.acquired ⟨.binance, .spot, "BTCUSDT", .trade⟩,
        Reply.acquired ⟨.binance, .spot, "BTCUSDT", .ticker⟩] := hreply
  rcases List.mem_cons.mp hreplies with rfl | hreplies
  · trivial
  · rw [List.mem_singleton.mp hreplies]
    trivial

/-- A stream is not supported: the call returns `Ok` and keeps the reference of the other. -/
theorem unsupported_stream_not_rolled_back :
    ¬ ∀ (quota : ConsumerQuota) (as : List Action), Atomic (run quota as) := by
  intro h
  have hrun := h twoSubs (oneCall (some (.streamNotSupported "ticker")))
  have hfailed := (hrun.returned_ok 0 _ _ rfl rfl).2.2 _ List.mem_cons_self
  exact nomatch hfailed

end World

end Digdigdig3.Quota
