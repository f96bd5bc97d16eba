import Digdigdig3.Station.Multiplexer

/-!
# A derived acquire that fails

`acquire_or_spawn_derived_body` (`crates/digdigdig3-station/src/station.rs` lines 2202–2475) from
its start to its return, with no other task in between. It acquires one upstream after the other;
`?` returns the error of one of them and leaves the others as they are.

* `acquireUpstreams_cases`: what a list of upstreams that fails does to the counts.
* `leavesNothing_iff`: when a call that fails leaves nothing behind.
* `leavesNothing_of_ne_basis`: all kinds with one upstream do.
-/

namespace Digdigdig3.Multiplex

open Series (Kind SeriesKey)

/-! ## Upstreams -/

/-- What a venue offers to an acquire that misses: its connector, a poll source, and the answer of
    `ws.subscribe`. -/
structure Venue where
  connector : Option ℕ
  pollSource : Bool
  reply : SubscribeReply

/-- One of the `resolved_deps`, which are not derived themselves (lines 2204–2208), with what the
    venue offers for it, and for the trades that bars are made of where it has no bars. -/
structure Upstream where
  kind : Kind
  notDerived : kind.isDerived = false
  venue : Venue
  trades : Venue

namespace StationInner

variable (cfg : Config)

/-- `acquire_or_spawn` (lines 1665–2138) of a kind that is not derived, with the acquire of
    `TradeToBarDerived`. The result says whether it is `Ok`. -/
def acquireOr (fallback : StationInner → StationInner × Bool) (holder : Holder)
    (s : StationInner) (key : SeriesKey) (venue : Venue) : StationInner × Bool :=
  if (s.muxes key).isSome then (s.reuse key holder, true)
  else if key.kind.isPollOnly.isSome then
    if cfg.native && venue.pollSource then (s.spawn key .poll holder, true) else (s, false)
  else
    match venue.connector with
    | none => (s, false)
    | some c =>
      match Station.afterReply key c venue.reply with
      | .seeding c => (s.spawn key (.ws c) holder, true)
      | .upstreams _ => fallback s
      | _ => (s, false)

/-- The loop over `resolved_deps` (lines 2202–2226). -/
def acquireUpstreams {U : Type} (acquire : StationInner → U → StationInner × Bool) :
    StationInner → List U → StationInner × Bool
  | s, [] => (s, true)
  | s, up :: ups =>
    match acquire s up with
    | (s, true) => acquireUpstreams acquire s ups
    | (s, false) => (s, false)

/-- `acquire_or_spawn_derived_body` (lines 2187–2475) of the acquire `t`, with the references of
    its upstreams. -/
def derivedBody {U : Type} (acquire : StationInner → U → StationInner × Bool) (t : ℕ)
    (holder : Holder) (s : StationInner) (key : SeriesKey) (ups : List U) : StationInner × Bool :=
  match acquireUpstreams acquire s ups with
  | (s, true) => (s.apply cfg.grace (.spawn key .derived t holder), true)
  | (s, false) => (s.forget (.acquire t), false)

/-- The key of an upstream (lines 2209–2214). -/
def depKey (key : SeriesKey) (kind : Kind) : SeriesKey := { key with kind }

/-- `acquire_or_spawn` of an upstream, by the acquire `t`; bars that are made of trades by the
    acquire `bars`. -/
def acquireOrSpawn (t bars : ℕ) (key : SeriesKey) (s : StationInner) (up : Upstream) :
    StationInner × Bool :=
  acquireOr cfg
    (fun s => derivedBody cfg
      (fun s kind => acquireOr cfg (fun s => (s, false)) (.acquire bars) s (depKey key kind)
        up.trades)
      bars (.acquire t) s (depKey key up.kind) [.trade])
    (.acquire t) s (depKey key up.kind) up.venue

/-- `acquire_or_spawn_derived_body` for upstreams of a venue. -/
def acquireOrSpawnDerivedBody (t bars : ℕ) (s : StationInner) (key : SeriesKey)
    (ups : List Upstream) : StationInner × Bool :=
  derivedBody cfg (acquireOrSpawn cfg t bars key) t (.acquire t) s key ups

/-! ## Specification -/

/-- No count has changed, what was spawned is shut down, and `key` has no multiplexer. -/
structure LeavesNothing (s s' : StationInner) (key : SeriesKey) : Prop where
  counts : ∀ k, s'.stillConsumers k = s.stillConsumers k
  spawned : ∀ i, s.forwarders i = none → ∀ f, s'.forwarders i = some f → f.signalled = true
  entry : s'.muxes key = none

/-- The series is not there, and the venue neither streams nor polls it. -/
def Unavailable (s : StationInner) (key : SeriesKey) (venue : Venue) : Prop :=
  s.muxes key = none ∧
    if key.kind.isPollOnly.isSome then ¬(cfg.native ∧ venue.pollSource)
    else venue.connector = none ∨ venue.reply ≠ .ok

/-- The venue has no such bars, and they can be made of trades (lines 1855–1880). -/
def FallsBack (key : SeriesKey) (venue : Venue) : Prop :=
  venue.connector ≠ none ∧ venue.reply = .notSupported ∧
    ∃ iv, key.kind = .kline iv ∧ (Derived.intervalToMs iv.text).isSome

/-- The acquire of the upstream fails: it is not there and the venue does not serve it, nor the
    trades that it might be made of. -/
def Refused (s : StationInner) (key : SeriesKey) (up : Upstream) : Prop :=
  Unavailable cfg s (depKey key up.kind) up.venue ∧
    (FallsBack (depKey key up.kind) up.venue →
      Unavailable cfg s (depKey key .trade) up.trades)

/-! ## Counts -/

theorem stillConsumers_eq (s : StationInner) (key : SeriesKey) :
    s.stillConsumers key = ((s.muxes key).map Multiplexer.consumers).getD 0 := rfl

theorem stillConsumers_reuse {s : StationInner} {key : SeriesKey} (h : (s.muxes key).isSome)
    (holder : Holder) (k : SeriesKey) :
    (s.reuse key holder).stillConsumers k = s.stillConsumers k + if k = key then 1 else 0 := by
  obtain ⟨mux, hmux⟩ := Option.isSome_iff_exists.mp h
  unfold reuse
  rw [hmux]
  simp only [stillConsumers_eq]
  split_ifs with hk
  · subst hk
    rw [Function.update_self, hmux]
    rfl
  · rw [Function.update_of_ne hk, Nat.add_zero]

theorem stillConsumers_spawn {s : StationInner} {key : SeriesKey} (h : s.muxes key = none)
    (feed : Feed) (holder : Holder) (k : SeriesKey) :
    (s.spawn key feed holder).stillConsumers k =
      s.stillConsumers k + if k = key then 1 else 0 := by
  unfold spawn
  rw [removeMux_of_none h]
  simp only [stillConsumers_eq]
  split_ifs with hk
  · subst hk
    rw [Function.update_self, h]
    rfl
  · rw [Function.update_of_ne hk, Nat.add_zero]

/-- What an acquire of `key` comes to. It takes a reference, so that no count is smaller and that of
    `key` is larger; or it fails and leaves the multiplexers and the forwarders. -/
inductive Outcome (s : StationInner) (key : SeriesKey) : StationInner × Bool → Prop
  | taken {s' : StationInner} (le : ∀ k, s.stillConsumers k ≤ s'.stillConsumers k)
      (lt : s.stillConsumers key < s'.stillConsumers key) : Outcome s key (s', true)
  | failed {s' : StationInner} (muxes : s'.muxes = s.muxes)
      (forwarders : s'.forwarders = s.forwarders) : Outcome s key (s', false)

theorem Outcome.of_add {s s' : StationInner} {key : SeriesKey}
    (h : ∀ k, s'.stillConsumers k = s.stillConsumers k + if k = key then 1 else 0) :
    Outcome s key (s', true) := by
  apply Outcome.taken
  · intro k
    rw [h k]
    omega
  · rw [h key, if_pos rfl]
    omega

/-! ## Acquires -/

theorem afterReply_cases (key : SeriesKey) (c : ℕ) (reply : SubscribeReply) :
    (reply = .ok ∧ Station.afterReply key c reply = .seeding c) ∨
      (reply = .notSupported ∧ (∃ iv, key.kind = .kline iv ∧
          (Derived.intervalToMs iv.text).isSome) ∧
        Station.afterReply key c reply = .upstreams (depsForKey key.kind)) ∨
      (reply ≠ .ok ∧ ¬(reply = .notSupported ∧ ∃ iv, key.kind = .kline iv ∧
          (Derived.intervalToMs iv.text).isSome) ∧
        Station.afterReply key c reply = .failing) := by
  cases reply with
  | ok => exact Or.inl ⟨rfl, rfl⟩
  | failed => exact Or.inr (Or.inr ⟨by simp, by simp, rfl⟩)
  | notSupported =>
    by_cases hbars : ∃ iv, key.kind = .kline iv ∧ (Derived.intervalToMs iv.text).isSome
    · refine Or.inr (Or.inl ⟨rfl, hbars, ?_⟩)
      obtain ⟨iv, hkind, hsome⟩ := hbars
      simp only [Station.afterReply, hkind, if_pos hsome]
    · refine Or.inr (Or.inr ⟨by simp, fun h => hbars h.2, ?_⟩)
      unfold Station.afterReply
      simp only
      split
      · next iv hkind => exact if_neg fun hsome => hbars ⟨iv, hkind, hsome⟩
      · rfl

variable {cfg}

/-- An acquire takes the multiplexer that is there, or makes one, or falls back, or fails. -/
theorem acquireOr_cases (cfg : Config) (fallback : StationInner → StationInner × Bool)
    (holder : Holder) (s : StationInner) (key : SeriesKey) (venue : Venue) :
    ((s.muxes key).isSome ∧
        acquireOr cfg fallback holder s key venue = (s.reuse key holder, true)) ∨
      (s.muxes key = none ∧ ¬Unavailable cfg s key venue ∧
        ∃ feed, acquireOr cfg fallback holder s key venue = (s.spawn key feed holder, true)) ∨
      (Unavailable cfg s key venue ∧ FallsBack key venue ∧
        acquireOr cfg fallback holder s key venue = fallback s) ∨
      (Unavailable cfg s key venue ∧ ¬FallsBack key venue ∧
        acquireOr cfg fallback holder s key venue = (s, false)) := by
  unfold acquireOr Unavailable FallsBack
  by_cases hsome : (s.muxes key).isSome
  · exact Or.inl ⟨hsome, if_pos hsome⟩
  · have hnone := Option.not_isSome_iff_eq_none.mp hsome
    rw [if_neg hsome]
    by_cases hpoll : key.kind.isPollOnly.isSome
    · rw [if_pos hpoll, if_pos hpoll]
      by_cases hsource : cfg.native ∧ venue.pollSource
      · rw [if_pos (by simpa using hsource)]
        exact Or.inr (Or.inl ⟨hnone, fun h => h.2 hsource, _, rfl⟩)
      · rw [if_neg (by simpa using hsource)]
        refine Or.inr (Or.inr (Or.inr ⟨⟨hnone, hsource⟩, ?_, rfl⟩))
        rintro ⟨-, -, iv, hkind, -⟩
        rw [hkind] at hpoll
        cases hpoll
    · rw [if_neg hpoll, if_neg hpoll]
      rcases hc : venue.connector with _ | c
      · exact Or.inr (Or.inr (Or.inr ⟨⟨hnone, Or.inl rfl⟩, fun h => h.1 rfl, rfl⟩))
      · simp only
        rcases afterReply_cases key c venue.reply with ⟨hok, hstage⟩ | ⟨hnot, hbars, hstage⟩ |
          ⟨hne, hbars, hstage⟩
        · rw [hstage]
          exact Or.inr (Or.inl ⟨hnone, fun h => h.2.elim (by simp) fun hne => hne hok, _, rfl⟩)
        · rw [hstage]
          exact Or.inr (Or.inr (Or.inl ⟨⟨hnone, Or.inr (by rw [hnot]; simp)⟩,
            ⟨by simp, hnot, hbars⟩, rfl⟩))
        · rw [hstage]
          exact Or.inr (Or.inr (Or.inr ⟨⟨hnone, Or.inr hne⟩, fun h => hbars h.2, rfl⟩))

theorem outcome_acquireOr {fallback : StationInner → StationInner × Bool} (holder : Holder)
    {s : StationInner} {key : SeriesKey} {venue : Venue}
    (h : s.muxes key = none → FallsBack key venue → Outcome s key (fallback s)) :
    Outcome s key (acquireOr cfg fallback holder s key venue) := by
  rcases acquireOr_cases cfg fallback holder s key venue with ⟨hsome, heq⟩ |
    ⟨hnone, -, feed, heq⟩ | ⟨hun, hback, heq⟩ | ⟨-, -, heq⟩
  · rw [heq]
    exact Outcome.of_add (stillConsumers_reuse hsome holder)
  · rw [heq]
    exact Outcome.of_add (stillConsumers_spawn hnone feed holder)
  · rw [heq]
    exact h hun.1 hback
  · rw [heq]
    exact Outcome.failed rfl rfl

/-! ### Bars that are made of trades -/

theorem not_fallsBack_trade (key : SeriesKey) (venue : Venue) :
    ¬FallsBack (depKey key .trade) venue := by
  rintro ⟨-, -, iv, hkind, -⟩
  cases hkind

/-- The acquire of the trades fails just where there are none. -/
theorem snd_acquireTrades (holder : Holder) (s : StationInner) (key : SeriesKey) (venue : Venue) :
    (acquireOr cfg (fun s => (s, false)) holder s (depKey key .trade) venue).2 = false ↔
      Unavailable cfg s (depKey key .trade) venue := by
  rcases acquireOr_cases cfg (fun s => (s, false)) holder s (depKey key .trade) venue with
    ⟨hsome, heq⟩ | ⟨hnone, hav, feed, heq⟩ | ⟨hun, -, heq⟩ | ⟨hun, -, heq⟩
  · rw [heq]
    refine iff_of_false (by simp) fun hun => ?_
    rw [hun.1] at hsome
    cases hsome
  · rw [heq]
    exact iff_of_false (by simp) hav
  · rw [heq]
    exact iff_of_true rfl hun
  · rw [heq]
    exact iff_of_true rfl hun

/-- It changes no other multiplexer. -/
theorem muxes_acquireTrades (cfg : Config) (holder : Holder) (s : StationInner) (key : SeriesKey)
    (venue : Venue) {k : SeriesKey} (hk : k ≠ depKey key .trade) :
    (acquireOr cfg (fun s => (s, false)) holder s (depKey key .trade) venue).1.muxes k =
      s.muxes k := by
  rcases acquireOr_cases cfg (fun s => (s, false)) holder s (depKey key .trade) venue with
    ⟨hsome, heq⟩ | ⟨hnone, -, feed, heq⟩ | ⟨-, -, heq⟩ | ⟨-, -, heq⟩
  · obtain ⟨mux, hmux⟩ := Option.isSome_iff_exists.mp hsome
    rw [heq]
    unfold reuse
    rw [hmux]
    exact Function.update_of_ne hk _ _
  · rw [heq]
    unfold spawn
    rw [removeMux_of_none hnone]
    exact Function.update_of_ne hk _ _
  · rw [heq]
  · rw [heq]

/-- `acquire_or_spawn_derived::<TradeToBarDerived>` of bars. -/
theorem derivedBody_trade (t : ℕ) (holder : Holder) (s : StationInner) (key dep : SeriesKey)
    (venue : Venue) :
    derivedBody cfg (fun s kind => acquireOr cfg (fun s => (s, false)) (.acquire t) s
        (depKey dep kind) venue) t holder s key [.trade] =
      match acquireOr cfg (fun s => (s, false)) (.acquire t) s (depKey dep .trade) venue with
      | (s, true) => (s.apply cfg.grace (.spawn key .derived t holder), true)
      | (s, false) => (s.forget (.acquire t), false) := by
  unfold derivedBody acquireUpstreams
  rcases acquireOr cfg (fun s => (s, false)) (.acquire t) s (depKey dep .trade) venue with
    ⟨s', _ | _⟩ <;> rfl

theorem outcome_derivedBody_trade {t : ℕ} {holder : Holder} {s : StationInner}
    {key dep : SeriesKey} {venue : Venue} (hkey : key ≠ depKey dep .trade)
    (hmiss : s.muxes key = none) :
    Outcome s key (derivedBody cfg (fun s kind => acquireOr cfg (fun s => (s, false)) (.acquire t) s
      (depKey dep kind) venue) t holder s key [.trade]) := by
  have hother := muxes_acquireTrades cfg (.acquire t) s dep venue hkey
  have htrades : Outcome s (depKey dep .trade)
      (acquireOr cfg (fun s => (s, false)) (.acquire t) s (depKey dep .trade) venue) :=
    outcome_acquireOr _ fun _ hback => absurd hback (not_fallsBack_trade dep venue)
  rw [StationInner.derivedBody_trade]
  revert htrades hother
  rcases acquireOr cfg (fun s => (s, false)) (.acquire t) s (depKey dep .trade) venue with
    ⟨s', _ | _⟩
  · intro hother htrades
    cases htrades with
    | failed hmuxes hforwarders => exact Outcome.failed hmuxes hforwarders
  · intro hother htrades
    cases htrades with
    | taken hle hlt =>
      have hnone : (s'.handOver (.acquire t) (.forwarder s'.next)).muxes key = none :=
        hother.trans hmiss
      have hadd := stillConsumers_spawn hnone .derived holder
      apply Outcome.taken
      · intro k
        refine (hle k).trans ?_
        show s'.stillConsumers k ≤ ((s'.handOver (.acquire t) (.forwarder s'.next)).spawn key
          .derived holder).stillConsumers k
        rw [hadd k]
        exact Nat.le_add_right _ _
      · refine lt_of_le_of_lt (hle key) ?_
        show s'.stillConsumers key < ((s'.handOver (.acquire t) (.forwarder s'.next)).spawn key
          .derived holder).stillConsumers key
        rw [hadd key, if_pos rfl]
        exact Nat.lt_succ_self _

theorem outcome_acquireOrSpawn (t bars : ℕ) (key : SeriesKey) (s : StationInner) (up : Upstream) :
    Outcome s (depKey key up.kind) (acquireOrSpawn cfg t bars key s up) := by
  refine outcome_acquireOr _ fun hmiss hback => ?_
  refine outcome_derivedBody_trade (fun heq => ?_) hmiss
  obtain ⟨-, -, iv, hkind, -⟩ := hback
  have htrade : up.kind = .trade := congrArg SeriesKey.kind heq
  replace hkind : up.kind = .kline iv := hkind
  rw [htrade] at hkind
  cases hkind

/-- The acquire of an upstream fails just where it is refused. -/
theorem snd_acquireOrSpawn (t bars : ℕ) (key : SeriesKey) (s : StationInner) (up : Upstream) :
    (acquireOrSpawn cfg t bars key s up).2 = false ↔ Refused cfg s key up := by
  unfold acquireOrSpawn Refused
  rcases acquireOr_cases cfg (fun s => derivedBody cfg (fun s kind =>
      acquireOr cfg (fun s => (s, false)) (.acquire bars) s (depKey key kind) up.trades) bars
        (.acquire t) s (depKey key up.kind) [.trade])
      (.acquire t) s (depKey key up.kind) up.venue with
    ⟨hsome, heq⟩ | ⟨hnone, hav, feed, heq⟩ | ⟨hun, hback, heq⟩ | ⟨hun, hback, heq⟩
  · rw [heq]
    refine iff_of_false (by simp) fun h => ?_
    rw [h.1.1] at hsome
    cases hsome
  · rw [heq]
    exact iff_of_false (by simp) fun h => hav h.1
  · rw [heq, derivedBody_trade, ← snd_acquireTrades (.acquire bars)]
    rcases acquireOr cfg (fun s => (s, false)) (.acquire bars) s (depKey key .trade) up.trades with
      ⟨s', _ | _⟩
    · exact iff_of_true rfl ⟨hun, fun _ => rfl⟩
    · exact iff_of_false (by simp) fun h => by cases h.2 hback
  · rw [heq]
    exact iff_of_true rfl ⟨hun, fun h => absurd h hback⟩

/-! ## Upstreams one after the other -/

/-- Acquires take references only. -/
theorem le_acquireUpstreams {U : Type} {acquire : StationInner → U → StationInner × Bool}
    {keyOf : U → SeriesKey} (h : ∀ s up, Outcome s (keyOf up) (acquire s up)) (s : StationInner)
    (ups : List U) (k : SeriesKey) :
    s.stillConsumers k ≤ (acquireUpstreams acquire s ups).1.stillConsumers k := by
  induction ups generalizing s with
  | nil => exact le_rfl
  | cons up ups ih =>
    have hout := h s up
    unfold acquireUpstreams
    revert hout
    rcases acquire s up with ⟨s', _ | _⟩
    · intro hout
      cases hout with
      | failed hmuxes hforwarders => simp only [stillConsumers_eq, hmuxes, le_refl]
    · intro hout
      cases hout with
      | taken hle hlt => exact (hle k).trans (ih s')

/-- A list of upstreams that fails: at the first one, and nothing has changed, or later, and the
    first one has a reference more. -/
theorem acquireUpstreams_cases {U : Type} {acquire : StationInner → U → StationInner × Bool}
    {keyOf : U → SeriesKey} (h : ∀ s up, Outcome s (keyOf up) (acquire s up)) {s : StationInner}
    {ups : List U} (hfail : (acquireUpstreams acquire s ups).2 = false) :
    ∃ up, ups.head? = some up ∧
      (((acquire s up).2 = false ∧ (acquireUpstreams acquire s ups).1.muxes = s.muxes ∧
          (acquireUpstreams acquire s ups).1.forwarders = s.forwarders) ∨
        ((acquire s up).2 = true ∧ s.stillConsumers (keyOf up) <
          (acquireUpstreams acquire s ups).1.stillConsumers (keyOf up))) := by
  cases ups with
  | nil => cases hfail
  | cons up ups =>
    refine ⟨up, rfl, ?_⟩
    have hout := h s up
    unfold acquireUpstreams at hfail ⊢
    revert hout hfail
    rcases acquire s up with ⟨s', _ | _⟩
    · intro hout hfail
      cases hout with
      | failed hmuxes hforwarders => exact Or.inl ⟨rfl, hmuxes, hforwarders⟩
    · intro hout hfail
      cases hout with
      | taken hle hlt => exact Or.inr ⟨rfl, lt_of_lt_of_le hlt (le_acquireUpstreams h s' ups _)⟩

theorem acquireOrSpawnDerivedBody_of_fail {t bars : ℕ} {s : StationInner} {key : SeriesKey}
    {ups : List Upstream} (hfail : (acquireOrSpawnDerivedBody cfg t bars s key ups).2 = false) :
    (acquireUpstreams (acquireOrSpawn cfg t bars key) s ups).2 = false ∧
      (acquireOrSpawnDerivedBody cfg t bars s key ups).1 =
        (acquireUpstreams (acquireOrSpawn cfg t bars key) s ups).1.forget (.acquire t) := by
  revert hfail
  unfold acquireOrSpawnDerivedBody derivedBody
  rcases acquireUpstreams (acquireOrSpawn cfg t bars key) s ups with ⟨s', _ | _⟩
  · exact fun _ => ⟨rfl, rfl⟩
  · intro hfail
    cases hfail

/-- Maps that have not changed. -/
theorem leavesNothing_of_eq {s s' : StationInner} {key : SeriesKey} (hmiss : s.muxes key = none)
    (hmuxes : s'.muxes = s.muxes) (hforwarders : s'.forwarders = s.forwarders) :
    LeavesNothing s s' key := by
  constructor
  · intro k
    rw [stillConsumers_eq, stillConsumers_eq, hmuxes]
  · intro i hi f hf
    rw [hforwarders, hi] at hf
    cases hf
  · rw [hmuxes, hmiss]

/-- **Main theorem.** A call that fails leaves nothing behind just when its first upstream is the
    one that is refused. -/
theorem leavesNothing_iff (cfg : Config) (t bars : ℕ) {s : StationInner} {key : SeriesKey}
    (hmiss : s.muxes key = none) {ups : List Upstream}
    (hfail : (acquireOrSpawnDerivedBody cfg t bars s key ups).2 = false) :
    LeavesNothing s (acquireOrSpawnDerivedBody cfg t bars s key ups).1 key ↔
      ∃ up, ups.head? = some up ∧ Refused cfg s key up := by
  obtain ⟨hups, hstate⟩ := acquireOrSpawnDerivedBody_of_fail hfail
  obtain ⟨up, hhead, hcases⟩ :=
    acquireUpstreams_cases (fun s up => outcome_acquireOrSpawn t bars key s up) hups
  have hrefused : (∃ up, ups.head? = some up ∧ Refused cfg s key up) ↔ Refused cfg s key up := by
    simp only [hhead, Option.some.injEq, exists_eq_left']
  rw [hstate, hrefused, ← snd_acquireOrSpawn t bars]
  rcases hcases with ⟨hfirst, hmuxes, hforwarders⟩ | ⟨hfirst, hlt⟩
  · exact iff_of_true (leavesNothing_of_eq hmiss hmuxes hforwarders) hfirst
  · refine iff_of_false (fun hnothing => hlt.ne' (hnothing.counts _)) ?_
    rw [hfirst]
    simp

/-- A kind with one upstream leaves nothing behind; only `Kind::Basis` has two. -/
theorem leavesNothing_of_ne_basis (cfg : Config) (t bars : ℕ) {s : StationInner} {key : SeriesKey}
    (hmiss : s.muxes key = none) (hbasis : key.kind ≠ .basis) {ups : List Upstream}
    (hups : ups.map Upstream.kind = depsForKey key.kind)
    (hfail : (acquireOrSpawnDerivedBody cfg t bars s key ups).2 = false) :
    LeavesNothing s (acquireOrSpawnDerivedBody cfg t bars s key ups).1 key := by
  obtain ⟨hfailed, hstate⟩ := acquireOrSpawnDerivedBody_of_fail hfail
  obtain ⟨kind, hdeps⟩ : ∃ kind, depsForKey key.kind = [kind] := by
    unfold depsForKey
    split <;> first | exact ⟨_, rfl⟩ | exact absurd (by assumption) hbasis
  rw [hdeps] at hups
  obtain ⟨up, rfl, -⟩ := List.map_eq_singleton_iff.mp hups
  obtain ⟨first, hhead, ⟨-, hmuxes, hforwarders⟩ | ⟨hfirst, hlt⟩⟩ :=
    acquireUpstreams_cases (fun s up => outcome_acquireOrSpawn t bars key s up) hfailed
  · rw [hstate]
    exact leavesNothing_of_eq hmiss hmuxes hforwarders
  · cases hhead
    unfold acquireUpstreams at hfailed
    revert hfailed
    rw [show acquireOrSpawn cfg t bars key s up =
      ((acquireOrSpawn cfg t bars key s up).1, true) from Prod.ext rfl hfirst]
    intro hfailed
    cases hfailed

/-! ## A basis without an index -/

/-- What a venue offers that streams a series, or does not. -/
def streams (supported : Bool) : Venue where
  connector := some 0
  pollSource := false
  reply := if supported then .ok else .notSupported

/-- The basis of BTC against USDT on Binance. -/
def btcBasis : SeriesKey :=
  { exchange := .binance, accountType := .spot, symbol := "BTCUSDT", kind := .basis }

/-- The upstreams of a basis, where the venue streams the mark price, or the index price. -/
def basisUpstreams (mark index : Bool) : List Upstream :=
  [{ kind := .markPrice, notDerived := rfl, venue := streams mark, trades := streams false },
    { kind := .indexPrice, notDerived := rfl, venue := streams index, trades := streams false }]

/-- Without a mark price nothing is left behind. -/
theorem basis_without_mark :
    LeavesNothing init (acquireOrSpawnDerivedBody { native := true, grace := false } 0 1 init
      btcBasis (basisUpstreams false true)).1 btcBasis := by
  refine (leavesNothing_iff _ 0 1 rfl rfl).mpr ⟨_, rfl, ⟨rfl, Or.inr (by decide)⟩, ?_⟩
  rintro ⟨-, -, iv, hkind, -⟩
  cases hkind

/-- Without an index price the mark price keeps a consumer that nobody is. -/
theorem basis_without_index_keeps_mark :
    ¬∀ (cfg : Config) (t bars : ℕ) (s : StationInner) (key : SeriesKey) (ups : List Upstream),
      key.kind.isDerived → s.muxes key = none →
        (acquireOrSpawnDerivedBody cfg t bars s key ups).2 = false →
          LeavesNothing s (acquireOrSpawnDerivedBody cfg t bars s key ups).1 key := by
  intro h
  have hnothing := h { native := true, grace := false } 0 1 init btcBasis
    (basisUpstreams true false) rfl rfl rfl
  have hcount := hnothing.counts (depKey btcBasis .markPrice)
  revert hcount
  decide

end StationInner

end Digdigdig3.Multiplex
