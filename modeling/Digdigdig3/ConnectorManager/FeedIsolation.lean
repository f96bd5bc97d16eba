import Digdigdig3.ConnectorManager.MarketFeed

/-!
# What a key's channel carries

The pumps of all keys of a connection read the same multiplexed events. What is meant for a key
are the events of its kind, symbol and interval from the moment it was subscribed.

* `forwards_of_belongs`, `forwards_isSome_iff`: what a pump makes of an event.
* `isolated_run`: the runs in which every channel carries its own events and nothing is lost.
* `other_interval_delivered`: a candle of another symbol and interval under a key's symbol.
-/

namespace Digdigdig3.Feed

variable {Data : EventClass → Type}

/-! ## Events of a key -/

/-- The event is one of the key: of its kind, with its symbol, and for klines its interval. -/
def Belongs (key : StreamKey) : StreamEvent Data → Prop
  | .ticker symbol _ => key.kind = .ticker ∧ symbol = key.symbol
  | .trade symbol _ => key.kind = .trade ∧ symbol = key.symbol
  | .orderbookSnapshot symbol _ => key.kind = .orderbook ∧ symbol = key.symbol
  | .orderbookDelta symbol _ => key.kind = .orderbook ∧ symbol = key.symbol
  | .kline symbol interval _ => key.kind = .kline interval.text ∧ symbol = key.symbol
  | _ => False

instance (key : StreamKey) (event : StreamEvent Data) : Decidable (Belongs key event) := by
  cases event <;> (unfold Belongs; infer_instance)

/-- What an item is to the subscribers of a key. -/
def own (key : StreamKey) (item : Option (StreamEvent Data)) : Option (FeedEvent Data) :=
  item.bind fun event =>
    if Belongs key event then some ⟨key.exchange, key.accountType, key.symbol, event⟩ else none

/-- An event that the pump of the key cannot tell from its own: a ticker or trade of another symbol
    where the key has none, an order book of another symbol, a candle of another symbol or
    interval. -/
def Mistaken (key : StreamKey) : StreamEvent Data → Prop
  | .ticker symbol _ => key.kind = .ticker ∧ key.symbol = "" ∧ symbol ≠ ""
  | .trade symbol _ => key.kind = .trade ∧ key.symbol = "" ∧ symbol ≠ ""
  | .orderbookSnapshot symbol _ => key.kind = .orderbook ∧ symbol ≠ key.symbol
  | .orderbookDelta symbol _ => key.kind = .orderbook ∧ symbol ≠ key.symbol
  | .kline symbol interval _ =>
    ∃ own, key.kind = .kline own ∧ ¬ (interval.text = own ∧ symbol = key.symbol)
  | _ => False

/-- An event of a key is sent on as such. -/
theorem forwards_of_belongs {key : StreamKey} {event : StreamEvent Data}
    (h : Belongs key event) :
    forwards key event = some ⟨key.exchange, key.accountType, key.symbol, event⟩ := by
  obtain ⟨exchange, account, symbol, kind⟩ := key
  cases event with
  | ticker _ _ => obtain ⟨rfl, rfl⟩ := h; simp [forwards, matchesKind, eventSymbol]
  | trade _ _ => obtain ⟨rfl, rfl⟩ := h; simp [forwards, matchesKind, eventSymbol]
  | orderbookSnapshot _ _ => obtain ⟨rfl, rfl⟩ := h; simp [forwards, matchesKind, eventSymbol]
  | orderbookDelta _ _ => obtain ⟨rfl, rfl⟩ := h; simp [forwards, matchesKind, eventSymbol]
  | kline _ _ _ => obtain ⟨rfl, rfl⟩ := h; simp [forwards, matchesKind, eventSymbol]
  | _ => exact h.elim

theorem own_of_belongs {key : StreamKey} {event : StreamEvent Data} (h : Belongs key event) :
    own key (some event) = some ⟨key.exchange, key.accountType, key.symbol, event⟩ := if_pos h

theorem own_of_not_belongs {key : StreamKey} {event : StreamEvent Data}
    (h : ¬ Belongs key event) : own key (some event) = none := if_neg h

/-- Of the events that are not its own, the pump sends those it mistakes. -/
theorem forwards_isSome_iff {key : StreamKey} {event : StreamEvent Data}
    (h : ¬ Belongs key event) : (forwards key event).isSome ↔ Mistaken key event := by
  obtain ⟨exchange, account, symbol, kind⟩ := key
  cases event <;> cases kind <;>
    simp_all [forwards, matchesKind, eventSymbol, Belongs, Mistaken] <;> grind

/-! ## Channels -/

namespace MarketFeed

/-- The events of a key among the items. -/
def owned (key : StreamKey) (items : List (Option (StreamEvent Data))) : List (FeedEvent Data) :=
  items.filterMap (own key)

/-- What a pump has still to read: nothing once it has returned. -/
def unread (p : Pump Data) (stream : List (Option (StreamEvent Data))) :
    List (Option (StreamEvent Data)) :=
  match p.phase with
  | .spawned => stream.drop p.since
  | .reading => stream.drop p.pos
  | .exited => []

/-- What the channel has carried, and what of its key is still to be read, are the events of the key
    since it was subscribed. -/
def Faithful (p : Pump Data) (stream : List (Option (StreamEvent Data))) : Prop :=
  p.sent ++ owned p.key (unread p stream) = owned p.key (stream.drop p.since)

/-- Every channel is faithful to its key. -/
def Isolated (s : MarketFeed Data) : Prop :=
  ∀ i p, s.pumps i = some p → Faithful p (s.streams p.ws)

/-- Pumps read within their streams. -/
def Within (s : MarketFeed Data) : Prop :=
  ∀ i p, s.pumps i = some p →
    p.since ≤ (s.streams p.ws).length ∧ p.pos ≤ (s.streams p.ws).length

/-- No event of a key passes its pump by: before it starts, by a lag, after it has returned, or in
    front of a `send` that ends it; and no event is mistaken for one of the key. -/
def KeepsApart (s : MarketFeed Data) : Action Data → Prop
  | .attach i =>
    ∀ p, s.pumps i = some p → p.phase = .spawned →
      owned p.key ((s.streams p.ws).drop p.since) = []
  | .lag i pos =>
    ∀ p, s.pumps i = some p → p.phase = .reading → p.pos < pos → pos ≤ (s.streams p.ws).length →
      owned p.key (((s.streams p.ws).drop p.pos).take (pos - p.pos)) = []
  | .poll i =>
    ∀ p event, s.pumps i = some p → p.phase = .reading →
      (s.streams p.ws)[p.pos]? = some (some event) →
        Belongs p.key event ∧ s.receivers i ≠ 0 ∨ ¬ Belongs p.key event ∧ (Mistaken p.key event →
          s.receivers i = 0 ∧ owned p.key ((s.streams p.ws).drop p.pos) = [])
  | .emit ws item =>
    ∀ i p, s.pumps i = some p → p.ws = ws → p.phase = .exited → own p.key item = none
  | _ => True

variable {s : MarketFeed Data}

theorem owned_append (key : StreamKey) (xs ys : List (Option (StreamEvent Data))) :
    owned key (xs ++ ys) = owned key xs ++ owned key ys := List.filterMap_append

theorem owned_cons_none {key : StreamKey} {item : Option (StreamEvent Data)}
    (h : own key item = none) (items : List (Option (StreamEvent Data))) :
    owned key (item :: items) = owned key items := List.filterMap_cons_none h

theorem owned_cons_some {key : StreamKey} {item : Option (StreamEvent Data)} {fe : FeedEvent Data}
    (h : own key item = some fe) (items : List (Option (StreamEvent Data))) :
    owned key (item :: items) = fe :: owned key items := List.filterMap_cons_some h

/-- A list grows by nothing that is not empty. -/
theorem append_append_eq_iff {α : Type*} {xs ys zs : List α} :
    xs ++ zs = xs ++ (ys ++ zs) ↔ ys = [] := by
  constructor
  · intro h
    have hlen := congrArg List.length (List.append_cancel_left h)
    rw [List.length_append] at hlen
    exact List.length_eq_zero_iff.mp (by omega)
  · rintro rfl
    rfl

/-! ### Steps of a pump -/

theorem faithful_attach_iff {p : Pump Data} {stream : List (Option (StreamEvent Data))}
    (h : Faithful p stream) (hphase : p.phase = .spawned) :
    Faithful { p with phase := .reading, pos := stream.length } stream ↔
      owned p.key (stream.drop p.since) = [] := by
  -- nothing was sent before the first step
  have hsent : p.sent = [] := by
    have hcancel : p.sent ++ owned p.key (stream.drop p.since) =
        [] ++ owned p.key (stream.drop p.since) := by
      rw [Faithful, unread, hphase] at h
      exact h
    exact List.append_cancel_right hcancel
  simp only [Faithful, unread, List.drop_length, hsent]
  exact eq_comm

/-- While the pump is in its loop, it has to read what its position leaves. -/
theorem faithful_reading_iff {p : Pump Data} {stream : List (Option (StreamEvent Data))}
    (hphase : p.phase = .reading) :
    Faithful p stream ↔
      p.sent ++ owned p.key (stream.drop p.pos) = owned p.key (stream.drop p.since) := by
  rw [Faithful, unread, hphase]

theorem faithful_moved_iff {p : Pump Data} {stream : List (Option (StreamEvent Data))}
    (hphase : p.phase = .reading) (pos : ℕ) (sent : List (FeedEvent Data)) :
    Faithful { p with pos := pos, sent := sent } stream ↔
      sent ++ owned p.key (stream.drop pos) = owned p.key (stream.drop p.since) :=
  faithful_reading_iff hphase

theorem faithful_exited_iff {p : Pump Data} {stream : List (Option (StreamEvent Data))}
    (hphase : p.phase = .exited) :
    Faithful p stream ↔ p.sent = owned p.key (stream.drop p.since) := by
  rw [Faithful, unread, hphase, owned, List.filterMap_nil, List.append_nil]

theorem faithful_lag_iff {p : Pump Data} {stream : List (Option (StreamEvent Data))} {pos : ℕ}
    (h : Faithful p stream) (hphase : p.phase = .reading) (hlt : p.pos < pos) :
    Faithful { p with pos := pos } stream ↔
      owned p.key ((stream.drop p.pos).take (pos - p.pos)) = [] := by
  have hrest : stream.drop pos = (stream.drop p.pos).drop (pos - p.pos) := by
    rw [List.drop_drop]
    congr 1
    omega
  have hsplit : owned p.key (stream.drop p.pos) =
      owned p.key ((stream.drop p.pos).take (pos - p.pos)) ++ owned p.key (stream.drop pos) := by
    rw [hrest, ← owned_append, List.take_append_drop]
  rw [faithful_reading_iff hphase] at h
  rw [faithful_moved_iff hphase, ← h, hsplit]
  exact append_append_eq_iff

theorem faithful_streamEnd {p : Pump Data} {stream : List (Option (StreamEvent Data))}
    (h : Faithful p stream) (hphase : p.phase = .reading) (hpos : p.pos = stream.length) :
    Faithful { p with phase := .exited } stream := by
  rw [faithful_exited_iff rfl]
  rw [faithful_reading_iff hphase, hpos, List.drop_length, owned, List.filterMap_nil,
    List.append_nil] at h
  exact h

/-- A round keeps the channel faithful exactly where an event of the key finds a receiver, and one
    that is mistaken for it ends a pump with nothing of its key to come. -/
theorem faithful_round_iff {p : Pump Data} {stream : List (Option (StreamEvent Data))}
    (h : Faithful p stream) (hphase : p.phase = .reading) {item : Option (StreamEvent Data)}
    (hget : stream[p.pos]? = some item) (r : ℕ) :
    Faithful (round p r item) stream ↔ ∀ event, item = some event →
      Belongs p.key event ∧ r ≠ 0 ∨ ¬ Belongs p.key event ∧ (Mistaken p.key event →
        r = 0 ∧ owned p.key (stream.drop p.pos) = []) := by
  obtain ⟨hlt, hitem⟩ := List.getElem?_eq_some_iff.mp hget
  have hdrop : stream.drop p.pos = item :: stream.drop (p.pos + 1) := by
    rw [List.drop_eq_getElem_cons hlt, hitem]
  rw [faithful_reading_iff hphase] at h
  -- an item that is nothing to the key is read
  have hskip : own p.key item = none → Faithful { p with pos := p.pos + 1 } stream := by
    intro hown
    rw [faithful_moved_iff hphase, ← h, hdrop, owned_cons_none hown]
  cases item with
  | none => exact iff_of_true (hskip rfl) fun event he => nomatch he
  | some event =>
    have hone : (∀ event', some event = some event' →
        Belongs p.key event' ∧ r ≠ 0 ∨ ¬ Belongs p.key event' ∧ (Mistaken p.key event' →
          r = 0 ∧ owned p.key (stream.drop p.pos) = [])) ↔
        (Belongs p.key event ∧ r ≠ 0 ∨ ¬ Belongs p.key event ∧ (Mistaken p.key event →
          r = 0 ∧ owned p.key (stream.drop p.pos) = [])) := by
      simp only [Option.some.injEq, forall_eq']
    rw [hone]
    by_cases hbel : Belongs p.key event
    · have hown := own_of_belongs hbel
      by_cases hr : r = 0
      · subst hr
        rw [round_of_deaf (forwards_of_belongs hbel), faithful_exited_iff rfl]
        refine iff_of_false ?_ (by simp [hbel])
        show p.sent ≠ owned p.key (stream.drop p.since)
        rw [← h, hdrop, owned_cons_some hown]
        simp
      · rw [round_of_send (forwards_of_belongs hbel) hr]
        refine iff_of_true ?_ (Or.inl ⟨hbel, hr⟩)
        rw [faithful_moved_iff hphase, ← h, hdrop, owned_cons_some hown]
        simp
    · have hown := own_of_not_belongs hbel
      cases hfe : forwards p.key event with
      | none =>
        have hmis : ¬ Mistaken p.key event := by
          rw [← forwards_isSome_iff hbel, hfe]
          exact Bool.false_ne_true
        rw [round_of_skip hfe]
        exact iff_of_true (hskip hown) (Or.inr ⟨hbel, fun hm => absurd hm hmis⟩)
      | some fe =>
        have hmis : Mistaken p.key event := by
          rw [← forwards_isSome_iff hbel, hfe]
          rfl
        by_cases hr : r = 0
        · subst hr
          rw [round_of_deaf hfe, faithful_exited_iff rfl]
          show p.sent = owned p.key (stream.drop p.since) ↔ _
          rw [← h]
          simp [hbel, hmis]
        · rw [round_of_send hfe hr, faithful_moved_iff hphase]
          refine iff_of_false ?_ (by simp [hbel, hmis, hr])
          show (p.sent ++ [fe]) ++ owned p.key (stream.drop (p.pos + 1)) ≠
            owned p.key (stream.drop p.since)
          rw [← h, hdrop, owned_cons_none hown]
          simp

/-- An event that comes is still to be read, unless the pump has returned. -/
theorem faithful_emit_iff {p : Pump Data} {stream : List (Option (StreamEvent Data))}
    (h : Faithful p stream) (hsince : p.since ≤ stream.length) (hpos : p.pos ≤ stream.length)
    (item : Option (StreamEvent Data)) :
    Faithful p (stream ++ [item]) ↔ (p.phase = .exited → own p.key item = none) := by
  have hdue : owned p.key ((stream ++ [item]).drop p.since) =
      owned p.key (stream.drop p.since) ++ owned p.key [item] := by
    rw [List.drop_append_of_le_length hsince, owned_append]
  cases hphase : p.phase with
  | spawned =>
    refine iff_of_true ?_ fun he => nomatch he
    rw [Faithful, unread, hphase] at h ⊢
    show p.sent ++ owned p.key ((stream ++ [item]).drop p.since) = _
    rw [hdue, ← List.append_assoc, h]
  | reading =>
    refine iff_of_true ?_ fun he => nomatch he
    rw [faithful_reading_iff hphase] at h ⊢
    rw [hdue, List.drop_append_of_le_length hpos, owned_append, ← List.append_assoc, h]
  | exited =>
    rw [faithful_exited_iff hphase] at h ⊢
    rw [hdue, h, List.self_eq_append_right]
    cases hown : own p.key item with
    | none => exact iff_of_true (owned_cons_none hown []) fun _ => rfl
    | some fe =>
      rw [owned_cons_some hown]
      exact iff_of_false (List.cons_ne_nil _ _) fun he => nomatch he rfl

/-! ### Steps of the feed -/

theorem Within.setPump (h : s.Within) {i : ℕ} {p p' : Pump Data} (hws : p'.ws = p.ws)
    (hp : s.pumps i = some p) (hsince : p'.since = p.since)
    (hpos : p'.pos ≤ (s.streams p.ws).length) : (s.setPump i p').Within := by
  intro j q hq
  rcases update_eq_some hq with ⟨rfl, hsome⟩ | ⟨-, hold⟩
  · obtain rfl := Option.some.inj hsome
    rw [hws, hsince]
    exact ⟨(h j p hp).1, hpos⟩
  · exact h j q hold

theorem pumpStep_pos_le {p p' : Pump Data} {r : ℕ} {stream : List (Option (StreamEvent Data))}
    {a : Action Data} (h : pumpStep p r stream a = some p') (hpos : p.pos ≤ stream.length) :
    p'.pos ≤ stream.length := by
  obtain ⟨i, -, -, rfl⟩ | ⟨i, item, -, -, hget, rfl⟩ | ⟨i, pos, -, -, -, hle, rfl⟩ |
    ⟨i, -, -, -, rfl⟩ := pumpStep_cases h
  · exact Nat.le_refl _
  · rw [(round_frame p r item).2.2.2]
    exact (List.getElem?_eq_some_iff.mp hget).1
  · exact hle
  · exact hpos

theorem Within.ofPump (h : s.Within) (i : ℕ) (a : Action Data) : (s.ofPump i a).Within := by
  obtain ⟨heq, -⟩ | ⟨p, p', hp, hstep, heq⟩ := ofPump_cases s i a
  · rw [heq]
    exact h
  · obtain ⟨-, hws, hsince⟩ := pumpStep_frame hstep
    rw [heq]
    exact h.setPump hws hp hsince (pumpStep_pos_le hstep (h i p hp).2)

theorem Within.step (h : s.Within) (a : Action Data) : (s.step a).Within := by
  cases a with
  | subscribe key ws =>
    show (s.subscribe key ws).Within
    cases hkey : s.upstreams key with
    | some i =>
      rw [subscribe_of_entry hkey]
      exact h
    | none =>
      cases ws with
      | none =>
        rw [subscribe_of_refused hkey]
        exact h
      | some ws =>
        rw [subscribe_of_new hkey]
        intro i p hp
        rcases update_eq_some hp with ⟨-, hsome⟩ | ⟨-, hold⟩
        · obtain rfl := Option.some.inj hsome
          exact ⟨Nat.le_refl _, Nat.zero_le _⟩
        · exact h i p hold
  | dropHandle g =>
    show (s.dropHandle g).Within
    unfold dropHandle
    split <;> exact h
  | intoReceiver rx =>
    show (s.intoReceiver rx).Within
    unfold intoReceiver
    split <;> exact h
  | emit ws item =>
    intro i p hp
    obtain ⟨hsince, hpos⟩ := h i p hp
    show p.since ≤ (Function.update s.streams ws (s.streams ws ++ [item]) p.ws).length ∧
      p.pos ≤ (Function.update s.streams ws (s.streams ws ++ [item]) p.ws).length
    by_cases hws : p.ws = ws
    · subst hws
      rw [Function.update_self, List.length_append]
      exact ⟨Nat.le_add_right_of_le hsince, Nat.le_add_right_of_le hpos⟩
    · rw [Function.update_of_ne hws]
      exact ⟨hsince, hpos⟩
  | attach i => exact h.ofPump i _
  | poll i => exact h.ofPump i _
  | lag i pos => exact h.ofPump i _
  | streamEnd i => exact h.ofPump i _

/-- A step of one pump keeps the channels apart where it keeps its own faithful. -/
theorem isolated_ofPump (h : s.Isolated) (i : ℕ) (a : Action Data) :
    (s.ofPump i a).Isolated ↔ ∀ p p', s.pumps i = some p →
      pumpStep p (s.receivers i) (s.streams p.ws) a = some p' →
        Faithful p' (s.streams p.ws) := by
  obtain ⟨heq, hnone⟩ | ⟨p, p', hp, hstep, heq⟩ := ofPump_cases s i a
  · rw [heq]
    refine iff_of_true h fun p p' hp hstep => ?_
    cases (hnone p hp).symm.trans hstep
  · have hws := (pumpStep_frame hstep).2.1
    rw [heq]
    constructor
    · intro hall q q' hq hq'
      obtain rfl := Option.some.inj (hp.symm.trans hq)
      obtain rfl := Option.some.inj (hstep.symm.trans hq')
      rw [← hws]
      exact hall i p' (Function.update_self ..)
    · intro hall j q hq
      rcases update_eq_some hq with ⟨rfl, hsome⟩ | ⟨-, hold⟩
      · obtain rfl := Option.some.inj hsome
        show Faithful p' (s.streams p'.ws)
        rw [hws]
        exact hall p p' hp hstep
      · exact h j q hold

theorem Isolated.subscribe (h : s.Isolated) (key : StreamKey) (ws : Option ℕ) :
    (s.subscribe key ws).Isolated := by
  cases hkey : s.upstreams key with
  | some i =>
    rw [subscribe_of_entry hkey]
    exact h
  | none =>
    cases ws with
    | none =>
      rw [subscribe_of_refused hkey]
      exact h
    | some ws =>
      rw [subscribe_of_new hkey]
      intro i p hp
      rcases update_eq_some hp with ⟨-, hsome⟩ | ⟨-, hold⟩
      · obtain rfl := Option.some.inj hsome
        exact List.nil_append _
      · exact h i p hold

theorem isolated_emit_iff (hwithin : s.Within) (h : s.Isolated) (ws : ℕ)
    (item : Option (StreamEvent Data)) :
    (s.step (.emit ws item)).Isolated ↔ s.KeepsApart (.emit ws item) := by
  have hpump : ∀ i p, s.pumps i = some p →
      (Faithful p ((s.step (.emit ws item)).streams p.ws) ↔
        (p.ws = ws → p.phase = .exited → own p.key item = none)) := by
    intro i p hp
    show Faithful p (Function.update s.streams ws (s.streams ws ++ [item]) p.ws) ↔ _
    by_cases hws : p.ws = ws
    · subst hws
      rw [Function.update_self, faithful_emit_iff (h i p hp) (hwithin i p hp).1 (hwithin i p hp).2]
      exact ⟨fun hown _ => hown, fun hown => hown rfl⟩
    · rw [Function.update_of_ne hws]
      exact iff_of_true (h i p hp) fun he => absurd he hws
  exact forall₃_congr hpump

/-- **Step lemma.** -/
theorem isolated_step (hwithin : s.Within) (h : s.Isolated) (a : Action Data) :
    (s.step a).Isolated ↔ s.KeepsApart a := by
  cases a with
  | subscribe key ws => exact iff_of_true (h.subscribe key ws) trivial
  | dropHandle g =>
    refine iff_of_true ?_ trivial
    show (s.dropHandle g).Isolated
    unfold dropHandle
    split <;> exact h
  | intoReceiver rx =>
    refine iff_of_true ?_ trivial
    show (s.intoReceiver rx).Isolated
    unfold intoReceiver
    split <;> exact h
  | emit ws item => exact isolated_emit_iff hwithin h ws item
  | attach i =>
    refine (isolated_ofPump h i _).trans ⟨fun hall p hp hphase => ?_, fun hcond p p' hp hstep => ?_⟩
    · rw [← faithful_attach_iff (h i p hp) hphase]
      exact hall p _ hp (if_pos hphase)
    · obtain ⟨hphase, hp'⟩ := Option.ite_none_right_eq_some.mp hstep
      obtain rfl := Option.some.inj hp'
      rw [faithful_attach_iff (h i p hp) hphase]
      exact hcond p hp hphase
  | lag i pos =>
    refine (isolated_ofPump h i _).trans ⟨fun hall p hp hphase hlt hle => ?_,
      fun hcond p p' hp hstep => ?_⟩
    · rw [← faithful_lag_iff (h i p hp) hphase hlt]
      exact hall p _ hp (if_pos ⟨hphase, hlt, hle⟩)
    · obtain ⟨⟨hphase, hlt, hle⟩, hp'⟩ := Option.ite_none_right_eq_some.mp hstep
      obtain rfl := Option.some.inj hp'
      rw [faithful_lag_iff (h i p hp) hphase hlt]
      exact hcond p hp hphase hlt hle
  | poll i =>
    refine (isolated_ofPump h i _).trans ⟨fun hall p event hp hphase hget => ?_,
      fun hcond p p' hp hstep => ?_⟩
    · refine (faithful_round_iff (h i p hp) hphase hget (s.receivers i)).mp ?_ event rfl
      refine hall p _ hp ?_
      rw [pumpStep, if_pos hphase, hget]
      rfl
    · obtain ⟨hphase, hitem⟩ := Option.ite_none_right_eq_some.mp hstep
      obtain ⟨item, hget, rfl⟩ := Option.map_eq_some_iff.mp hitem
      rw [faithful_round_iff (h i p hp) hphase hget]
      rintro event rfl
      exact hcond p event hp hphase hget
  | streamEnd i =>
    refine iff_of_true ((isolated_ofPump h i _).mpr fun p p' hp hstep => ?_) trivial
    obtain ⟨⟨hphase, hpos⟩, hp'⟩ := Option.ite_none_right_eq_some.mp hstep
    obtain rfl := Option.some.inj hp'
    exact faithful_streamEnd (h i p hp) hphase hpos

/-! ## Runs -/

/-- **Main theorem.** All along a run every channel carries the events of its key, in order and each
    once, exactly when no step lets one pass by and no event is mistaken for one of the key. -/
theorem isolated_run (as : List (Action Data)) :
    (∀ pre, pre <+: as → (run pre).Isolated) ↔ StepsMeet step init KeepsApart as :=
  @forall_prefix_iff_of_invariant _ _ step init Within Isolated KeepsApart (fun _ _ h => nomatch h)
    (fun _ a h => h.step a) (fun _ _ h => nomatch h) (fun _ a hw h => isolated_step hw h a) as

/-- A subscriber of one-minute candles, on a connection that also carries others. -/
def twoIntervals : List (Action fun _ => Unit) :=
  [.subscribe ⟨.binance, .spot, "BTCUSDT", .kline "1m"⟩ (some 0), .attach 0,
    .emit 0 (some (.kline "ETHUSDT" ⟨"5m"⟩ ())), .poll 0]

/-- The candle of the other symbol and interval is sent under the symbol of the key. -/
theorem other_interval_delivered : ¬ ∀ as : List (Action fun _ => Unit), (run as).Isolated := by
  intro h
  have hsome : ((run twoIntervals).pumps 0).isSome = true := by decide
  obtain ⟨p, hp⟩ := Option.isSome_iff_exists.mp hsome
  have hsent : ((run twoIntervals).pumps 0).map (fun p => p.sent.length) = some 1 := by
    decide
  have hdue : ((run twoIntervals).pumps 0).map (fun p =>
      (owned p.key (((run twoIntervals).streams p.ws).drop p.since)).length) = some 0 := by
    decide
  rw [hp, Option.map_some, Option.some.injEq] at hsent hdue
  have hlen := congrArg List.length (h twoIntervals 0 p hp)
  rw [List.length_append, hsent, hdue] at hlen
  omega

end MarketFeed

end Digdigdig3.Feed
