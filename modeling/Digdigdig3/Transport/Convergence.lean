import Digdigdig3.Lib.SetUpdates
import Digdigdig3.Transport.Driver

/-!
# What the server is subscribed to

`active_subs` is replayed on every connection, and every command that changes it puts a frame in
the write queue of the connection at hand; the results of the sends are dropped.

* `Numbered`: frames stay on the connection they were built or read on.
* `Ledger`: the set is the effect of the commands taken.
* `Counted`: a connection subscribes to a spec no more often than the caller did.
* `Synced`: the frames sent and queued make the set, as long as the sends succeed.
-/

namespace Digdigdig3.Transport.DriverTask

open SetUpdate (replay Holds)

variable {cfgMaxAttempts : UInt32} {p : WsProtocol}

/-- What a frame does to the server's set. -/
def frameUpdate (frame : Tagged Frame) : SetUpdate StreamSpec :=
  match frame.val with
  | .subscribe spec => .insert spec
  | .unsubscribe spec => .remove spec
  | .other => .skip

/-- What a command does to `active_subs`. -/
def cmdUpdate : TransportCmd → SetUpdate StreamSpec
  | .subscribe spec => .insert spec
  | .unsubscribe spec => .remove spec
  | .connect | .shutdown => .skip

/-- The set that a list of frames makes. -/
def subscribed (frames : List (Tagged Frame)) : Finset StreamSpec :=
  replay ∅ (frames.map frameUpdate)

theorem subscribed_concat (frames : List (Tagged Frame)) (frame : Tagged Frame) :
    subscribed (frames ++ [frame]) = (frameUpdate frame).apply (subscribed frames) := by
  rw [subscribed, List.map_append, List.map_singleton, SetUpdate.replay_concat, subscribed]

/-! ## Frames and connections -/

/-- Every frame is on the connection it was made on, and connections to come hold nothing. -/
def Numbered (s : DriverTask) : Prop :=
  (∀ i, ∀ f ∈ s.wire i, f.madeOn = i) ∧ (∀ i, ∀ f ∈ s.writeQueue i, f.madeOn = i) ∧
  (∀ i, ∀ f ∈ s.readQueue i, f.madeOn = i) ∧ (∀ d ∈ s.dispatched, d.1 = d.2) ∧
  ∀ i, s.current < i → s.wire i = [] ∧ s.writeQueue i = []

/-- Updating a queue by frames of its own connection. -/
theorem forall_mem_update {α : Type} {queues : ℕ → List (Tagged α)} {i : ℕ}
    {queue : List (Tagged α)} (h : ∀ j, ∀ f ∈ queues j, f.madeOn = j)
    (hqueue : ∀ f ∈ queue, f.madeOn = i) :
    ∀ j, ∀ f ∈ Function.update queues i queue j, f.madeOn = j := by
  intro j f hf
  by_cases hj : j = i
  · subst hj
    rw [Function.update_self] at hf
    exact hqueue f hf
  · rw [Function.update_of_ne hj] at hf
    exact h j f hf

theorem forall_mem_concat {α : Type} {queue : List (Tagged α)} {i : ℕ} {f : Tagged α}
    (h : ∀ g ∈ queue, g.madeOn = i) (hf : f.madeOn = i) : ∀ g ∈ queue ++ [f], g.madeOn = i := by
  intro g hg
  rcases List.mem_append.mp hg with hg | hg
  · exact h g hg
  · rw [List.mem_singleton.mp hg, hf]

theorem numbered_carry {s : DriverTask} (h : Numbered s) {i : ℕ} {frame : Tagged Frame}
    (hi : i ≤ s.current) (hframe : frame.madeOn = i) : Numbered (s.carry i frame) := by
  obtain ⟨hwire, hwrite, hread, hdispatched, hfresh⟩ := h
  refine ⟨forall_mem_update hwire (forall_mem_concat (hwire i) hframe), hwrite, hread,
    hdispatched, fun j hj => ?_⟩
  refine ⟨?_, (hfresh j hj).2⟩
  show Function.update s.wire i _ j = []
  rw [Function.update_of_ne (Nat.ne_of_gt (lt_of_le_of_lt hi hj))]
  exact (hfresh j hj).1

theorem numbered_writeQueue {s : DriverTask} (h : Numbered s) {i : ℕ}
    {queue : List (Tagged Frame)} (hi : queue = [] ∨ i ≤ s.current)
    (hqueue : ∀ f ∈ queue, f.madeOn = i) :
    Numbered { s with writeQueue := Function.update s.writeQueue i queue } := by
  obtain ⟨hwire, hwrite, hread, hdispatched, hfresh⟩ := h
  refine ⟨hwire, forall_mem_update hwrite hqueue, hread, hdispatched, fun j hj => ?_⟩
  refine ⟨(hfresh j hj).1, ?_⟩
  show Function.update s.writeQueue i queue j = []
  by_cases hij : j = i
  · subst hij
    rw [Function.update_self]
    exact hi.resolve_right (Nat.not_le.mpr hj)
  · rw [Function.update_of_ne hij]
    exact (hfresh j hj).2

theorem numbered_enqueue {s : DriverTask} (h : Numbered s) (frame : Frame) :
    Numbered (s.enqueue frame) :=
  numbered_writeQueue h (Or.inr le_rfl) (forall_mem_concat (h.2.1 s.current) rfl)

theorem numbered_popRead {s : DriverTask} (h : Numbered s) {item : Tagged Incoming}
    {rest : List (Tagged Incoming)} (hqueue : s.readQueue s.current = item :: rest) :
    Numbered (s.popRead item rest) := by
  obtain ⟨hwire, hwrite, hread, hdispatched, hfresh⟩ := h
  have hitem : ∀ f ∈ item :: rest, f.madeOn = s.current := hqueue ▸ hread s.current
  refine ⟨hwire, hwrite,
    forall_mem_update hread fun f hf => hitem f (List.mem_cons_of_mem _ hf), ?_, hfresh⟩
  intro d hd
  rcases List.mem_append.mp hd with hd | hd
  · exact hdispatched d hd
  · rw [List.mem_singleton.mp hd]
    exact hitem item List.mem_cons_self

theorem numbered_left {s t : DriverTask} (hleft : Left s t) (h : Numbered s) : Numbered t := by
  cases hleft with
  | again => exact h
  | forGood => exact h

theorem numbered_obey {s : DriverTask} (h : Numbered s) (cmd : TransportCmd) :
    Numbered (s.obey p cmd) := by
  cases cmd with
  | connect => exact h
  | subscribe spec =>
    unfold obey
    dsimp only
    split_ifs
    · exact numbered_enqueue (s := { s with activeSubs := _ }) h _
    · exact h
  | unsubscribe spec =>
    unfold obey
    dsimp only
    split_ifs
    · exact numbered_enqueue (s := { s with activeSubs := _ }) h _
    · exact h
  | shutdown => exact h

/-- **Step lemma.** Frames stay on their connections. -/
theorem numbered_move {s t : DriverTask} {e : Event} (hmove : Move p s e t) (h : Numbered s) :
    Numbered t := by
  cases hmove with
  | connected _ =>
    obtain ⟨hwire, hwrite, hread, hdispatched, hfresh⟩ := h
    exact ⟨hwire, hwrite, hread, hdispatched, fun i hi => hfresh i (Nat.lt_of_succ_lt hi)⟩
  | acked => exact numbered_carry h le_rfl rfl
  | noAck => exact numbered_carry h le_rfl rfl
  | replayed => exact numbered_carry h le_rfl rfl
  | postConnected => exact numbered_carry h le_rfl rfl
  | received item rest _ hqueue => exact numbered_popRead h hqueue
  | replied item rest _ hqueue =>
    exact numbered_enqueue (s := { s.popRead item rest with worked := true, failedInARow := 0 })
      (numbered_popRead h hqueue) _
  | lost item rest t _ hqueue _ hleft => exact numbered_left hleft (numbered_popRead h hqueue)
  | silenced t _ hleft => exact numbered_left hleft h
  | abandoned t _ _ _ hleft => exact numbered_left hleft h
  | obeyed cmd rest => exact numbered_obey (s := s.popCmd cmd rest) h cmd
  | pinged => exact numbered_enqueue h _
  | read i item hi =>
    obtain ⟨hwire, hwrite, hread, hdispatched, hfresh⟩ := h
    exact ⟨hwire, hwrite, forall_mem_update hread (forall_mem_concat (hread i) rfl), hdispatched,
      hfresh⟩
  | written i frame rest hqueue =>
    have hitem : ∀ f ∈ frame :: rest, f.madeOn = i := hqueue ▸ h.2.1 i
    have hi : i ≤ s.current := by
      by_contra hlt
      rw [(h.2.2.2.2 i (Nat.not_le.mp hlt)).2] at hqueue
      exact absurd hqueue (by simp)
    exact numbered_carry
      (numbered_writeQueue h (Or.inr hi) fun f hf => hitem f (List.mem_cons_of_mem _ hf)) hi
      (hitem frame List.mem_cons_self)
  | writeFailed i frame rest hqueue =>
    have hitem : ∀ f ∈ frame :: rest, f.madeOn = i := hqueue ▸ h.2.1 i
    have hi : i ≤ s.current := by
      by_contra hlt
      rw [(h.2.2.2.2 i (Nat.not_le.mp hlt)).2] at hqueue
      exact absurd hqueue (by simp)
    exact numbered_writeQueue h (Or.inr hi) fun f hf => hitem f (List.mem_cons_of_mem _ hf)
  | writerEnded i => exact numbered_writeQueue h (Or.inl rfl) fun f hf => absurd hf (by simp)
  | _ => exact h

/-! ## Commands -/

/-- `active_subs` is the effect of the commands taken, they come before those still queued, and
    every queued subscription has a frame. -/
def Ledger (p : WsProtocol) (s : DriverTask) : Prop :=
  s.activeSubs = replay ∅ (s.taken.map cmdUpdate) ∧ s.accepted = s.taken ++ s.cmds ∧
  ∀ spec, TransportCmd.subscribe spec ∈ s.accepted → p.subscribeFrame spec = true

theorem ledger_left {s t : DriverTask} (hleft : Left s t) (h : Ledger p s) : Ledger p t := by
  cases hleft with
  | again => exact h
  | forGood => exact h

theorem obey_eq (s : DriverTask) (cmd : TransportCmd) :
    (s.obey p cmd).activeSubs = (cmdUpdate cmd).apply s.activeSubs ∧
      (s.obey p cmd).taken = s.taken ∧ (s.obey p cmd).cmds = s.cmds ∧
      (s.obey p cmd).accepted = s.accepted := by
  cases cmd with
  | connect => exact ⟨rfl, rfl, rfl, rfl⟩
  | subscribe spec =>
    unfold obey
    dsimp only
    split_ifs <;> exact ⟨rfl, rfl, rfl, rfl⟩
  | unsubscribe spec =>
    unfold obey
    dsimp only
    split_ifs <;> exact ⟨rfl, rfl, rfl, rfl⟩
  | shutdown => exact ⟨rfl, rfl, rfl, rfl⟩

/-- **Step lemma.** The set follows the commands. -/
theorem ledger_move {s t : DriverTask} {e : Event} (hmove : Move p s e t) (h : Ledger p s) :
    Ledger p t := by
  cases hmove with
  | queued cmd _ hprobe =>
    obtain ⟨hactive, horder, hprobed⟩ := h
    refine ⟨hactive, ?_, fun spec hspec => ?_⟩
    · show s.accepted ++ [cmd] = s.taken ++ (s.cmds ++ [cmd])
      rw [horder, List.append_assoc]
    · rcases List.mem_append.mp hspec with hspec | hspec
      · exact hprobed spec hspec
      · rw [← List.mem_singleton.mp hspec] at hprobe
        exact hprobe
  | obeyed cmd rest _ hcmds =>
    obtain ⟨hactive, horder, hprobed⟩ := h
    obtain ⟨hset, htaken, hrest, haccepted⟩ := obey_eq (p := p) (s.popCmd cmd rest) cmd
    refine ⟨?_, ?_, ?_⟩
    · rw [hset, htaken]
      show SetUpdate.apply s.activeSubs (cmdUpdate cmd) = replay ∅ ((s.taken ++ [cmd]).map _)
      rw [List.map_append, List.map_singleton, SetUpdate.replay_concat, ← hactive]
    · rw [haccepted, htaken, hrest]
      show s.accepted = s.taken ++ [cmd] ++ rest
      rw [horder, hcmds, List.append_assoc, List.singleton_append]
    · rw [haccepted]
      exact hprobed
  | lost item rest t _ _ _ hleft => exact ledger_left hleft h
  | silenced t _ hleft => exact ledger_left hleft h
  | abandoned t _ _ _ hleft => exact ledger_left hleft h
  | _ => exact h

/-- A spec of the set was subscribed to by a command taken. -/
theorem subscribe_mem_taken {s : DriverTask} (h : Ledger p s) {spec : StreamSpec}
    (hspec : spec ∈ s.activeSubs) : TransportCmd.subscribe spec ∈ s.taken := by
  rw [h.1] at hspec
  obtain ⟨cmd, hcmd, hupdate⟩ := List.mem_map.mp (SetUpdate.insert_mem_of_mem_replay hspec)
  cases cmd with
  | subscribe other =>
    cases hupdate
    exact hcmd
  | _ => exact nomatch hupdate

theorem subscribeFrame_of_mem {s : DriverTask} (h : Ledger p s) {spec : StreamSpec}
    (hspec : spec ∈ s.activeSubs) : p.subscribeFrame spec = true := by
  apply h.2.2 spec
  rw [h.2.1]
  exact List.mem_append_left _ (subscribe_mem_taken h hspec)

/-! ## Traffic of a connection -/

/-- What a connection has carried, and what is queued for it. -/
def traffic (s : DriverTask) (i : ℕ) : List (Tagged Frame) := s.wire i ++ s.writeQueue i

/-- How often a list of frames subscribes to a spec. -/
def subscribes (frames : List (Tagged Frame)) (spec : StreamSpec) : ℕ :=
  frames.countP fun f => f.val = .subscribe spec

theorem subscribes_append (frames more : List (Tagged Frame)) (spec : StreamSpec) :
    subscribes (frames ++ more) spec = subscribes frames spec + subscribes more spec :=
  List.countP_append

theorem subscribes_singleton (frame : Tagged Frame) (spec : StreamSpec) :
    subscribes [frame] spec = if frame.val = .subscribe spec then 1 else 0 := by
  simp [subscribes, List.countP_singleton]

theorem traffic_send (s : DriverTask) (frame : Frame) (i : ℕ) (spec : StreamSpec) :
    subscribes ((s.send frame).traffic i) spec =
      subscribes (s.traffic i) spec +
        if i = s.current ∧ frame = .subscribe spec then 1 else 0 := by
  show subscribes (Function.update s.wire s.current _ i ++ s.writeQueue i) spec = _
  by_cases hi : i = s.current
  · subst hi
    rw [Function.update_self, subscribes_append, subscribes_append, subscribes_singleton, traffic,
      subscribes_append]
    simp only [true_and]
    omega
  · rw [Function.update_of_ne hi, if_neg fun h => hi h.1]
    rfl

theorem traffic_enqueue (s : DriverTask) (frame : Frame) (i : ℕ) :
    (s.enqueue frame).traffic i =
      if i = s.current then s.traffic i ++ [{ madeOn := i, val := frame }] else s.traffic i := by
  show s.wire i ++ Function.update s.writeQueue s.current _ i = _
  by_cases hi : i = s.current
  · subst hi
    rw [Function.update_self, if_pos rfl, ← List.append_assoc]
    rfl
  · rw [Function.update_of_ne hi, if_neg hi]
    rfl

theorem subscribes_enqueue (s : DriverTask) (frame : Frame) (i : ℕ) (spec : StreamSpec) :
    subscribes ((s.enqueue frame).traffic i) spec =
      subscribes (s.traffic i) spec +
        if i = s.current ∧ frame = .subscribe spec then 1 else 0 := by
  rw [traffic_enqueue]
  by_cases hi : i = s.current
  · rw [if_pos hi, subscribes_append, subscribes_singleton]
    simp only [hi, true_and]
  · rw [if_neg hi, if_neg fun h => hi h.1]
    rfl

/-- The write task moves its frame from the queue to the wire. -/
theorem traffic_written {s : DriverTask} {i : ℕ} {frame : Tagged Frame}
    {rest : List (Tagged Frame)} (hqueue : s.writeQueue i = frame :: rest) (j : ℕ) :
    ({ s with writeQueue := Function.update s.writeQueue i rest }.carry i frame).traffic j =
      s.traffic j := by
  show Function.update s.wire i _ j ++ Function.update s.writeQueue i rest j = _
  by_cases hj : j = i
  · subst hj
    rw [Function.update_self, Function.update_self, traffic, hqueue, List.append_assoc]
    rfl
  · rw [Function.update_of_ne hj, Function.update_of_ne hj]
    rfl

/-- Frames dropped from a queue. -/
theorem traffic_writeQueue_sublist (s : DriverTask) {i : ℕ} {queue : List (Tagged Frame)}
    (hqueue : queue.Sublist (s.writeQueue i)) (j : ℕ) :
    (traffic { s with writeQueue := Function.update s.writeQueue i queue } j).Sublist
      (s.traffic j) := by
  show (s.wire j ++ Function.update s.writeQueue i queue j).Sublist _
  by_cases hj : j = i
  · subst hj
    rw [Function.update_self]
    exact List.Sublist.append_left hqueue _
  · rw [Function.update_of_ne hj]
    exact List.Sublist.refl _

theorem subscribes_le_of_sublist {frames more : List (Tagged Frame)} (h : frames.Sublist more)
    (spec : StreamSpec) : subscribes frames spec ≤ subscribes more spec :=
  h.countP_le

/-! ## How often a connection subscribes -/

/-- Specs still to be replayed are of the set, and not yet subscribed to. -/
def ReplayOnce (s : DriverTask) : Prop :=
  (s.phase = .handshake → s.wire s.current = [] ∧ s.writeQueue s.current = []) ∧
  ∀ todo, s.phase = .replay todo → todo.Nodup ∧
    ∀ spec ∈ todo, spec ∈ s.activeSubs ∧ subscribes (s.traffic s.current) spec = 0

/-- A connection subscribes to a spec no more often than the caller did. -/
def Counted (s : DriverTask) : Prop :=
  (∀ i spec, subscribes (s.traffic i) spec ≤ s.taken.count (.subscribe spec)) ∧ ReplayOnce s

theorem replayOnce_of_phase {s : DriverTask} (hhandshake : s.phase ≠ .handshake)
    (hreplay : ∀ todo, s.phase ≠ .replay todo) : ReplayOnce s :=
  ⟨fun h => absurd h hhandshake, fun todo h => absurd h (hreplay todo)⟩

theorem other_ne_subscribe (spec : StreamSpec) : Frame.other ≠ .subscribe spec := by
  intro h
  cases h

/-- Sending or queueing a frame that subscribes to nothing. -/
theorem le_of_traffic_eq {s t : DriverTask} {frame : Frame} {i : ℕ}
    (htraffic : ∀ j spec, subscribes (t.traffic j) spec =
      subscribes (s.traffic j) spec + if j = i ∧ frame = .subscribe spec then 1 else 0)
    (hframe : ∀ spec, frame ≠ .subscribe spec) (j : ℕ) (spec : StreamSpec) :
    subscribes (t.traffic j) spec = subscribes (s.traffic j) spec := by
  rw [htraffic, if_neg fun h => hframe spec h.2, Nat.add_zero]

theorem counted_left {s t : DriverTask} (hleft : Left s t) (h : Counted s) : Counted t := by
  cases hleft with
  | again => exact ⟨h.1, replayOnce_of_phase nofun nofun⟩
  | forGood => exact ⟨h.1, replayOnce_of_phase nofun nofun⟩

theorem count_concat_of_ne {taken : List TransportCmd} {cmd : TransportCmd} {spec : StreamSpec} :
    taken.count (.subscribe spec) ≤ (taken ++ [cmd]).count (.subscribe spec) := by
  rw [List.count_append]
  exact Nat.le_add_right _ _

theorem counted_obey {s : DriverTask} (h : Counted s) (hphase : s.phase = .messageLoop)
    (cmd : TransportCmd) (rest : List TransportCmd) :
    Counted ((s.popCmd cmd rest).obey p cmd) := by
  have hpopped : ∀ i spec, subscribes ((s.popCmd cmd rest).traffic i) spec ≤
      (s.taken ++ [cmd]).count (.subscribe spec) :=
    fun i spec => (h.1 i spec).trans count_concat_of_ne
  have honce : ∀ t : DriverTask, t.phase = .messageLoop → ReplayOnce t := by
    intro t ht
    apply replayOnce_of_phase
    · rw [ht]
      exact nofun
    · rw [ht]
      exact nofun
  cases cmd with
  | connect => exact ⟨hpopped, honce _ hphase⟩
  | subscribe spec =>
    unfold obey
    dsimp only
    split_ifs
    · refine ⟨fun i other => ?_, honce _ hphase⟩
      show subscribes (traffic (enqueue { s.popCmd (.subscribe spec) rest with activeSubs := _ }
        (.subscribe spec)) i) other ≤
          (s.taken ++ [TransportCmd.subscribe spec]).count (TransportCmd.subscribe other)
      rw [subscribes_enqueue, List.count_append, List.count_singleton]
      refine Nat.add_le_add (h.1 i other) ?_
      by_cases hspec : spec = other
      · subst hspec
        simp only [and_true, BEq.rfl, if_true]
        split_ifs
        · exact le_rfl
        · exact Nat.zero_le _
      · rw [if_neg fun hboth => hspec (Frame.subscribe.inj hboth.2)]
        exact Nat.zero_le _
    · exact ⟨hpopped, honce _ hphase⟩
  | unsubscribe spec =>
    unfold obey
    dsimp only
    split_ifs
    · refine ⟨fun i other => ?_, honce _ hphase⟩
      show subscribes (traffic (enqueue { s.popCmd (.unsubscribe spec) rest with activeSubs := _ }
        (.unsubscribe spec)) i) other ≤ _
      rw [subscribes_enqueue, if_neg fun hboth => nomatch hboth.2]
      exact hpopped i other
    · exact ⟨hpopped, honce _ hphase⟩
  | shutdown => exact ⟨hpopped, replayOnce_of_phase nofun nofun⟩

/-- The invariant where the phase does not matter. -/
theorem replayOnce_of_traffic_le {s t : DriverTask} (h : ReplayOnce s) (hphase : t.phase = s.phase)
    (hactive : t.activeSubs = s.activeSubs) (hcurrent : t.current = s.current)
    (hempty : s.wire s.current = [] ∧ s.writeQueue s.current = [] →
      t.wire s.current = [] ∧ t.writeQueue s.current = [])
    (htraffic : ∀ spec, subscribes (t.traffic s.current) spec ≤
      subscribes (s.traffic s.current) spec) : ReplayOnce t := by
  refine ⟨fun hhandshake => ?_, fun todo htodo => ?_⟩
  · rw [hcurrent]
    exact hempty (h.1 (hphase ▸ hhandshake))
  · obtain ⟨hnodup, hspecs⟩ := h.2 todo (hphase ▸ htodo)
    refine ⟨hnodup, fun spec hspec => ?_⟩
    rw [hactive, hcurrent]
    refine ⟨(hspecs spec hspec).1, Nat.le_zero.mp ?_⟩
    rw [← (hspecs spec hspec).2]
    exact htraffic spec

theorem counted_writeQueue {s : DriverTask} (h : Counted s) {i : ℕ} {queue : List (Tagged Frame)}
    (hqueue : queue.Sublist (s.writeQueue i)) :
    Counted { s with writeQueue := Function.update s.writeQueue i queue } := by
  have htraffic : ∀ j spec,
      subscribes (traffic { s with writeQueue := Function.update s.writeQueue i queue } j) spec ≤
        subscribes (s.traffic j) spec :=
    fun j spec => subscribes_le_of_sublist (traffic_writeQueue_sublist s hqueue j) spec
  refine ⟨fun j spec => (htraffic j spec).trans (h.1 j spec),
    replayOnce_of_traffic_le h.2 rfl rfl rfl ?_ (htraffic s.current)⟩
  rintro ⟨hwire, hempty⟩
  refine ⟨hwire, ?_⟩
  show Function.update s.writeQueue i queue s.current = []
  by_cases hi : s.current = i
  · subst hi
    rw [Function.update_self]
    rw [hempty] at hqueue
    exact List.eq_nil_of_sublist_nil hqueue
  · rw [Function.update_of_ne hi]
    exact hempty

/-- **Step lemma.** No spec is subscribed to twice unless the caller did. -/
theorem counted_move {s t : DriverTask} {e : Event} (hmove : Move p s e t) (hnumbered : Numbered s)
    (hledger : Ledger p s) (h : Counted s) : Counted t := by
  have hother : ∀ i spec, subscribes ((s.send .other).traffic i) spec =
      subscribes (s.traffic i) spec :=
    le_of_traffic_eq (traffic_send s .other) other_ne_subscribe
  cases hmove with
  | queued => exact ⟨h.1, h.2⟩
  | dropped => exact ⟨h.1, h.2⟩
  | began => exact ⟨h.1, replayOnce_of_phase nofun nofun⟩
  | hooked => exact ⟨h.1, replayOnce_of_phase nofun nofun⟩
  | hookFailed => exact ⟨h.1, replayOnce_of_phase nofun nofun⟩
  | connected =>
    exact ⟨h.1, fun _ => hnumbered.2.2.2.2 _ (Nat.lt_succ_self _),
      fun todo hphase => nomatch hphase⟩
  | connectFailed => exact ⟨h.1, replayOnce_of_phase nofun nofun⟩
  | authNotNeeded order hphase hnodup hset =>
    refine ⟨h.1, nofun, fun todo htodo => ?_⟩
    cases htodo
    refine ⟨hnodup, fun spec hspec => ⟨hset ▸ List.mem_toFinset.mpr hspec, ?_⟩⟩
    obtain ⟨hwire, hqueue⟩ := h.2.1 hphase
    show subscribes (s.wire s.current ++ s.writeQueue s.current) spec = 0
    rw [hwire, hqueue]
    rfl
  | acked order hphase hnodup hset =>
    refine ⟨fun i spec => (hother i spec).trans_le (h.1 i spec), nofun, fun todo htodo => ?_⟩
    cases htodo
    refine ⟨hnodup, fun spec hspec => ⟨hset ▸ List.mem_toFinset.mpr hspec, ?_⟩⟩
    obtain ⟨hwire, hqueue⟩ := h.2.1 hphase
    refine (hother s.current spec).trans ?_
    rw [traffic, hwire, hqueue]
    rfl
  | noAck =>
    exact ⟨fun i spec => (hother i spec).trans_le (h.1 i spec), replayOnce_of_phase nofun nofun⟩
  | authFailed => exact ⟨h.1, replayOnce_of_phase nofun nofun⟩
  | replayed spec todo hphase =>
    obtain ⟨hnodup, hspecs⟩ := h.2.2 _ hphase
    obtain ⟨hnot, hnodup⟩ := List.nodup_cons.mp hnodup
    obtain ⟨hactive, hzero⟩ := hspecs spec List.mem_cons_self
    refine ⟨fun i other => ?_, nofun, fun todo' htodo => ?_⟩
    · refine (traffic_send s (.subscribe spec) i other).trans_le ?_
      split_ifs with hboth
      · obtain ⟨rfl, hspec⟩ := hboth
        cases hspec
        rw [hzero]
        exact List.count_pos_iff.mpr (subscribe_mem_taken hledger hactive)
      · exact h.1 i other
    · cases htodo
      refine ⟨hnodup, fun other hother' => ?_⟩
      obtain ⟨hactive', hzero'⟩ := hspecs other (List.mem_cons_of_mem _ hother')
      refine ⟨hactive', ?_⟩
      have hne : ¬ (s.current = s.current ∧ Frame.subscribe spec = .subscribe other) := by
        rintro ⟨-, heq⟩
        cases heq
        exact hnot hother'
      refine (traffic_send s (.subscribe spec) s.current other).trans ?_
      rw [if_neg hne, hzero']
  | replayFailed spec todo ok hphase =>
    refine ⟨h.1, nofun, fun todo' htodo => ?_⟩
    cases htodo
    obtain ⟨hnodup, hspecs⟩ := h.2.2 _ hphase
    exact ⟨(List.nodup_cons.mp hnodup).2, fun other hother' =>
      hspecs other (List.mem_cons_of_mem _ hother')⟩
  | replayDone => exact ⟨h.1, replayOnce_of_phase nofun nofun⟩
  | postConnected =>
    exact ⟨fun i spec => (hother i spec).trans_le (h.1 i spec), replayOnce_of_phase nofun nofun⟩
  | postConnectFailed => exact ⟨h.1, replayOnce_of_phase nofun nofun⟩
  | entered => exact ⟨h.1, replayOnce_of_phase nofun nofun⟩
  | received => exact ⟨h.1, h.2⟩
  | replied item rest hphase =>
    have htraffic := le_of_traffic_eq
      (subscribes_enqueue { s.popRead item rest with worked := true, failedInARow := 0 } .other)
      other_ne_subscribe
    refine ⟨fun i spec => (htraffic i spec).trans_le (h.1 i spec), ?_⟩
    refine replayOnce_of_phase ?_ fun todo => ?_
    · show s.phase ≠ _
      rw [hphase]
      exact nofun
    · show s.phase ≠ _
      rw [hphase]
      exact nofun
  | lost item rest t _ _ _ hleft => exact counted_left hleft ⟨h.1, h.2⟩
  | silenced t _ hleft => exact counted_left hleft ⟨h.1, h.2⟩
  | obeyed cmd rest hphase => exact counted_obey h hphase cmd rest
  | abandoned t _ _ _ hleft => exact counted_left hleft h
  | pinged hphase =>
    have htraffic := le_of_traffic_eq (subscribes_enqueue s .other) other_ne_subscribe
    refine ⟨fun i spec => (htraffic i spec).trans_le (h.1 i spec), ?_⟩
    refine replayOnce_of_phase ?_ fun todo => ?_
    · show s.phase ≠ _
      rw [hphase]
      exact nofun
    · show s.phase ≠ _
      rw [hphase]
      exact nofun
  | read => exact ⟨h.1, h.2⟩
  | written i frame rest hqueue =>
    have htraffic := traffic_written (s := s) hqueue
    refine ⟨fun j spec => ?_, replayOnce_of_traffic_le h.2 rfl rfl rfl ?_ fun spec => ?_⟩
    · rw [htraffic j]
      exact h.1 j spec
    · rintro ⟨hwire, hempty⟩
      have hnil : s.traffic s.current = [] := by rw [traffic, hwire, hempty, List.append_nil]
      exact List.append_eq_nil_iff.mp ((htraffic s.current).trans hnil)
    · exact (congrArg (subscribes · spec) (htraffic s.current)).le
  | writeFailed i frame rest hqueue =>
    refine counted_writeQueue h ?_
    rw [hqueue]
    exact List.sublist_cons_self _ _
  | writerEnded i => exact counted_writeQueue h (List.nil_sublist _)

/-! ## The set on the wire -/

/-- A step whose sends on the connection at hand succeed, and whose unsubscriptions have a
    frame. -/
def Delivers (p : WsProtocol) (s : DriverTask) : Event → Prop
  | .replayNext ok => ∀ spec todo, s.phase = .replay (spec :: todo) → ok = true
  | .write i ok => s.phase = .messageLoop → i = s.current →
      ∀ frame rest, s.writeQueue i = frame :: rest → frame.val ≠ .other → ok = true
  | .command => s.phase = .messageLoop → ∀ spec rest, s.cmds = .unsubscribe spec :: rest →
      spec ∈ s.activeSubs → p.unsubscribeFrame spec = true
  | _ => True

/-- The replay makes the set, and in the message loop what is sent and queued makes it. -/
def Synced (s : DriverTask) : Prop :=
  (∀ todo, s.phase = .replay todo → s.writeQueue s.current = [] ∧
    subscribed (s.wire s.current) = s.activeSubs \ todo.toFinset) ∧
  (∀ left, s.phase = .postConnect left → s.writeQueue s.current = [] ∧
    subscribed (s.wire s.current) = s.activeSubs) ∧
  (s.phase = .messageLoop → subscribed (s.traffic s.current) = s.activeSubs)

theorem synced_of_phase {s : DriverTask} (hreplay : ∀ todo, s.phase ≠ .replay todo)
    (hpost : ∀ left, s.phase ≠ .postConnect left) (hloop : s.phase ≠ .messageLoop) : Synced s :=
  ⟨fun todo h => absurd h (hreplay todo), fun left h => absurd h (hpost left),
    fun h => absurd h hloop⟩

theorem synced_of_loop {s : DriverTask} (hphase : s.phase = .messageLoop)
    (h : subscribed (s.traffic s.current) = s.activeSubs) : Synced s := by
  refine ⟨fun todo htodo => ?_, fun left hleft => ?_, fun _ => h⟩
  · exact nomatch hphase.symm.trans htodo
  · exact nomatch hphase.symm.trans hleft

theorem synced_left {s t : DriverTask} (hleft : Left s t) : Synced t := by
  cases hleft with
  | again => exact synced_of_phase nofun nofun nofun
  | forGood => exact synced_of_phase nofun nofun nofun

/-- A frame queued in the loop updates the set that the traffic makes. -/
theorem subscribed_enqueue (s : DriverTask) (frame : Frame) :
    subscribed ((s.enqueue frame).traffic s.current) =
      (frameUpdate { madeOn := s.current, val := frame }).apply
        (subscribed (s.traffic s.current)) := by
  rw [traffic_enqueue, if_pos rfl, subscribed_concat]

theorem wire_send (s : DriverTask) (frame : Frame) :
    (s.send frame).wire s.current = s.wire s.current ++ [{ madeOn := s.current, val := frame }] :=
  Function.update_self _ _ _

theorem subscribed_send (s : DriverTask) (frame : Frame) :
    subscribed ((s.send frame).wire s.current) =
      (frameUpdate { madeOn := s.current, val := frame }).apply
        (subscribed (s.wire s.current)) := by
  rw [wire_send, subscribed_concat]

/-- A frame that is about no spec may be lost. -/
theorem subscribed_drop_other {frames rest : List (Tagged Frame)} {frame : Tagged Frame}
    (h : frame.val = .other) :
    subscribed (frames ++ rest) = subscribed (frames ++ frame :: rest) := by
  have hskip : frameUpdate frame = .skip := by rw [frameUpdate, h]
  rw [subscribed, subscribed, List.map_append, List.map_append, List.map_cons, hskip,
    SetUpdate.replay_append, SetUpdate.replay_append]
  rfl

theorem synced_obey {s : DriverTask} {cmd : TransportCmd} {rest : List TransportCmd}
    (hphase : s.phase = .messageLoop) (h : subscribed (s.traffic s.current) = s.activeSubs)
    (hsubscribe : ∀ spec, cmd = .subscribe spec → p.subscribeFrame spec = true)
    (hunsubscribe : ∀ spec, cmd = .unsubscribe spec → spec ∈ s.activeSubs →
      p.unsubscribeFrame spec = true) : Synced ((s.popCmd cmd rest).obey p cmd) := by
  cases cmd with
  | connect => exact synced_of_loop hphase h
  | subscribe spec =>
    rw [obey, if_pos (hsubscribe spec rfl)]
    refine synced_of_loop hphase ?_
    refine (subscribed_enqueue _ (.subscribe spec)).trans ?_
    exact congrArg (insert spec) h
  | unsubscribe spec =>
    rw [obey]
    split_ifs with hframe
    · refine synced_of_loop hphase ?_
      refine (subscribed_enqueue _ (.unsubscribe spec)).trans ?_
      exact congrArg (Finset.erase · spec) h
    · refine synced_of_loop hphase (h.trans ?_)
      have hnot : spec ∉ s.activeSubs := fun hmem => hframe (hunsubscribe spec rfl hmem)
      exact (Finset.erase_eq_of_notMem hnot).symm
  | shutdown => exact synced_of_phase nofun nofun nofun

/-- A write task that leaves the connection at hand alone, or has nothing queued for it. -/
theorem synced_of_eq {s t : DriverTask} (h : Synced s) (hphase : t.phase = s.phase)
    (hactive : t.activeSubs = s.activeSubs) (hcurrent : t.current = s.current)
    (hwire : s.writeQueue s.current = [] → t.wire s.current = s.wire s.current ∧
      t.writeQueue s.current = [])
    (hloop : s.phase = .messageLoop →
      subscribed (t.traffic s.current) = subscribed (s.traffic s.current)) : Synced t := by
  obtain ⟨hreplay, hpost, htraffic⟩ := h
  refine ⟨fun todo htodo => ?_, fun left hleft => ?_, fun ht => ?_⟩
  · obtain ⟨hqueue, hset⟩ := hreplay todo (hphase ▸ htodo)
    obtain ⟨hsame, hempty⟩ := hwire hqueue
    rw [hcurrent, hactive, hsame]
    exact ⟨hempty, hset⟩
  · obtain ⟨hqueue, hset⟩ := hpost left (hphase ▸ hleft)
    obtain ⟨hsame, hempty⟩ := hwire hqueue
    rw [hcurrent, hactive, hsame]
    exact ⟨hempty, hset⟩
  · have hs : s.phase = .messageLoop := hphase ▸ ht
    rw [hcurrent, hactive, hloop hs, htraffic hs]

/-- **Step lemma.** The frames make the set, as long as the sends succeed. -/
theorem synced_move {s t : DriverTask} {e : Event} (hmove : Move p s e t) (hledger : Ledger p s)
    (hcounted : Counted s) (hdelivers : Delivers p s e) (h : Synced s) : Synced t := by
  cases hmove with
  | queued => exact h
  | dropped => exact h
  | received => exact h
  | read => exact h
  | authNotNeeded order hphase _ hset =>
    obtain ⟨hwire, hqueue⟩ := hcounted.2.1 hphase
    refine ⟨fun todo htodo => ?_, nofun, nofun⟩
    cases htodo
    refine ⟨hqueue, ?_⟩
    show subscribed (s.wire s.current) = s.activeSubs \ order.toFinset
    rw [hwire, hset, sdiff_self]
    rfl
  | acked order hphase _ hset =>
    obtain ⟨hwire, hqueue⟩ := hcounted.2.1 hphase
    refine ⟨fun todo htodo => ?_, nofun, nofun⟩
    cases htodo
    refine ⟨hqueue, (subscribed_send s .other).trans ?_⟩
    show subscribed (s.wire s.current) = s.activeSubs \ order.toFinset
    rw [hwire, hset, sdiff_self]
    rfl
  | replayed spec todo hphase =>
    obtain ⟨hqueue, hset⟩ := h.1 _ hphase
    obtain ⟨hnodup, hspecs⟩ := hcounted.2.2 _ hphase
    refine ⟨fun todo' htodo => ?_, nofun, nofun⟩
    cases htodo
    refine ⟨hqueue, (subscribed_send s (.subscribe spec)).trans ?_⟩
    show insert spec (subscribed (s.wire s.current)) = s.activeSubs \ todo.toFinset
    have hnot : spec ∉ todo.toFinset :=
      fun hmem => (List.nodup_cons.mp hnodup).1 (List.mem_toFinset.mp hmem)
    have hmem : spec ∈ s.activeSubs \ todo.toFinset :=
      Finset.mem_sdiff.mpr ⟨(hspecs spec List.mem_cons_self).1, hnot⟩
    rw [hset, List.toFinset_cons, Finset.sdiff_insert, Finset.insert_erase hmem]
  | replayFailed spec todo ok hphase hfailed =>
    have hmem := ((hcounted.2.2 _ hphase).2 spec List.mem_cons_self).1
    exact absurd ⟨subscribeFrame_of_mem hledger hmem, hdelivers spec todo hphase⟩ hfailed
  | replayDone ok hphase =>
    obtain ⟨hqueue, hset⟩ := h.1 _ hphase
    exact ⟨nofun, fun _ _ => ⟨hqueue, hset.trans (Finset.sdiff_empty)⟩, nofun⟩
  | postConnected left hphase =>
    obtain ⟨hqueue, hset⟩ := h.2.1 _ hphase
    exact ⟨nofun, fun _ _ => ⟨hqueue, (subscribed_send s .other).trans hset⟩, nofun⟩
  | postConnectFailed left hphase => exact ⟨nofun, fun _ _ => h.2.1 _ hphase, nofun⟩
  | entered ok hphase =>
    obtain ⟨hqueue, hset⟩ := h.2.1 _ hphase
    refine synced_of_loop rfl ?_
    show subscribed (s.wire s.current ++ s.writeQueue s.current) = s.activeSubs
    rw [hqueue, List.append_nil, hset]
  | replied item rest hphase =>
    refine synced_of_loop hphase ?_
    exact (subscribed_enqueue { s.popRead item rest with worked := true, failedInARow := 0 }
      .other).trans (h.2.2 hphase)
  | pinged hphase =>
    exact synced_of_loop hphase ((subscribed_enqueue s .other).trans (h.2.2 hphase))
  | lost item rest t _ _ _ hleft => exact synced_left hleft
  | silenced t _ hleft => exact synced_left hleft
  | abandoned t _ _ _ hleft => exact synced_left hleft
  | obeyed cmd rest hphase hcmds =>
    refine synced_obey hphase (h.2.2 hphase) (fun spec hcmd => ?_) fun spec hcmd => ?_
    · refine hledger.2.2 spec ?_
      rw [hledger.2.1, hcmds, hcmd]
      exact List.mem_append_right _ List.mem_cons_self
    · exact hdelivers hphase spec rest (hcmd ▸ hcmds)
  | written i frame rest hqueue =>
    refine synced_of_eq h rfl rfl rfl (fun hempty => ?_) fun _ => ?_
    · have hi : s.current ≠ i := by
        rintro rfl
        exact nomatch hempty.symm.trans hqueue
      exact ⟨Function.update_of_ne hi _ _, (Function.update_of_ne hi _ _).trans hempty⟩
    · rw [traffic_written hqueue]
  | writeFailed i frame rest hqueue =>
    refine synced_of_eq h rfl rfl rfl (fun hempty => ?_) fun hphase => ?_
    · have hi : s.current ≠ i := by
        rintro rfl
        exact nomatch hempty.symm.trans hqueue
      exact ⟨rfl, (Function.update_of_ne hi _ _).trans hempty⟩
    · show subscribed (s.wire s.current ++ Function.update s.writeQueue i rest s.current) = _
      by_cases hi : s.current = i
      · have hother : frame.val = .other := by
          by_contra hne
          exact nomatch hdelivers hphase hi.symm frame rest hqueue hne
        subst hi
        rw [Function.update_self, traffic, hqueue]
        exact subscribed_drop_other hother
      · rw [Function.update_of_ne hi]
        rfl
  | writerEnded i hnot =>
    refine synced_of_eq h rfl rfl rfl (fun hempty => ⟨rfl, ?_⟩) fun hphase => ?_
    · show Function.update s.writeQueue i [] s.current = []
      by_cases hi : s.current = i
      · subst hi
        exact Function.update_self _ _ _
      · rw [Function.update_of_ne hi, hempty]
    · have hi : s.current ≠ i := fun hi => hnot ⟨hphase, hi.symm⟩
      show subscribed (s.wire s.current ++ Function.update s.writeQueue i [] s.current) = _
      rw [Function.update_of_ne hi]
      rfl
  | _ => exact synced_of_phase nofun nofun nofun

/-! ## Runs -/

/-- What the driver promises of the server's set. In the message loop, with nothing queued, the
    connection has carried a subscription for exactly the specs of `active_subs`, not followed by
    its end; these are the effect of the commands taken, the oldest of those accepted; no
    connection subscribes more often than the caller; no frame changes connections. -/
structure Converged (s : DriverTask) : Prop where
  wire_iff : s.phase = .messageLoop → s.writeQueue s.current = [] →
    ∀ spec, Holds ((s.wire s.current).map frameUpdate) spec ↔ spec ∈ s.activeSubs
  active_iff : ∀ spec, spec ∈ s.activeSubs ↔ Holds (s.taken.map cmdUpdate) spec
  accepted_eq : s.accepted = s.taken ++ s.cmds
  subscribes_le : ∀ i spec, subscribes (s.wire i) spec ≤ s.taken.count (.subscribe spec)
  madeOn_eq : ∀ i, ∀ f ∈ s.wire i, f.madeOn = i
  dispatched_eq : ∀ d ∈ s.dispatched, d.1 = d.2

theorem converged_of_invariants {s : DriverTask} (hnumbered : Numbered s) (hledger : Ledger p s)
    (hcounted : Counted s) (hsynced : Synced s) : Converged s where
  wire_iff hphase hqueue spec := by
    rw [← SetUpdate.mem_replay_iff, ← hsynced.2.2 hphase, traffic, hqueue, List.append_nil]
    rfl
  active_iff spec := by rw [hledger.1, SetUpdate.mem_replay_iff]
  accepted_eq := hledger.2.1
  subscribes_le i spec :=
    (subscribes_le_of_sublist (List.sublist_append_left _ _) spec).trans (hcounted.1 i spec)
  madeOn_eq := hnumbered.1
  dispatched_eq := hnumbered.2.2.2.1

/-- What holds of every run, whatever is lost. -/
def Sound (p : WsProtocol) (s : DriverTask) : Prop := Numbered s ∧ Ledger p s ∧ Counted s

theorem sound_new (p : WsProtocol) : Sound p new := by
  have hnumbered : Numbered new := by
    refine ⟨fun _ _ hf => ?_, fun _ _ hf => ?_, fun _ _ hf => ?_, fun _ hd => ?_,
      fun _ _ => ⟨rfl, rfl⟩⟩
    · exact absurd hf List.not_mem_nil
    · exact absurd hf List.not_mem_nil
    · exact absurd hf List.not_mem_nil
    · exact absurd hd List.not_mem_nil
  have hledger : Ledger p new := ⟨rfl, rfl, fun _ h => absurd h List.not_mem_nil⟩
  exact ⟨hnumbered, hledger, fun _ _ => Nat.zero_le _, replayOnce_of_phase nofun nofun⟩

theorem sound_step {s : DriverTask} (e : Event) (h : Sound p s) :
    Sound p (step cfgMaxAttempts p s e) := by
  obtain ⟨hnumbered, hledger, hcounted⟩ := h
  rcases move_or_stay cfgMaxAttempts p s e with hmove | hstay
  · exact ⟨numbered_move hmove hnumbered, ledger_move hmove hledger,
      counted_move hmove hnumbered hledger hcounted⟩
  · rw [hstay]
    exact ⟨hnumbered, hledger, hcounted⟩

/-- The invariants of a run whose sends succeed. -/
def InStep (p : WsProtocol) (s : DriverTask) : Prop := Sound p s ∧ Synced s

theorem inStep_step {s : DriverTask} (e : Event) (h : InStep p s) (hdelivers : Delivers p s e) :
    InStep p (step cfgMaxAttempts p s e) := by
  refine ⟨sound_step e h.1, ?_⟩
  rcases move_or_stay cfgMaxAttempts p s e with hmove | hstay
  · exact synced_move hmove h.1.2.1 h.1.2.2 hdelivers h.2
  · rw [hstay]
    exact h.2

/-- **Main theorem.** In every state of a run whose sends succeed, the server's set is
`active_subs`. -/
theorem converged_run (cfgMaxAttempts : UInt32) (p : WsProtocol) (es : List Event)
    (h : StepsMeet (step cfgMaxAttempts p) new (Delivers p) es) :
    ∀ pre, pre <+: es → Converged (run cfgMaxAttempts p pre) := by
  intro pre hpre
  have hsteps : StepsMeet (step cfgMaxAttempts p) new (Delivers p) pre :=
    fun pre' e hpre' => h pre' e (hpre'.trans hpre)
  have hinit : InStep p new := ⟨sound_new p, synced_of_phase nofun nofun nofun⟩
  have hrun : InStep p (run cfgMaxAttempts p pre) :=
    foldl_invariant_of_steps hinit (fun _ e hs hdelivers => inStep_step e hs hdelivers) hsteps
  obtain ⟨⟨hnumbered, hledger, hcounted⟩, hsynced⟩ := hrun
  exact converged_of_invariants hnumbered hledger hcounted hsynced

/-- The trades of one instrument. -/
def btcTradeSpec : StreamSpec where
  kind := .trade
  symbol := .raw "BTCUSDT".toList
  accountType := .spot
  depth := none
  speedMs := none

/-- A driver connects, takes one subscription and sends its frame. -/
def oneSubscription (sent : Bool) : List Event :=
  [.begin, .hook true, .connected true, .auth .notNeeded [], .replayNext true,
    .postConnectNext true, .queue (.subscribe btcTradeSpec), .command, .write 1 sent]

theorem converged_oneSubscription : Converged (run 0 anyFrame (oneSubscription true)) := by
  refine converged_run 0 anyFrame (oneSubscription true) ?_ _ (List.prefix_refl _)
  simp only [oneSubscription, stepsMeet_cons]
  refine ⟨trivial, trivial, trivial, trivial, fun _ _ _ => rfl, trivial, trivial, ?_, ?_,
    stepsMeet_nil _⟩
  · intro _ spec rest hcmds
    have hcmd : [TransportCmd.subscribe btcTradeSpec] = .unsubscribe spec :: rest := hcmds
    exact nomatch hcmd
  · exact fun _ _ _ _ _ _ => rfl

/-- The send fails, the write task goes on, and the driver waits for trades that the server was
    not asked for. -/
theorem lost_subscription_not_converged :
    ¬ ∀ (cfgMaxAttempts : UInt32) (p : WsProtocol) (es : List Event),
      Converged (run cfgMaxAttempts p es) := by
  intro h
  have hrun := h 0 anyFrame (oneSubscription false)
  have hholds := (hrun.wire_iff (by decide) (by decide) btcTradeSpec).mpr (by decide)
  exact SetUpdate.not_holds_nil btcTradeSpec hholds

end Digdigdig3.Transport.DriverTask
