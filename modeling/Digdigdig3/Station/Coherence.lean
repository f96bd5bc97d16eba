import Digdigdig3.Station.References

/-!
# The maps of the station and the forwarders behind them

`muxes`, `series_handles`, `exit_acks` and `flush_handles` have no more than the key in common
with the forwarder that they stand for. A forwarder whose stream ends leaves its multiplexer
registered while consumers are attached, and its teardown removes whatever it finds under its
key.

* `Coherent`, `RingsListed`: what the maps promise of a state.
* `SparesNewer`: what a teardown promises.
* `OwnEntries`, `NoneInLoop`: when a step keeps these promises.
-/

namespace Digdigdig3.Multiplex

open Series (SeriesKey)

namespace StationInner

/-! ## The promises -/

/-- A registered multiplexer has a forwarder that has not exited, and a forwarder that runs and
    has not been told to stop finds itself in the maps. -/
structure Coherent (s : StationInner) : Prop where
  registered : ∀ key mux, s.muxes key = some mux →
    ∃ f, s.forwarders mux.inst = some f ∧ f.key = key ∧ f.phase ≠ .exited
  listed : ∀ i f, s.forwarders i = some f → f.phase = .running → f.signalled = false →
    (s.muxes f.key).map Multiplexer.inst = some i ∧
      (f.feed.hasRing → s.seriesHandles f.key = some i ∧
        (f.ackTaken = false → s.exitAcks f.key = some i))

/-- A forwarder with a ring finds it and its exit ack in the maps as long as it is in its loop,
    whether it has been told to stop or not. -/
def RingsListed (s : StationInner) : Prop :=
  ∀ i f, s.forwarders i = some f → f.feed.hasRing → f.phase = .running →
    s.seriesHandles f.key = some i ∧ (f.ackTaken = false → s.exitAcks f.key = some i)

/-- From `s` to `s'` no entry of a forwarder newer than `i` is removed. -/
def SparesNewer (s s' : StationInner) (i : ℕ) : Prop :=
  ∀ key j, i < j →
    ((s.muxes key).map Multiplexer.inst = some j →
      (s'.muxes key).map Multiplexer.inst = some j) ∧
    (s.seriesHandles key = some j → s'.seriesHandles key = some j) ∧
    (s.exitAcks key = some j → s'.exitAcks key = some j) ∧
    (s.flushHandles key = some j → s'.flushHandles key = some j)

/-- The forwarder that a step tears down. -/
def Op.tearsDown : Op → Option ℕ
  | .leaveLoop i | .exit i => some i
  | _ => none

/-- A forwarder finds its own entries, or none, when it tears them down: on its exit no consumer
    is attached to its multiplexer, and another one at its key has consumers. -/
def OwnEntries (s : StationInner) : Op → Prop
  | .leaveLoop i => ∀ f, s.forwarders i = some f → f.phase = .running → f.flushRx →
      ∀ j, s.flushHandles f.key = some j → j = i
  | .exit i => ∀ f, s.MayExit i f →
      (∀ mux, s.muxes f.key = some mux → (mux.inst = i ↔ mux.consumers = 0)) ∧
        (f.feed.hasRing → ∀ j, s.seriesHandles f.key = some j → j = i) ∧
        ∀ j, s.exitAcks f.key = some j → j = i
  | _ => True

/-- No forwarder with a ring is in its loop for the key. -/
def NoneInLoop (s : StationInner) (key : SeriesKey) : Prop :=
  ∀ i f, s.forwarders i = some f → f.key = key → f.feed.hasRing → f.phase ≠ .running

/-- Entries are replaced, or removed from outside, while no forwarder is in its loop for their
    key. -/
def Undisturbed (s : StationInner) : Op → Prop
  | .spawn key _ _ _ => s.NoneInLoop key
  | .expire t => ∀ timer mux, s.timers t = some timer → s.muxes timer.key = some mux →
      mux.consumers = 0 → s.NoneInLoop timer.key
  | .forceUnsubscribe key => (s.muxes key).isSome → s.NoneInLoop key
  | _ => True

/-! ## Forwarders over a step -/

/-- `f` is `f₀`, told to stop or with its exit ack taken at most. -/
structure Kept (f₀ f : ForwarderTask) : Prop where
  key_eq : f.key = f₀.key
  feed_eq : f.feed = f₀.feed
  phase_eq : f.phase = f₀.phase
  signalled_of : f₀.signalled = true → f.signalled = true
  ackTaken_of : f₀.ackTaken = true → f.ackTaken = true

/-- The forwarders are those of before. -/
def SameTasks (before after : ℕ → Option ForwarderTask) : Prop :=
  ∀ i, Option.Rel Kept (before i) (after i)

theorem Kept.refl (f : ForwarderTask) : Kept f f := ⟨rfl, rfl, rfl, id, id⟩

theorem SameTasks.refl (forwarders : ℕ → Option ForwarderTask) :
    SameTasks forwarders forwarders := by
  intro i
  cases forwarders i with
  | none => exact .none
  | some f => exact .some (Kept.refl f)

theorem Kept.trans {f g k : ForwarderTask} (h : Kept f g) (h' : Kept g k) : Kept f k where
  key_eq := h'.key_eq.trans h.key_eq
  feed_eq := h'.feed_eq.trans h.feed_eq
  phase_eq := h'.phase_eq.trans h.phase_eq
  signalled_of := fun hs => h'.signalled_of (h.signalled_of hs)
  ackTaken_of := fun hs => h'.ackTaken_of (h.ackTaken_of hs)

theorem SameTasks.trans {first then_ last : ℕ → Option ForwarderTask} (h : SameTasks first then_)
    (h' : SameTasks then_ last) : SameTasks first last := by
  intro i
  have hi := h i
  have hi' := h' i
  generalize first i = x at hi
  generalize last i = z at hi'
  generalize then_ i = y at hi hi'
  cases hi with
  | none =>
    cases hi'
    exact .none
  | some hf =>
    cases hi' with
    | some hg => exact .some (hf.trans hg)

theorem SameTasks.after {before after : ℕ → Option ForwarderTask} (h : SameTasks before after)
    {i : ℕ} {f₀ : ForwarderTask} (hf : before i = some f₀) : ∃ f, after i = some f ∧ Kept f₀ f := by
  have hi := h i
  rw [hf] at hi
  generalize hafter : after i = x at hi
  cases hi with
  | some hkept => exact ⟨_, rfl, hkept⟩

theorem SameTasks.before {before after : ℕ → Option ForwarderTask} (h : SameTasks before after)
    {i : ℕ} {f : ForwarderTask} (hf : after i = some f) : ∃ f₀, before i = some f₀ ∧ Kept f₀ f := by
  have hi := h i
  rw [hf] at hi
  generalize hbefore : before i = x at hi
  cases hi with
  | some hkept => exact ⟨_, rfl, hkept⟩

theorem sameTasks_modify (forwarders : ℕ → Option ForwarderTask) (i : ℕ)
    {change : ForwarderTask → ForwarderTask} (hchange : ∀ f, Kept f (change f)) :
    SameTasks forwarders (modify forwarders i change) := by
  intro j
  by_cases hj : j = i
  · subst hj
    rw [modify_self]
    cases forwarders j with
    | none => exact .none
    | some f => exact .some (hchange f)
  · rw [modify_of_ne hj]
    exact SameTasks.refl forwarders j

theorem kept_signal (f : ForwarderTask) : Kept f { f with signalled := true } :=
  ⟨rfl, rfl, rfl, fun _ => rfl, id⟩

theorem sameTasks_signal (forwarders : ℕ → Option ForwarderTask) (i : ℕ) :
    SameTasks forwarders (signal forwarders i) := sameTasks_modify forwarders i kept_signal

/-- What a forwarder that still runs, and has not been told, knows of its time before. -/
theorem Kept.not_told {f₀ f : ForwarderTask} (h : Kept f₀ f) (hnot : f.signalled = false) :
    f₀.signalled = false := by
  by_contra htold
  rw [h.signalled_of (eq_true_of_ne_false htold)] at hnot
  cases hnot

theorem Kept.not_taken {f₀ f : ForwarderTask} (h : Kept f₀ f) (hnot : f.ackTaken = false) :
    f₀.ackTaken = false := by
  by_contra htaken
  rw [h.ackTaken_of (eq_true_of_ne_false htaken)] at hnot
  cases hnot

/-! ## Steps that only take away -/

/-- From `s` to `s'` the multiplexer of `key` goes, its forwarder is told to stop, and no other
    key has its entries changed. -/
structure Frees (key : SeriesKey) (s s' : StationInner) : Prop where
  tasks : SameTasks s.forwarders s'.forwarders
  told : ∀ mux, s.muxes key = some mux → ∀ f, s'.forwarders mux.inst = some f → f.signalled = true
  muxes_eq : ∀ k, (s'.muxes k).map Multiplexer.inst =
    if k = key then none else (s.muxes k).map Multiplexer.inst
  seriesHandles_eq : ∀ k, k ≠ key → s'.seriesHandles k = s.seriesHandles k
  exitAcks_eq : ∀ k, k ≠ key → s'.exitAcks k = s.exitAcks k

/-- From `s` to `s'` the entries stay as they are. -/
structure Leaves (s s' : StationInner) : Prop where
  tasks : SameTasks s.forwarders s'.forwarders
  muxes_eq : ∀ k, (s'.muxes k).map Multiplexer.inst = (s.muxes k).map Multiplexer.inst
  seriesHandles_eq : s'.seriesHandles = s.seriesHandles
  exitAcks_eq : s'.exitAcks = s.exitAcks

variable {s s' : StationInner} {key : SeriesKey}

theorem insts_update (muxes : SeriesKey → Option Multiplexer) (key : SeriesKey)
    (mux : Option Multiplexer) (k : SeriesKey) :
    (Function.update muxes key mux k).map Multiplexer.inst =
      if k = key then mux.map Multiplexer.inst else (muxes k).map Multiplexer.inst := by
  by_cases hk : k = key
  · rw [hk, Function.update_self, if_pos rfl]
  · rw [Function.update_of_ne hk, if_neg hk]

/-- A new multiplexer value of the same forwarder. -/
theorem insts_update_same {muxes : SeriesKey → Option Multiplexer} {key : SeriesKey}
    {mux mux' : Multiplexer} (h : muxes key = some mux) (hinst : mux'.inst = mux.inst)
    (k : SeriesKey) :
    (Function.update muxes key (some mux') k).map Multiplexer.inst =
      (muxes k).map Multiplexer.inst := by
  rw [insts_update]
  split_ifs with hk
  · rw [hk, h, Option.map_some, Option.map_some, hinst]
  · rfl

theorem frees_removeMux {mux : Multiplexer} (h : s.muxes key = some mux) :
    Frees key s (s.removeMux key) := by
  rw [removeMux_of_some h]
  refine ⟨sameTasks_signal _ _, ?_, insts_update _ _ _, fun _ _ => rfl, fun _ _ => rfl⟩
  intro mux' hmux' f hf
  obtain rfl := Option.some.inj (h.symm.trans hmux')
  have hsignal : (s.forwarders mux.inst).map (fun f => { f with signalled := true }) = some f := by
    rw [← modify_self]
    exact hf
  obtain ⟨f₀, -, rfl⟩ := Option.map_eq_some_iff.mp hsignal
  rfl

theorem Leaves.coherent (hs : s.Coherent) (h : Leaves s s') : s'.Coherent where
  registered := by
    intro key mux hmux
    have hinst := h.muxes_eq key
    rw [hmux] at hinst
    obtain ⟨mux₀, hmux₀, heq⟩ := Option.map_eq_some_iff.mp hinst.symm
    obtain ⟨f₀, hf₀, hkey, hphase⟩ := hs.registered key mux₀ hmux₀
    obtain ⟨f, hf, hkept⟩ := h.tasks.after hf₀
    rw [heq] at hf
    exact ⟨f, hf, hkept.key_eq.trans hkey, by rwa [hkept.phase_eq]⟩
  listed := by
    intro i f hf hrun hnot
    obtain ⟨f₀, hf₀, hkept⟩ := h.tasks.before hf
    obtain ⟨hmux, hring⟩ :=
      hs.listed i f₀ hf₀ (hkept.phase_eq.symm.trans hrun) (hkept.not_told hnot)
    rw [hkept.key_eq, h.muxes_eq, h.seriesHandles_eq, h.exitAcks_eq, hkept.feed_eq]
    exact ⟨hmux, fun hasRing =>
      ⟨(hring hasRing).1, fun htaken => (hring hasRing).2 (hkept.not_taken htaken)⟩⟩

theorem Frees.coherent (hs : s.Coherent) (h : Frees key s s') : s'.Coherent where
  registered := by
    intro k mux hmux
    have hinst := h.muxes_eq k
    rw [hmux] at hinst
    split_ifs at hinst with hk
    · cases hinst
    · obtain ⟨mux₀, hmux₀, heq⟩ := Option.map_eq_some_iff.mp hinst.symm
      obtain ⟨f₀, hf₀, hkey, hphase⟩ := hs.registered k mux₀ hmux₀
      obtain ⟨f, hf, hkept⟩ := h.tasks.after hf₀
      rw [heq] at hf
      exact ⟨f, hf, hkept.key_eq.trans hkey, by rwa [hkept.phase_eq]⟩
  listed := by
    intro i f hf hrun hnot
    obtain ⟨f₀, hf₀, hkept⟩ := h.tasks.before hf
    obtain ⟨hmux, hring⟩ :=
      hs.listed i f₀ hf₀ (hkept.phase_eq.symm.trans hrun) (hkept.not_told hnot)
    have hne : f₀.key ≠ key := by
      rintro rfl
      obtain ⟨mux, hregistered, rfl⟩ := Option.map_eq_some_iff.mp hmux
      rw [h.told mux hregistered f hf] at hnot
      cases hnot
    rw [hkept.key_eq, h.muxes_eq, if_neg hne, h.seriesHandles_eq _ hne, h.exitAcks_eq _ hne,
      hkept.feed_eq]
    exact ⟨hmux, fun hasRing =>
      ⟨(hring hasRing).1, fun htaken => (hring hasRing).2 (hkept.not_taken htaken)⟩⟩

theorem Leaves.ringsListed (hs : s.RingsListed) (h : Leaves s s') : s'.RingsListed := by
  intro i f hf hasRing hrun
  obtain ⟨f₀, hf₀, hkept⟩ := h.tasks.before hf
  have hring := hs i f₀ hf₀ (by rwa [← hkept.feed_eq]) (hkept.phase_eq.symm.trans hrun)
  rw [hkept.key_eq, h.seriesHandles_eq, h.exitAcks_eq]
  exact ⟨hring.1, fun htaken => hring.2 (hkept.not_taken htaken)⟩

theorem Frees.ringsListed (hs : s.RingsListed) (hnone : s.NoneInLoop key) (h : Frees key s s') :
    s'.RingsListed := by
  intro i f hf hasRing hrun
  obtain ⟨f₀, hf₀, hkept⟩ := h.tasks.before hf
  have hasRing₀ : f₀.feed.hasRing := by rwa [← hkept.feed_eq]
  have hrun₀ := hkept.phase_eq.symm.trans hrun
  have hring := hs i f₀ hf₀ hasRing₀ hrun₀
  have hne : f₀.key ≠ key := fun heq => hnone i f₀ hf₀ heq hasRing₀ hrun₀
  rw [hkept.key_eq, h.seriesHandles_eq _ hne, h.exitAcks_eq _ hne]
  exact ⟨hring.1, fun htaken => hring.2 (hkept.not_taken htaken)⟩

theorem Leaves.refl (s : StationInner) : Leaves s s :=
  ⟨SameTasks.refl _, fun _ => rfl, rfl, rfl⟩

theorem leaves_reuse (s : StationInner) (key : SeriesKey) (holder : Holder) :
    Leaves s (s.reuse key holder) := by
  unfold reuse
  cases h : s.muxes key with
  | none => exact Leaves.refl s
  | some mux => exact ⟨SameTasks.refl _, insts_update_same h rfl, rfl, rfl⟩

theorem leaves_openStore (s : StationInner) (i : ℕ) : Leaves s (s.openStore i) := by
  rcases s.openStore_cases i with h | ⟨f, -, -, h⟩
  · rw [h]
    exact Leaves.refl s
  · rw [h]
    exact ⟨sameTasks_modify _ _ fun _ => ⟨rfl, rfl, rfl, id, id⟩, fun _ => rfl, rfl, rfl⟩

/-- A reference that is dropped leaves the entries alone, or takes its multiplexer with it. -/
theorem dropRef_cases (s : StationInner) (grace : Bool) (r : MultiplexRef) :
    Leaves s (s.dropRef grace r) ∨ Frees r.key s (s.dropRef grace r) := by
  unfold dropRef
  cases h : s.muxes r.key with
  | none =>
    left
    rw [releaseConsumer_of_none (by exact h)]
    exact ⟨SameTasks.refl _, fun _ => rfl, rfl, rfl⟩
  | some mux =>
    have hmux : { s with refs := s.refs.erase r }.muxes r.key = some mux := h
    rw [releaseConsumer_of_some hmux]
    split_ifs
    · exact Or.inl ⟨SameTasks.refl _, insts_update_same h rfl, rfl, rfl⟩
    · exact Or.inl ⟨SameTasks.refl _, insts_update_same h rfl, rfl, rfl⟩
    · right
      have hfrees : Frees r.key { s with refs := s.refs.erase r }
          ({ s with refs := s.refs.erase r }.removeMux r.key) := frees_removeMux (by exact h)
      exact ⟨hfrees.tasks, hfrees.told, hfrees.muxes_eq, hfrees.seriesHandles_eq,
        hfrees.exitAcks_eq⟩

/-- A timer that fires leaves the entries alone, or removes those of its key, which has no
    consumers. -/
theorem expire_leaves_or_frees (s : StationInner) (t : ℕ) :
    Leaves s (s.expire t) ∨ ∃ timer mux, s.timers t = some timer ∧ s.muxes timer.key = some mux ∧
      mux.consumers = 0 ∧ Frees timer.key s (s.expire t) := by
  rcases s.expire_cases t with h | h | ⟨timer, mux, htimer, hmux, hzero, h⟩
  · exact Or.inl (by rw [h]; exact Leaves.refl s)
  · exact Or.inl (by rw [h]; exact ⟨SameTasks.refl _, fun _ => rfl, rfl, rfl⟩)
  · right
    refine ⟨timer, mux, htimer, hmux, hzero, ?_⟩
    have hfrees : Frees timer.key { s with timers := Function.update s.timers t none }
        ({ s with timers := Function.update s.timers t none }.removeMux timer.key) :=
      frees_removeMux (by exact hmux)
    rw [h]
    exact ⟨hfrees.tasks, hfrees.told, hfrees.muxes_eq,
      fun k hk => Function.update_of_ne hk _ _, hfrees.exitAcks_eq⟩

theorem frees_forceUnsubscribe {mux : Multiplexer} (h : s.muxes key = some mux) :
    Frees key s (s.forceUnsubscribe key) := by
  have hfrees := frees_removeMux h
  rw [forceUnsubscribe_of_some h]
  cases s.exitAcks key with
  | none =>
    exact ⟨hfrees.tasks, hfrees.told, hfrees.muxes_eq, fun k hk => Function.update_of_ne hk _ _,
      fun k hk => Function.update_of_ne hk _ _⟩
  | some i =>
    have htask : SameTasks (s.removeMux key).forwarders
        (modify (s.removeMux key).forwarders i fun f => { f with ackTaken := true }) :=
      sameTasks_modify _ _ fun _ => ⟨rfl, rfl, rfl, id, fun _ => rfl⟩
    refine ⟨hfrees.tasks.trans htask, ?_, hfrees.muxes_eq, fun k hk => Function.update_of_ne hk _ _,
      fun k hk => Function.update_of_ne hk _ _⟩
    intro mux' hmux' f hf
    obtain ⟨f₀, hf₀, hkept⟩ := htask.before hf
    exact hkept.signalled_of (hfrees.told mux' hmux' f₀ hf₀)

/-- Removing a multiplexer, registered or not, frees its key. -/
theorem frees_removeMux_any (s : StationInner) (key : SeriesKey) :
    Frees key s (s.removeMux key) := by
  cases h : s.muxes key with
  | some mux => exact frees_removeMux h
  | none =>
    rw [removeMux_of_none h]
    refine ⟨SameTasks.refl _, ?_, ?_, fun _ _ => rfl, fun _ _ => rfl⟩
    · intro mux hmux
      cases h.symm.trans hmux
    · intro k
      split_ifs with hk
      · rw [hk, h]
        rfl
      · rfl

/-! ## Spawning -/

/-- The maps after a spawn, given those after the old multiplexer was dropped. -/
theorem coherent_insert {free : StationInner} (hfree : free.Coherent) {key : SeriesKey}
    {feed : Feed} (hnone : free.muxes key = none) (hfresh : free.forwarders s.next = none)
    (hseries : s'.seriesHandles =
      if feed.hasRing then Function.update free.seriesHandles key (some s.next)
      else free.seriesHandles)
    (hacks : s'.exitAcks = Function.update free.exitAcks key (some s.next))
    (hmuxes : s'.muxes = Function.update free.muxes key
      (some { inst := s.next, consumers := 1, graceCancel := none }))
    (htasks : s'.forwarders = Function.update free.forwarders s.next
      (some { key, feed, phase := .running, signalled := false, ackTaken := false
              flushRx := false })) : s'.Coherent where
  registered := by
    intro k mux hmux
    rw [hmuxes] at hmux
    rw [htasks]
    by_cases hk : k = key
    · rw [hk, Function.update_self] at hmux
      obtain rfl := Option.some.inj hmux
      refine ⟨_, Function.update_self .., hk.symm, ?_⟩
      show Phase.running ≠ .exited
      decide
    · rw [Function.update_of_ne hk] at hmux
      obtain ⟨f, hf, hkey, hphase⟩ := hfree.registered k mux hmux
      have hi : mux.inst ≠ s.next := by
        intro heq
        rw [heq, hfresh] at hf
        cases hf
      exact ⟨f, by rwa [Function.update_of_ne hi], hkey, hphase⟩
  listed := by
    intro i f hf hrun hnot
    rw [htasks] at hf
    rw [hmuxes, hseries, hacks]
    by_cases hi : i = s.next
    · rw [hi, Function.update_self] at hf
      obtain rfl := Option.some.inj hf
      rw [hi, Function.update_self, Function.update_self]
      refine ⟨rfl, fun hasRing => ⟨?_, fun _ => rfl⟩⟩
      rw [if_pos hasRing, Function.update_self]
    · rw [Function.update_of_ne hi] at hf
      obtain ⟨hmux, hring⟩ := hfree.listed i f hf hrun hnot
      have hne : f.key ≠ key := by
        intro heq
        rw [heq, hnone] at hmux
        cases hmux
      rw [Function.update_of_ne hne, Function.update_of_ne hne]
      refine ⟨hmux, fun hasRing => ?_⟩
      split_ifs with hnew
      · rw [Function.update_of_ne hne]
        exact hring hasRing
      · exact hring hasRing

/-- What a spawn starts from. -/
theorem spawn_free (s : StationInner) (key : SeriesKey) (a b : Holder) :
    Frees key s ((s.handOver a b).removeMux key) := by
  have h := frees_removeMux_any (s.handOver a b) key
  exact ⟨h.tasks, h.told, h.muxes_eq, h.seriesHandles_eq, h.exitAcks_eq⟩

theorem handles_removeMux (s : StationInner) (key : SeriesKey) :
    (s.removeMux key).seriesHandles = s.seriesHandles ∧
      (s.removeMux key).exitAcks = s.exitAcks := by
  unfold removeMux
  cases s.muxes key <;> exact ⟨rfl, rfl⟩

theorem muxes_removeMux_self (s : StationInner) (key : SeriesKey) :
    (s.removeMux key).muxes key = none := by
  cases h : s.muxes key with
  | none => rwa [removeMux_of_none h]
  | some mux =>
    rw [removeMux_of_some h]
    exact Function.update_self ..

theorem forwarders_fresh (hsound : s.view.Sound) : s.forwarders s.next = none :=
  Option.map_eq_none_iff.mp (hsound.fresh s.next (le_refl _))

theorem SameTasks.none_after {before after : ℕ → Option ForwarderTask}
    (h : SameTasks before after) {i : ℕ} (hi : before i = none) : after i = none := by
  cases hafter : after i with
  | none => rfl
  | some f =>
    obtain ⟨f₀, hf₀, -⟩ := h.before hafter
    cases hi.symm.trans hf₀

theorem coherent_spawn (hs : s.Coherent) (hsound : s.view.Sound) (key : SeriesKey) (feed : Feed)
    (a b holder : Holder) : ((s.handOver a b).spawn key feed holder).Coherent := by
  have hfrees := spawn_free s key a b
  obtain ⟨hseries, hacks⟩ := handles_removeMux (s.handOver a b) key
  refine coherent_insert (s := s) (hfrees.coherent hs) (muxes_removeMux_self _ key)
    (hfrees.tasks.none_after (forwarders_fresh hsound)) ?_ ?_ rfl rfl
  · rw [hseries]
    rfl
  · rw [hacks]
    rfl

theorem ringsListed_spawn (hs : s.RingsListed) (hnone : s.NoneInLoop key) (feed : Feed)
    (a b holder : Holder) : ((s.handOver a b).spawn key feed holder).RingsListed := by
  have hfrees := spawn_free s key a b
  intro i f hf hasRing hrun
  have htask : Function.update ((s.handOver a b).removeMux key).forwarders s.next _ i = some f := hf
  show (if feed.hasRing then Function.update s.seriesHandles key (some s.next)
    else s.seriesHandles) f.key = some i ∧
      (f.ackTaken = false → Function.update s.exitAcks key (some s.next) f.key = some i)
  by_cases hi : i = s.next
  · rw [hi, Function.update_self] at htask
    obtain rfl := Option.some.inj htask
    rw [hi, if_pos hasRing, Function.update_self, Function.update_self]
    exact ⟨rfl, fun _ => rfl⟩
  · rw [Function.update_of_ne hi] at htask
    obtain ⟨f₀, hf₀, hkept⟩ := hfrees.tasks.before htask
    have hasRing₀ : f₀.feed.hasRing := by rwa [← hkept.feed_eq]
    have hrun₀ := hkept.phase_eq.symm.trans hrun
    have hring := hs i f₀ hf₀ hasRing₀ hrun₀
    have hne : f.key ≠ key := fun heq =>
      hnone i f₀ hf₀ (hkept.key_eq.symm.trans heq) hasRing₀ hrun₀
    rw [Function.update_of_ne hne, hkept.key_eq]
    refine ⟨?_, fun htaken => hring.2 (hkept.not_taken htaken)⟩
    rw [hkept.key_eq] at hne
    split_ifs
    · rw [Function.update_of_ne hne]
      exact hring.1
    · exact hring.1

/-! ## Leaving the loop -/

theorem coherent_leaveLoop (hs : s.Coherent) (i : ℕ) : (s.leaveLoop i).Coherent := by
  by_cases hrunning : ∃ f, s.forwarders i = some f ∧ f.phase = .running
  · obtain ⟨f, hf, hphase⟩ := hrunning
    rw [leaveLoop_of_running hf hphase]
    have hself : modify s.forwarders i (fun f => { f with phase := .stopping }) i =
        some { f with phase := .stopping } := by
      rw [modify_self, hf]
      rfl
    refine ⟨?_, ?_⟩
    · intro key mux hmux
      obtain ⟨g, hg, hkey, hnot⟩ := hs.registered key mux hmux
      by_cases hi : mux.inst = i
      · rw [hi, hf] at hg
        obtain rfl := Option.some.inj hg
        rw [hi]
        refine ⟨_, hself, hkey, ?_⟩
        show Phase.stopping ≠ .exited
        decide
      · refine ⟨g, ?_, hkey, hnot⟩
        show modify s.forwarders i _ mux.inst = some g
        rwa [modify_of_ne hi]
    · intro j g hg hrun hnot
      by_cases hj : j = i
      · subst hj
        obtain rfl := Option.some.inj (hself.symm.trans hg)
        cases hrun
      · have hg' : modify s.forwarders i (fun f => { f with phase := .stopping }) j = some g := hg
        rw [modify_of_ne hj] at hg'
        exact hs.listed j g hg' hrun hnot
  · rwa [leaveLoop_of_not_running fun f hf hphase => hrunning ⟨f, hf, hphase⟩]

theorem ringsListed_leaveLoop (hs : s.RingsListed) (i : ℕ) : (s.leaveLoop i).RingsListed := by
  by_cases hrunning : ∃ f, s.forwarders i = some f ∧ f.phase = .running
  · obtain ⟨f, hf, hphase⟩ := hrunning
    rw [leaveLoop_of_running hf hphase]
    intro j g hg hasRing hrun
    have hg' : modify s.forwarders i (fun f => { f with phase := .stopping }) j = some g := hg
    by_cases hj : j = i
    · subst hj
      rw [modify_self, hf] at hg'
      obtain rfl := Option.some.inj hg'
      cases hrun
    · rw [modify_of_ne hj] at hg'
      exact hs j g hg' hasRing hrun
  · rwa [leaveLoop_of_not_running fun f hf hphase => hrunning ⟨f, hf, hphase⟩]

/-! ## Exits -/

/-- What the teardown of the forwarder `i` leaves of its multiplexer's key. -/
theorem insts_removeUnused {i : ℕ} (key : SeriesKey)
    (hown : ∀ mux, s.muxes key = some mux → (mux.inst = i ↔ mux.consumers = 0)) (k : SeriesKey) :
    ((s.removeUnused key).muxes k).map Multiplexer.inst =
      if k = key ∧ (s.muxes key).map Multiplexer.inst = some i then none
      else (s.muxes k).map Multiplexer.inst := by
  unfold removeUnused stillConsumers
  cases hmux : s.muxes key with
  | none =>
    rw [if_pos (by rfl), removeMux_of_none hmux, if_neg]
    rintro ⟨-, h⟩
    cases h
  | some mux =>
    by_cases hzero : mux.consumers = 0
    · have hinst := (hown mux hmux).mpr hzero
      rw [if_pos (by exact hzero), (frees_removeMux hmux).muxes_eq]
      simp only [Option.map_some, hinst, and_true]
    · have hinst : mux.inst ≠ i := fun heq => hzero ((hown mux hmux).mp heq)
      rw [if_neg (by exact hzero), if_neg]
      rintro ⟨-, h⟩
      exact hinst (Option.some.inj h)

theorem sameTasks_removeUnused (s : StationInner) (key : SeriesKey) :
    SameTasks s.forwarders (s.removeUnused key).forwarders := by
  unfold removeUnused
  split_ifs
  · exact (frees_removeMux_any s key).tasks
  · exact SameTasks.refl _

/-- The forwarders after an exit: the one that exits, and the others as before. -/
theorem exit_task {i j : ℕ} {g : ForwarderTask} {forwarders : ℕ → Option ForwarderTask}
    (hg : modify forwarders i (fun f => { f with phase := .exited }) j = some g)
    (hnot : g.phase ≠ .exited) : j ≠ i ∧ forwarders j = some g := by
  by_cases hj : j = i
  · subst hj
    rw [modify_self] at hg
    obtain ⟨f, -, rfl⟩ := Option.map_eq_some_iff.mp hg
    exact absurd rfl hnot
  · exact ⟨hj, by rwa [modify_of_ne hj] at hg⟩

theorem coherent_exit (hs : s.Coherent) {i : ℕ} (hown : s.OwnEntries (.exit i)) :
    (s.exit i).Coherent := by
  by_cases hexit : ∃ f, s.MayExit i f
  · obtain ⟨f, hf⟩ := hexit
    obtain ⟨hmuxOwn, hseriesOwn, hackOwn⟩ := hown f hf
    have hinsts := insts_removeUnused f.key hmuxOwn
    have htasks := sameTasks_removeUnused s f.key
    rw [exit_of_mayExit hf]
    refine ⟨?_, ?_⟩
    · intro k mux hmux
      have hinst := hinsts k
      have hmux' : (s.removeUnused f.key).muxes k = some mux := hmux
      rw [hmux'] at hinst
      split_ifs at hinst with hremoved
      · cases hinst
      · obtain ⟨mux₀, hmux₀, heq⟩ := Option.map_eq_some_iff.mp hinst.symm
        obtain ⟨g₀, hg₀, hkey, hphase⟩ := hs.registered k mux₀ hmux₀
        have hi : mux.inst ≠ i := by
          intro hi
          rw [heq, hi, hf.1] at hg₀
          obtain rfl := Option.some.inj hg₀
          apply hremoved
          rw [hkey, hmux₀, Option.map_some, heq, hi]
          exact ⟨rfl, rfl⟩
        obtain ⟨g, hg, hkept⟩ := htasks.after hg₀
        rw [heq] at hg
        refine ⟨g, ?_, hkept.key_eq.trans hkey, by rwa [hkept.phase_eq]⟩
        show modify (s.removeUnused f.key).forwarders i _ mux.inst = some g
        rwa [modify_of_ne hi]
    · intro j g hg hrun hnot
      have hlive : g.phase ≠ .exited := by
        rw [hrun]
        decide
      obtain ⟨hj, hg'⟩ := exit_task hg hlive
      obtain ⟨g₀, hg₀, hkept⟩ := htasks.before hg'
      obtain ⟨hmux, hring⟩ :=
        hs.listed j g₀ hg₀ (hkept.phase_eq.symm.trans hrun) (hkept.not_told hnot)
      refine ⟨?_, fun hasRing => ?_⟩
      · show ((s.removeUnused f.key).muxes g.key).map Multiplexer.inst = some j
        rw [hinsts, hkept.key_eq, if_neg]
        · exact hmux
        · rintro ⟨hkey, hi⟩
          rw [hkey, hi] at hmux
          exact hj (Option.some.inj hmux).symm
      · rw [hkept.feed_eq] at hasRing
        obtain ⟨hseries, hack⟩ := hring hasRing
        rw [hkept.key_eq]
        refine ⟨?_, fun htaken => ?_⟩
        · show (if f.feed.hasRing then Function.update s.seriesHandles f.key none
            else s.seriesHandles) g₀.key = some j
          split_ifs with hasRing'
          · have hne : g₀.key ≠ f.key := fun heq =>
              hj (hseriesOwn hasRing' j (by rw [← heq]; exact hseries))
            rwa [Function.update_of_ne hne]
          · exact hseries
        · have hack' := hack (hkept.not_taken htaken)
          have hne : g₀.key ≠ f.key := fun heq => hj (hackOwn j (by rw [← heq]; exact hack'))
          show Function.update s.exitAcks f.key none g₀.key = some j
          rwa [Function.update_of_ne hne]
  · rwa [exit_of_not_mayExit fun f hf => hexit ⟨f, hf⟩]

theorem ringsListed_exit (hs : s.RingsListed) {i : ℕ} (hown : s.OwnEntries (.exit i)) :
    (s.exit i).RingsListed := by
  by_cases hexit : ∃ f, s.MayExit i f
  · obtain ⟨f, hf⟩ := hexit
    obtain ⟨-, hseriesOwn, hackOwn⟩ := hown f hf
    rw [exit_of_mayExit hf]
    intro j g hg hasRing hrun
    have hlive : g.phase ≠ .exited := by
      rw [hrun]
      decide
    obtain ⟨hj, hg'⟩ := exit_task hg hlive
    obtain ⟨g₀, hg₀, hkept⟩ := (sameTasks_removeUnused s f.key).before hg'
    obtain ⟨hseries, hack⟩ :=
      hs j g₀ hg₀ (by rwa [← hkept.feed_eq]) (hkept.phase_eq.symm.trans hrun)
    rw [hkept.key_eq]
    refine ⟨?_, fun htaken => ?_⟩
    · show (if f.feed.hasRing then Function.update s.seriesHandles f.key none
        else s.seriesHandles) g₀.key = some j
      split_ifs with hasRing'
      · have hne : g₀.key ≠ f.key := fun heq =>
          hj (hseriesOwn hasRing' j (by rw [← heq]; exact hseries))
        rwa [Function.update_of_ne hne]
      · exact hseries
    · have hack' := hack (hkept.not_taken htaken)
      have hne : g₀.key ≠ f.key := fun heq => hj (hackOwn j (by rw [← heq]; exact hack'))
      show Function.update s.exitAcks f.key none g₀.key = some j
      rwa [Function.update_of_ne hne]
  · rwa [exit_of_not_mayExit fun f hf => hexit ⟨f, hf⟩]

theorem coherent_init : init.Coherent where
  registered := by
    intro key mux hmux
    cases hmux
  listed := by
    intro i f hf
    cases hf

theorem ringsListed_init : init.RingsListed := by
  intro i f hf
  cases hf

/-! ## One step -/

/-- **Step lemma.** A step that tears down its own entries keeps the maps coherent. -/
theorem Coherent.apply (grace : Bool) (hs : s.Coherent) (hsound : s.view.Sound) {op : Op}
    (hown : s.OwnEntries op) : (s.apply grace op).Coherent := by
  cases op with
  | skip => exact hs
  | reuse key holder => exact (leaves_reuse s key holder).coherent hs
  | spawn key feed t holder => exact coherent_spawn hs hsound key feed _ _ holder
  | handOver a b => exact ⟨hs.registered, hs.listed⟩
  | forget holder => exact ⟨hs.registered, hs.listed⟩
  | dropRef r =>
    rcases dropRef_cases s grace r with h | h
    · exact h.coherent hs
    · exact h.coherent hs
  | expire t =>
    rcases expire_leaves_or_frees s t with h | ⟨timer, mux, -, -, -, h⟩
    · exact h.coherent hs
    · exact h.coherent hs
  | endTimer t => exact ⟨hs.registered, hs.listed⟩
  | forceUnsubscribe key =>
    show (s.forceUnsubscribe key).Coherent
    cases hmux : s.muxes key with
    | none => rwa [forceUnsubscribe_of_none hmux]
    | some mux => exact (frees_forceUnsubscribe hmux).coherent hs
  | openStore i => exact (leaves_openStore s i).coherent hs
  | leaveLoop i => exact coherent_leaveLoop hs i
  | exit i => exact coherent_exit hs hown

/-- **Step lemma.** Where entries are not taken from a forwarder in its loop either, that
    forwarder keeps them. -/
theorem RingsListed.apply (grace : Bool) (hs : s.RingsListed) {op : Op} (hown : s.OwnEntries op)
    (hloop : s.Undisturbed op) : (s.apply grace op).RingsListed := by
  cases op with
  | skip => exact hs
  | reuse key holder => exact (leaves_reuse s key holder).ringsListed hs
  | spawn key feed t holder => exact ringsListed_spawn hs hloop feed _ _ holder
  | handOver a b => exact hs
  | forget holder => exact hs
  | dropRef r =>
    show (s.dropRef grace r).RingsListed
    unfold dropRef
    cases h : s.muxes r.key with
    | none =>
      rw [releaseConsumer_of_none (by exact h)]
      exact hs
    | some mux =>
      have hmux : { s with refs := s.refs.erase r }.muxes r.key = some mux := h
      rw [releaseConsumer_of_some hmux]
      split_ifs
      · exact hs
      · exact hs
      · -- a release of the last reference removes the multiplexer alone
        rw [removeMux_of_some hmux]
        intro i f hf hasRing hrun
        obtain ⟨f₀, hf₀, hkept⟩ := (sameTasks_signal s.forwarders mux.inst).before hf
        have hring := hs i f₀ hf₀ (by rwa [← hkept.feed_eq]) (hkept.phase_eq.symm.trans hrun)
        rw [hkept.key_eq]
        exact ⟨hring.1, fun htaken => hring.2 (hkept.not_taken htaken)⟩
  | expire t =>
    rcases expire_leaves_or_frees s t with h | ⟨timer, mux, htimer, hmux, hzero, h⟩
    · exact h.ringsListed hs
    · exact h.ringsListed hs (hloop timer mux htimer hmux hzero)
  | endTimer t => exact hs
  | forceUnsubscribe key =>
    show (s.forceUnsubscribe key).RingsListed
    cases hmux : s.muxes key with
    | none => rwa [forceUnsubscribe_of_none hmux]
    | some mux =>
      exact (frees_forceUnsubscribe hmux).ringsListed hs (hloop (by rw [hmux]; rfl))
  | openStore i => exact (leaves_openStore s i).ringsListed hs
  | leaveLoop i => exact ringsListed_leaveLoop hs i
  | exit i => exact ringsListed_exit hs hown

theorem SparesNewer.refl (s : StationInner) (i : ℕ) : SparesNewer s s i :=
  fun _ _ _ => ⟨id, id, id, id⟩

theorem sparesNewer_leaveLoop {i : ℕ} (hown : s.OwnEntries (.leaveLoop i)) :
    SparesNewer s (s.leaveLoop i) i := by
  by_cases hrunning : ∃ f, s.forwarders i = some f ∧ f.phase = .running
  · obtain ⟨f, hf, hphase⟩ := hrunning
    rw [leaveLoop_of_running hf hphase]
    refine fun key j hj => ⟨id, id, id, fun hflush => ?_⟩
    show (if f.flushRx then Function.update s.flushHandles f.key none else s.flushHandles) key =
      some j
    split_ifs with hrx
    · have hne : key ≠ f.key := by
        rintro rfl
        have := hown f hf hphase hrx j hflush
        omega
      rwa [Function.update_of_ne hne]
    · exact hflush
  · rw [leaveLoop_of_not_running fun f hf hphase => hrunning ⟨f, hf, hphase⟩]
    exact SparesNewer.refl s i

theorem flushHandles_removeUnused (s : StationInner) (key : SeriesKey) :
    (s.removeUnused key).flushHandles = s.flushHandles := by
  unfold removeUnused removeMux
  split_ifs
  · cases s.muxes key <;> rfl
  · rfl

theorem sparesNewer_exit {i : ℕ} (hown : s.OwnEntries (.exit i)) : SparesNewer s (s.exit i) i := by
  by_cases hexit : ∃ f, s.MayExit i f
  · obtain ⟨f, hf⟩ := hexit
    obtain ⟨hmuxOwn, hseriesOwn, hackOwn⟩ := hown f hf
    rw [exit_of_mayExit hf]
    refine fun key j hj => ⟨fun hmux => ?_, fun hseries => ?_, fun hack => ?_, fun hflush => ?_⟩
    · show ((s.removeUnused f.key).muxes key).map Multiplexer.inst = some j
      rw [insts_removeUnused f.key hmuxOwn, if_neg]
      · exact hmux
      · rintro ⟨rfl, hi⟩
        have := Option.some.inj (hmux.symm.trans hi)
        omega
    · show (if f.feed.hasRing then Function.update s.seriesHandles f.key none
        else s.seriesHandles) key = some j
      split_ifs with hasRing
      · have hne : key ≠ f.key := by
          rintro rfl
          have := hseriesOwn hasRing j hseries
          omega
        rwa [Function.update_of_ne hne]
      · exact hseries
    · have hne : key ≠ f.key := by
        rintro rfl
        have := hackOwn j hack
        omega
      show Function.update s.exitAcks f.key none key = some j
      rwa [Function.update_of_ne hne]
    · show (s.removeUnused f.key).flushHandles key = some j
      rwa [flushHandles_removeUnused]
  · rw [exit_of_not_mayExit fun f hf => hexit ⟨f, hf⟩]
    exact SparesNewer.refl s i

/-- **Step lemma.** A forwarder that finds its own entries spares those of newer ones. -/
theorem sparesNewer_apply (grace : Bool) {op : Op} (hown : s.OwnEntries op) {i : ℕ}
    (hi : op.tearsDown = some i) : SparesNewer s (s.apply grace op) i := by
  cases op with
  | leaveLoop k =>
    obtain rfl := Option.some.inj hi
    exact sparesNewer_leaveLoop hown
  | exit k =>
    obtain rfl := Option.some.inj hi
    exact sparesNewer_exit hown
  | _ => cases hi

end StationInner

/-! ## Runs -/

namespace Station

/-- The step tears down its own entries, or none. -/
def OwnEntries (s : Station) (a : Action) : Prop := s.inner.OwnEntries (s.op a)

/-- The step takes no entry from a forwarder in its loop. -/
def Undisturbed (s : Station) (a : Action) : Prop := s.inner.Undisturbed (s.op a)

/-- **Main theorem.** In a run whose teardowns find their own entries the maps are coherent and
    no newer forwarder loses an entry; where entries are not taken from outside either, a
    forwarder in its loop has its ring and its exit ack listed. -/
theorem coherent_run (cfg : Config) (as : List Action)
    (hown : StepsMeet (step cfg) init OwnEntries as) :
    (∀ pre, pre <+: as → (run cfg pre).inner.Coherent) ∧
      (∀ pre a i, pre ++ [a] <+: as → ((run cfg pre).op a).tearsDown = some i →
        StationInner.SparesNewer (run cfg pre).inner (run cfg (pre ++ [a])).inner i) ∧
      (StepsMeet (step cfg) init Undisturbed as →
        ∀ pre, pre <+: as → (run cfg pre).inner.RingsListed) := by
  have hcut : ∀ {C : Station → Action → Prop}, StepsMeet (step cfg) init C as →
      ∀ pre, pre <+: as → StepsMeet (step cfg) init C pre :=
    fun h pre hpre pre' a h' => h pre' a (h'.trans hpre)
  refine ⟨fun pre hpre => ?_, fun pre a i hpre hi => ?_, fun hloop pre hpre => ?_⟩
  · have hinit : init.inner.view.Sound ∧ init.inner.Coherent :=
      ⟨Registry.sound_empty, StationInner.coherent_init⟩
    have hrun : (run cfg pre).inner.view.Sound ∧ (run cfg pre).inner.Coherent := by
      refine @foldl_invariant_of_steps _ _ (step cfg) init
        (fun s => s.inner.view.Sound ∧ s.inner.Coherent) _ hinit ?_ pre (hcut hown pre hpre)
      rintro s a ⟨hsound, hs⟩ ha
      exact ⟨StationInner.sound_apply cfg.grace hsound (s.op a), hs.apply cfg.grace hsound ha⟩
    exact hrun.2
  · rw [run, run, List.foldl_concat]
    exact StationInner.sparesNewer_apply cfg.grace (hown pre a hpre) hi
  · have hboth : StepsMeet (step cfg) init (fun s a => OwnEntries s a ∧ Undisturbed s a) pre :=
      stepsMeet_and.mpr ⟨hcut hown pre hpre, hcut hloop pre hpre⟩
    refine @foldl_invariant_of_steps _ _ (step cfg) init (fun s => s.inner.RingsListed) _
      StationInner.ringsListed_init ?_ pre hboth
    exact fun s a hs ha => hs.apply cfg.grace ha.1 ha.2

/-- A series is acquired, its subscriber leaves, and its forwarder is torn down. -/
def oneSubscribe : List Action :=
  [.connectWebsocket .binance .spot, .subscribe btcTrades false, .reply 1 .ok, .spawn 1,
    .dropRef { key := btcTrades, inst := 0, holder := .subscriber }, .leaveLoop 0, .exit 0]

theorem coherent_run_oneSubscribe :
    (run { native := true, grace := false } oneSubscribe).inner.Coherent := by
  refine (coherent_run { native := true, grace := false } oneSubscribe ?_).1 _
    (List.prefix_refl _)
  simp only [oneSubscribe, stepsMeet_cons]
  refine ⟨trivial, trivial, trivial, trivial, trivial, ?_, ?_, stepsMeet_nil _⟩
  · -- a trade forwarder has no flush receiver
    intro f hf _ hflush
    have hnone : ((run { native := true, grace := false } (oneSubscribe.take 5)).inner.forwarders
        0).map ForwarderTask.flushRx = some false := by decide
    have hsome := (congrArg (Option.map ForwarderTask.flushRx) hf).symm.trans hnone
    exact absurd (hflush.symm.trans (Option.some.inj hsome)) (by decide)
  · rintro f ⟨hf, -⟩
    have hbtc : ((run { native := true, grace := false } (oneSubscribe.take 6)).inner.forwarders
        0).map ForwarderTask.key = some btcTrades := by decide
    have hkey : f.key = btcTrades :=
      Option.some.inj ((congrArg (Option.map ForwarderTask.key) hf).symm.trans hbtc)
    have hmux : ((run { native := true, grace := false } (oneSubscribe.take 6)).inner.muxes
        btcTrades).map Multiplexer.inst = none := by decide
    have hseries : (run { native := true, grace := false }
        (oneSubscribe.take 6)).inner.seriesHandles btcTrades = some 0 := by decide
    have hack : (run { native := true, grace := false }
        (oneSubscribe.take 6)).inner.exitAcks btcTrades = some 0 := by decide
    rw [hkey]
    refine ⟨fun mux hm => ?_, fun _ j hj => ?_, fun j hj => ?_⟩
    · exact absurd ((congrArg (Option.map Multiplexer.inst) hm).symm.trans hmux) (by simp)
    · exact Option.some.inj (hj.symm.trans hseries)
    · exact Option.some.inj (hj.symm.trans hack)

/-- The stream of a series ends while its subscriber is there. -/
def streamEnds : List Action :=
  [.connectWebsocket .binance .spot, .subscribe btcTrades false, .reply 1 .ok, .spawn 1,
    .disconnect 0 true true, .exit 0]

/-- Its multiplexer stays registered without a forwarder. -/
theorem streamEnds_not_coherent :
    ¬ ∀ (cfg : Config) (as : List Action), (run cfg as).inner.Coherent := by
  intro h
  have hmux : ((run { native := true, grace := true } streamEnds).inner.muxes btcTrades).map
      Multiplexer.inst = some 0 := by decide
  have hphase : ((run { native := true, grace := true } streamEnds).inner.forwarders 0).map
      ForwarderTask.phase = some .exited := by decide
  obtain ⟨mux, hmux, hinst⟩ := Option.map_eq_some_iff.mp hmux
  obtain ⟨f, hf, -, hlive⟩ := (h { native := true, grace := true } streamEnds).registered _ mux hmux
  rw [hinst] at hf
  rw [hf] at hphase
  exact hlive (Option.some.inj hphase)

end Station

end Digdigdig3.Multiplex
