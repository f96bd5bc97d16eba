import Digdigdig3.Station.Multiplexer

/-!
# Reference counting of multiplexers

`consumers` counts the references of the forwarder behind a multiplexer. `release_consumer`
finds the multiplexer by key; an acquire that misses finds out after its awaits that it was
not alone, or not at all; an acquire that fails forgets what it has acquired.

* `view`: the maps as a registry of counted instances.
* `RefCountsExact`, `Conforms`: what the counting promises of a state, and of a step.
* `Safe`: when a step keeps the promise.
-/

namespace Digdigdig3.Multiplex

open Series (SeriesKey)

namespace StationInner

/-! ## The maps as a registry -/

/-- The keys of the forwarders. -/
def keys (forwarders : ℕ → Option ForwarderTask) (i : ℕ) : Option SeriesKey :=
  (forwarders i).map ForwarderTask.key

/-- Which forwarders have exited. -/
def exited (forwarders : ℕ → Option ForwarderTask) (i : ℕ) : Bool :=
  (forwarders i).any fun f => f.phase = .exited

/-- Multiplexers are entries, references are leases, forwarders are instances. -/
def view (s : StationInner) : Registry SeriesKey Holder :=
  { next := s.next
    entry := fun key => (s.muxes key).map fun mux => { inst := mux.inst, count := mux.consumers }
    leases := s.refs
    keyOf := keys s.forwarders
    ended := exited s.forwarders }

theorem keys_modify (forwarders : ℕ → Option ForwarderTask) (i : ℕ)
    {f : ForwarderTask → ForwarderTask} (hf : ∀ t, (f t).key = t.key) :
    keys (modify forwarders i f) = keys forwarders := by
  funext j
  unfold keys modify
  by_cases hj : j = i
  · subst hj
    rw [Function.update_self, Option.map_map]
    exact congrFun (congrArg Option.map (funext hf)) _
  · rw [Function.update_of_ne hj]

theorem exited_modify (forwarders : ℕ → Option ForwarderTask) (i : ℕ)
    {f : ForwarderTask → ForwarderTask} (hf : ∀ t, (f t).phase = t.phase) :
    exited (modify forwarders i f) = exited forwarders := by
  funext j
  unfold exited modify
  by_cases hj : j = i
  · subst hj
    rw [Function.update_self]
    cases forwarders j with
    | none => rfl
    | some t =>
      show decide ((f t).phase = .exited) = decide (t.phase = .exited)
      rw [hf]
  · rw [Function.update_of_ne hj]

theorem view_entry_update (s : StationInner) (key : SeriesKey) (mux : Option Multiplexer) :
    (fun k => (Function.update s.muxes key mux k).map fun mux =>
        ({ inst := mux.inst, count := mux.consumers } : RegistryEntry)) =
      Function.update s.view.entry key
        (mux.map fun mux => { inst := mux.inst, count := mux.consumers }) := by
  funext k
  by_cases hk : k = key
  · subst hk
    rw [Function.update_self, Function.update_self]
  · rw [Function.update_of_ne hk, Function.update_of_ne hk]
    rfl

theorem view_entry {s : StationInner} {key : SeriesKey} {mux : Multiplexer}
    (h : s.muxes key = some mux) :
    s.view.entry key = some { inst := mux.inst, count := mux.consumers } := by
  show (s.muxes key).map _ = _
  rw [h]
  rfl

theorem view_entry_none {s : StationInner} {key : SeriesKey} (h : s.muxes key = none) :
    s.view.entry key = none := by
  show (s.muxes key).map _ = _
  rw [h]
  rfl

/-! ## What the operations do to the registry -/

theorem view_removeMux (s : StationInner) (key : SeriesKey) :
    (s.removeMux key).view = s.view.retire key := by
  unfold removeMux
  cases h : s.muxes key with
  | none =>
    refine Registry.ext rfl ?_ rfl rfl rfl
    show s.view.entry = Function.update s.view.entry key none
    rw [← view_entry_none h, Function.update_eq_self]
  | some mux =>
    refine Registry.ext rfl (view_entry_update s key none) rfl ?_ ?_
    · exact keys_modify s.forwarders mux.inst fun _ => rfl
    · exact exited_modify s.forwarders mux.inst fun _ => rfl

theorem view_reuse (s : StationInner) (key : SeriesKey) (holder : Holder) :
    (s.reuse key holder).view = s.view.take key holder := by
  unfold reuse Registry.take
  cases h : s.muxes key with
  | none => rw [view_entry_none h]
  | some mux =>
    rw [view_entry h]
    exact Registry.ext rfl (view_entry_update s key _) rfl rfl rfl

theorem keys_update (forwarders : ℕ → Option ForwarderTask) (i : ℕ) (f : ForwarderTask) :
    keys (Function.update forwarders i (some f)) = Function.update (keys forwarders) i f.key := by
  funext j
  unfold keys
  by_cases hj : j = i
  · subst hj
    rw [Function.update_self, Function.update_self]
    rfl
  · rw [Function.update_of_ne hj, Function.update_of_ne hj]

theorem exited_update (forwarders : ℕ → Option ForwarderTask) (i : ℕ) (f : ForwarderTask) :
    exited (Function.update forwarders i (some f)) =
      Function.update (exited forwarders) i (f.phase = .exited) := by
  funext j
  unfold exited
  by_cases hj : j = i
  · subst hj
    rw [Function.update_self, Function.update_self]
    rfl
  · rw [Function.update_of_ne hj, Function.update_of_ne hj]

theorem view_spawn (s : StationInner) (key : SeriesKey) (feed : Feed) (holder : Holder) :
    (s.spawn key feed holder).view = s.view.spawn key holder := by
  have hfree := view_removeMux s key
  refine Registry.ext rfl ?_ rfl ?_ ?_
  · show (fun k => Option.map _ (Function.update (s.removeMux key).muxes key _ k)) = _
    rw [view_entry_update, hfree]
    show Function.update (Function.update s.view.entry key none) key _ = _
    rw [Function.update_idem]
    rfl
  · show keys (Function.update (s.removeMux key).forwarders s.next (some _)) = _
    rw [keys_update]
    exact congrArg (Function.update · s.next (some key)) (congrArg Registry.keyOf hfree)
  · show exited (Function.update (s.removeMux key).forwarders s.next (some _)) = _
    rw [exited_update]
    exact congrArg (Function.update · s.next false) (congrArg Registry.ended hfree)

theorem view_handOver (s : StationInner) (a b : Holder) :
    (s.handOver a b).view = s.view.handOver a b := rfl

theorem view_forget (s : StationInner) (holder : Holder) :
    (s.forget holder).view = s.view.lose holder := rfl

theorem view_releaseConsumer (s : StationInner) (grace : Bool) (key : SeriesKey) :
    (s.releaseConsumer grace key).view = s.view.uncount usizeMax key ∨
      (s.releaseConsumer grace key).view = (s.view.uncount usizeMax key).skip ∨
      (s.releaseConsumer grace key).view = (s.view.uncount usizeMax key).retire key := by
  unfold Registry.uncount
  cases h : s.muxes key with
  | none =>
    left
    rw [releaseConsumer_of_none h, view_entry_none h]
  | some mux =>
    rw [releaseConsumer_of_some h, view_entry h]
    split_ifs
    · left
      exact Registry.ext rfl (view_entry_update s key _) rfl rfl rfl
    · right; left
      exact Registry.ext rfl (view_entry_update s key _) rfl rfl rfl
    · right; right
      rw [view_removeMux]
      refine Registry.ext rfl ?_ rfl rfl rfl
      show Function.update s.view.entry key none = Function.update (Function.update _ _ _) _ _
      rw [Function.update_idem]

/-- A reference that is dropped is given back; its multiplexer may go, or a timer start. -/
theorem view_dropRef (s : StationInner) (grace : Bool) (r : MultiplexRef) :
    (s.dropRef grace r).view = s.view.giveBack usizeMax r ∨
      (s.dropRef grace r).view = (s.view.giveBack usizeMax r).skip ∨
      (s.dropRef grace r).view = (s.view.giveBack usizeMax r).retire r.key :=
  view_releaseConsumer { s with refs := s.refs.erase r } grace r.key

theorem view_expire (s : StationInner) (t : ℕ) :
    (s.expire t).view = s.view ∨ ∃ key, (s.expire t).view = s.view.retire key := by
  rcases s.expire_cases t with h | h | ⟨timer, mux, -, -, -, h⟩
  · exact Or.inl (by rw [h])
  · exact Or.inl (by rw [h]; rfl)
  · right
    refine ⟨timer.key, ?_⟩
    rw [h]
    exact view_removeMux { s with timers := Function.update s.timers t none } timer.key

theorem view_forceUnsubscribe (s : StationInner) (key : SeriesKey) :
    (s.forceUnsubscribe key).view = s.view ∨
      (s.forceUnsubscribe key).view = s.view.retire key := by
  cases hmux : s.muxes key with
  | none => exact Or.inl (by rw [forceUnsubscribe_of_none hmux])
  | some mux =>
    right
    rw [forceUnsubscribe_of_some hmux, ← view_removeMux]
    cases s.exitAcks key with
    | none => rfl
    | some i =>
      refine Registry.ext rfl rfl rfl ?_ ?_
      · exact keys_modify _ i fun _ => rfl
      · exact exited_modify _ i fun _ => rfl

theorem view_openStore (s : StationInner) (i : ℕ) : (s.openStore i).view = s.view := by
  rcases s.openStore_cases i with h | ⟨f, -, -, h⟩
  · rw [h]
  · rw [h]
    refine Registry.ext rfl rfl rfl ?_ ?_
    · exact keys_modify _ i fun _ => rfl
    · exact exited_modify _ i fun _ => rfl

/-- A phase that is replaced by another one. -/
theorem exited_modify_phase {forwarders : ℕ → Option ForwarderTask} {i : ℕ} {f : ForwarderTask}
    (hf : forwarders i = some f) (phase : Phase) :
    exited (modify forwarders i fun f => { f with phase }) =
      Function.update (exited forwarders) i (phase = .exited) := by
  unfold modify
  rw [hf]
  exact exited_update forwarders i { f with phase }

theorem view_leaveLoop (s : StationInner) (i : ℕ) : (s.leaveLoop i).view = s.view := by
  by_cases hrunning : ∃ f, s.forwarders i = some f ∧ f.phase = .running
  · obtain ⟨f, hf, hphase⟩ := hrunning
    rw [leaveLoop_of_running hf hphase]
    refine Registry.ext rfl rfl rfl (keys_modify _ i fun _ => rfl) ?_
    have hnot : exited s.forwarders i = false := by
      unfold exited
      rw [hf]
      exact decide_eq_false (by rw [hphase]; decide)
    show exited (modify s.forwarders i _) = exited s.forwarders
    rw [exited_modify_phase hf]
    show Function.update (exited s.forwarders) i false = exited s.forwarders
    rw [← hnot, Function.update_eq_self]
  · rw [leaveLoop_of_not_running fun f hf hphase => hrunning ⟨f, hf, hphase⟩]

theorem removeMux_forwarders_ne_none {s : StationInner} {i : ℕ} {f : ForwarderTask}
    (key : SeriesKey) (hf : s.forwarders i = some f) :
    ∃ f', (s.removeMux key).forwarders i = some f' := by
  unfold removeMux
  cases s.muxes key with
  | none => exact ⟨f, hf⟩
  | some mux =>
    show ∃ f', modify s.forwarders mux.inst _ i = some f'
    unfold modify
    by_cases hi : i = mux.inst
    · rw [← hi, Function.update_self, hf]
      exact ⟨_, rfl⟩
    · rw [Function.update_of_ne hi]
      exact ⟨f, hf⟩

/-- A forwarder that exits ends, and may take a multiplexer with it. -/
theorem view_exit (s : StationInner) (i : ℕ) :
    (s.exit i).view = s.view ∨ (s.exit i).view = s.view.finish i ∨
      ∃ key, (s.exit i).view = (s.view.retire key).finish i := by
  by_cases hexit : ∃ f, s.MayExit i f
  · obtain ⟨f, hf⟩ := hexit
    right
    rw [exit_of_mayExit hf]
    by_cases hzero : s.stillConsumers f.key = 0
    · right
      have hfree : s.removeUnused f.key = s.removeMux f.key := if_pos hzero
      obtain ⟨f', hf'⟩ := removeMux_forwarders_ne_none f.key hf.1
      refine ⟨f.key, ?_⟩
      rw [hfree, ← view_removeMux]
      exact Registry.ext rfl rfl rfl (keys_modify _ i fun _ => rfl)
        (exited_modify_phase hf' .exited)
    · left
      have hfree : s.removeUnused f.key = s := if_neg hzero
      rw [hfree]
      exact Registry.ext rfl rfl rfl (keys_modify _ i fun _ => rfl)
        (exited_modify_phase hf.1 .exited)
  · exact Or.inl (by rw [exit_of_not_mayExit fun f hf => hexit ⟨f, hf⟩])

/-! ## The promise -/

/-- The counting of a state: at most one forwarder of each key has not exited, and the
    `consumers` of a registered multiplexer counts the references of its forwarder. -/
structure RefCountsExact (s : StationInner) : Prop where
  oneRunning : ∀ i j f g, s.forwarders i = some f → s.forwarders j = some g → f.key = g.key →
    f.phase ≠ .exited → g.phase ≠ .exited → i = j
  counts : ∀ key mux, s.muxes key = some mux →
    mux.consumers = s.refs.countP fun r => r.inst = mux.inst

theorem keys_eq_some_iff {forwarders : ℕ → Option ForwarderTask} {i : ℕ} {key : SeriesKey} :
    keys forwarders i = some key ↔ ∃ f, forwarders i = some f ∧ f.key = key := by
  unfold keys
  exact Option.map_eq_some_iff

theorem exited_eq_false_iff {forwarders : ℕ → Option ForwarderTask} {i : ℕ} {f : ForwarderTask}
    (hf : forwarders i = some f) : exited forwarders i = false ↔ f.phase ≠ .exited := by
  unfold exited
  rw [hf]
  exact decide_eq_false_iff_not

theorem exact_view_iff (s : StationInner) : s.view.Exact ↔ s.RefCountsExact := by
  constructor
  · intro h
    refine ⟨?_, ?_⟩
    · intro i j f g hf hg hkey hfr hgr
      exact h.unique i j g.key (keys_eq_some_iff.mpr ⟨f, hf, hkey⟩)
        (keys_eq_some_iff.mpr ⟨g, hg, rfl⟩) ((exited_eq_false_iff hf).mpr hfr)
        ((exited_eq_false_iff hg).mpr hgr)
    · intro key mux hmux
      exact h.count key _ (view_entry hmux)
  · intro h
    refine ⟨?_, ?_⟩
    · intro i j key hi hj hri hrj
      obtain ⟨f, hf, hfkey⟩ := keys_eq_some_iff.mp hi
      obtain ⟨g, hg, hgkey⟩ := keys_eq_some_iff.mp hj
      exact h.oneRunning i j f g hf hg (hfkey.trans hgkey.symm)
        ((exited_eq_false_iff hf).mp hri) ((exited_eq_false_iff hg).mp hrj)
    · intro key e he
      obtain ⟨mux, hmux, rfl⟩ := Option.map_eq_some_iff.mp he
      exact h.counts key mux hmux

/-- A forwarder that the step from `s` to `s'` tells to stop has no references left. -/
def StopsUnreferenced (s s' : StationInner) : Prop :=
  ∀ i f f', s.forwarders i = some f → f.signalled = false → s'.forwarders i = some f' →
    f'.signalled = true → ∀ r ∈ s'.refs, r.inst ≠ i

/-- What the counting promises of a step. A drop does not take a counter below zero, and does
    not lower that of a newer multiplexer; a shutdown from `release_consumer` finds no
    references left. -/
def Conforms (grace : Bool) (s : StationInner) : Op → Prop
  | .dropRef r =>
    (∀ mux, s.muxes r.key = some mux → 0 < mux.consumers) ∧
    (∀ mux, s.muxes r.key = some mux → mux.inst ≠ r.inst →
      ∃ mux', (s.dropRef grace r).muxes r.key = some mux' ∧ mux'.inst = mux.inst ∧
        mux.consumers ≤ mux'.consumers) ∧
    StopsUnreferenced s (s.dropRef grace r)
  | .expire timer => StopsUnreferenced s (s.expire timer)
  | _ => True

/-- When the counting keeps its promise in a step. A spawn finds every forwarder of its key
    exited. A reference is dropped while its own multiplexer, or none, is registered. An
    acquire that fails has no reference whose multiplexer is registered. -/
def Safe (s : StationInner) : Op → Prop
  | .spawn key _ _ _ => ∀ i f, s.forwarders i = some f → f.key = key → f.phase = .exited
  | .dropRef r => ∀ mux, s.muxes r.key = some mux → mux.inst = r.inst
  | .forget holder => ∀ r ∈ s.refs, r.holder = holder →
      ∀ mux, s.muxes r.key = some mux → mux.inst ≠ r.inst
  | _ => True

/-! ## One step -/

theorem sound_apply (grace : Bool) {s : StationInner} (h : s.view.Sound) (op : Op) :
    (s.apply grace op).view.Sound := by
  cases op with
  | skip => exact h
  | reuse key holder =>
    show (s.reuse key holder).view.Sound
    rw [view_reuse]
    exact h.take key holder
  | spawn key feed t holder =>
    show (StationInner.spawn _ key feed holder).view.Sound
    rw [view_spawn, view_handOver]
    exact (h.handOver _ _).spawn key holder
  | handOver a b => exact h.handOver a b
  | forget holder => exact h.lose holder
  | dropRef r =>
    show (s.dropRef grace r).view.Sound
    rcases view_dropRef s grace r with heq | heq | heq
    · rw [heq]
      exact h.giveBack usizeMax r
    · rw [heq]
      exact (h.giveBack usizeMax r).skip
    · rw [heq]
      exact (h.giveBack usizeMax r).retire r.key
  | expire t =>
    show (s.expire t).view.Sound
    rcases view_expire s t with heq | ⟨key, heq⟩
    · rwa [heq]
    · rw [heq]
      exact h.retire key
  | endTimer t => exact h
  | forceUnsubscribe key =>
    show (s.forceUnsubscribe key).view.Sound
    rcases view_forceUnsubscribe s key with heq | heq
    · rwa [heq]
    · rw [heq]
      exact h.retire key
  | openStore i =>
    show (s.openStore i).view.Sound
    rwa [view_openStore]
  | leaveLoop i =>
    show (s.leaveLoop i).view.Sound
    rwa [view_leaveLoop]
  | exit i =>
    show (s.exit i).view.Sound
    rcases view_exit s i with heq | heq | ⟨key, heq⟩
    · rwa [heq]
    · rw [heq]
      exact h.finish i
    · rw [heq]
      exact (h.retire key).finish i

theorem removeMux_refs (s : StationInner) (key : SeriesKey) : (s.removeMux key).refs = s.refs := by
  unfold removeMux
  cases s.muxes key <;> rfl

/-- Only a multiplexer that is removed has its forwarder told to stop. -/
theorem signalled_removeMux {s : StationInner} {key : SeriesKey} {i : ℕ} {f f' : ForwarderTask}
    (hf : s.forwarders i = some f) (hnot : f.signalled = false)
    (hf' : (s.removeMux key).forwarders i = some f') (hsig : f'.signalled = true) :
    ∃ mux, s.muxes key = some mux ∧ mux.inst = i := by
  -- where the forwarder is as before, it has not been told
  have hsame : s.forwarders i = some f' → False := by
    intro h
    cases h.symm.trans hf
    rw [hnot] at hsig
    cases hsig
  cases hmux : s.muxes key with
  | none =>
    rw [removeMux_of_none hmux] at hf'
    exact (hsame hf').elim
  | some mux =>
    refine ⟨mux, rfl, ?_⟩
    by_contra hne
    rw [removeMux_of_some hmux] at hf'
    exact hsame ((modify_of_ne (Ne.symm hne) _).symm.trans hf')

theorem stopsUnreferenced_of_forwarders_eq {s s' : StationInner}
    (h : s'.forwarders = s.forwarders) : StopsUnreferenced s s' := by
  intro i f f' hf hnot hf' hsig
  rw [h, hf] at hf'
  cases hf'
  rw [hnot] at hsig
  cases hsig

theorem leasesOf_eq_zero_iff {s : StationInner} {i : ℕ} :
    s.view.leasesOf i = 0 ↔ ∀ r ∈ s.refs, r.inst ≠ i := by
  unfold Registry.leasesOf
  rw [List.countP_eq_zero]
  simp only [decide_eq_true_eq]
  rfl

/-- A grace timer stops a forwarder that has no references. -/
theorem stopsUnreferenced_expire {s : StationInner} (h : s.view.Exact) (t : ℕ) :
    StopsUnreferenced s (s.expire t) := by
  rcases s.expire_cases t with heq | heq | ⟨timer, mux, -, hmux, hzero, heq⟩
  · exact stopsUnreferenced_of_forwarders_eq (by rw [heq])
  · exact stopsUnreferenced_of_forwarders_eq (by rw [heq])
  · let fired : StationInner := { s with timers := Function.update s.timers t none }
    intro i f f' hf hnot hf' hsig
    rw [heq] at hf' ⊢
    obtain ⟨mux', hmux', rfl⟩ := signalled_removeMux (s := fired) hf hnot hf' hsig
    cases hmux.symm.trans hmux'
    have hcount : mux.consumers = s.view.leasesOf mux.inst := h.count timer.key _ (view_entry hmux)
    have hzero : s.view.leasesOf mux.inst = 0 := hcount ▸ hzero
    intro r hr
    have hr : r ∈ (fired.removeMux timer.key).refs := hr
    rw [removeMux_refs] at hr
    exact leasesOf_eq_zero_iff.mp hzero r hr

/-- A reference that is dropped while its own multiplexer, or none, is registered. -/
theorem stopsUnreferenced_dropRef {s : StationInner} (h : s.view.Exact) (grace : Bool)
    {r : MultiplexRef} (hr : r ∈ s.refs)
    (hown : ∀ mux, s.muxes r.key = some mux → mux.inst = r.inst) :
    StopsUnreferenced s (s.dropRef grace r) := by
  let dropped : StationInner := { s with refs := s.refs.erase r }
  unfold dropRef
  cases hmux : s.muxes r.key with
  | none =>
    rw [releaseConsumer_of_none (s := dropped) hmux]
    exact stopsUnreferenced_of_forwarders_eq rfl
  | some mux =>
    rw [releaseConsumer_of_some (s := dropped) hmux]
    split_ifs with hmany hgrace
    · exact stopsUnreferenced_of_forwarders_eq rfl
    · exact stopsUnreferenced_of_forwarders_eq rfl
    · intro i f f' hf hnot hf' hsig
      obtain ⟨mux', hmux', rfl⟩ := signalled_removeMux (s := dropped) hf hnot hf' hsig
      cases hmux.symm.trans hmux'
      have hinst := hown mux hmux
      have hlast : (s.view.giveBack usizeMax r).leasesOf r.inst = 0 :=
        Registry.leasesOf_giveBack_last h hr (view_entry hmux) hinst (not_lt.mp hmany)
      have hleases : (s.view.giveBack usizeMax r).leases = dropped.refs := by
        unfold Registry.giveBack Registry.uncount
        cases s.view.entry r.key <;> rfl
      intro r' hr'
      rw [removeMux_refs, ← hleases] at hr'
      rw [hinst]
      have hnone := List.countP_eq_zero.mp hlast r' hr'
      simpa using hnone

/-- A drop lowers the counter that it finds, or removes the multiplexer. -/
theorem lt_of_dropRef {s : StationInner} {grace : Bool} {r : MultiplexRef} {mux mux' : Multiplexer}
    (hmux : s.muxes r.key = some mux) (hpos : 0 < mux.consumers)
    (hmux' : (s.dropRef grace r).muxes r.key = some mux') : mux'.consumers < mux.consumers := by
  have hsub : fetchSub usizeMax mux.consumers < mux.consumers := by
    rw [fetchSub_of_pos hpos]
    omega
  let dropped : StationInner := { s with refs := s.refs.erase r }
  unfold dropRef at hmux'
  rw [releaseConsumer_of_some (s := dropped) hmux] at hmux'
  split_ifs at hmux' with hmany hgrace
  · cases (Function.update_self _ _ _).symm.trans hmux'
    exact hsub
  · cases (Function.update_self _ _ _).symm.trans hmux'
    exact hsub
  · rw [removeMux_of_some (s := dropped) hmux] at hmux'
    cases (Function.update_self _ _ _).symm.trans hmux'

theorem exact_dropRef {s : StationInner} (hs : s.view.Sound) (h : s.view.Exact) (grace : Bool)
    {r : MultiplexRef} (hr : r ∈ s.refs)
    (hown : ∀ mux, s.muxes r.key = some mux → mux.inst = r.inst) :
    (s.dropRef grace r).view.Exact := by
  have hback : (s.view.giveBack usizeMax r).Exact := by
    refine Registry.Exact.giveBack hs h hr ?_
    intro e he
    obtain ⟨mux, hmux, rfl⟩ := Option.map_eq_some_iff.mp he
    exact hown mux hmux
  rcases view_dropRef s grace r with heq | heq | heq
  · rwa [heq]
  · rw [heq]
    exact hback.skip
  · rw [heq]
    exact hback.retire r.key

/-- **Step lemma.** Where the counting is exact, a step keeps it exact and conforms to its
    promise just when it is safe. -/
theorem exact_apply_iff {grace : Bool} {s : StationInner} (hs : s.view.Sound) (h : s.view.Exact)
    (op : Op) (hmem : ∀ r, op = .dropRef r → r ∈ s.refs) :
    (s.apply grace op).view.Exact ∧ s.Conforms grace op ↔ s.Safe op := by
  cases op with
  | skip => exact iff_of_true ⟨h, trivial⟩ trivial
  | reuse key holder =>
    refine iff_of_true ⟨?_, trivial⟩ trivial
    show (s.reuse key holder).view.Exact
    rw [view_reuse]
    exact h.take hs key holder
  | spawn key feed t holder =>
    rw [show s.apply grace (.spawn key feed t holder) =
      (s.handOver (.acquire t) (.forwarder s.next)).spawn key feed holder from rfl]
    rw [view_spawn, view_handOver,
      Registry.exact_spawn_iff (hs.handOver _ _) (h.handOver _ _) key holder]
    show _ ∧ True ↔ _
    rw [and_true]
    constructor
    · intro hall i f hf hkey
      have hend := hall i (keys_eq_some_iff.mpr ⟨f, hf, hkey⟩)
      by_contra hne
      have hnot := (exited_eq_false_iff hf).mpr hne
      rw [show exited s.forwarders i = true from hend] at hnot
      cases hnot
    · intro hsafe i hi
      obtain ⟨f, hf, hkey⟩ := keys_eq_some_iff.mp hi
      by_contra hne
      exact (exited_eq_false_iff hf).mp (Bool.eq_false_of_not_eq_true hne) (hsafe i f hf hkey)
  | handOver a b => exact iff_of_true ⟨h.handOver a b, trivial⟩ trivial
  | forget holder =>
    rw [show s.apply grace (.forget holder) = s.forget holder from rfl, view_forget,
      Registry.exact_lose_iff hs h holder]
    show _ ∧ True ↔ _
    rw [and_true]
    constructor
    · intro hall r hr hholder mux hmux
      exact hall r hr hholder _ (view_entry hmux)
    · intro hsafe r hr hholder e he
      obtain ⟨mux, hmux, rfl⟩ := Option.map_eq_some_iff.mp he
      exact hsafe r hr hholder mux hmux
  | dropRef r =>
    have hr := hmem r rfl
    constructor
    · rintro ⟨-, hpos, hlower, -⟩ mux hmux
      by_contra hne
      obtain ⟨mux', hmux', -, hle⟩ := hlower mux hmux hne
      exact absurd hle (not_le.mpr (lt_of_dropRef hmux (hpos mux hmux) hmux'))
    · intro hown
      refine ⟨exact_dropRef hs h grace hr hown, ?_, ?_, ?_⟩
      · intro mux hmux
        have hcount : mux.consumers = s.view.leasesOf mux.inst := h.count _ _ (view_entry hmux)
        rw [hcount, hown mux hmux]
        exact Registry.leasesOf_pos hr
      · intro mux hmux hne
        exact absurd (hown mux hmux) hne
      · exact stopsUnreferenced_dropRef h grace hr hown
  | expire t =>
    refine iff_of_true ⟨?_, stopsUnreferenced_expire h t⟩ trivial
    show (s.expire t).view.Exact
    rcases view_expire s t with heq | ⟨key, heq⟩
    · rwa [heq]
    · rw [heq]
      exact h.retire key
  | endTimer t => exact iff_of_true ⟨h, trivial⟩ trivial
  | forceUnsubscribe key =>
    refine iff_of_true ⟨?_, trivial⟩ trivial
    show (s.forceUnsubscribe key).view.Exact
    rcases view_forceUnsubscribe s key with heq | heq
    · rwa [heq]
    · rw [heq]
      exact h.retire key
  | openStore i =>
    refine iff_of_true ⟨?_, trivial⟩ trivial
    show (s.openStore i).view.Exact
    rwa [view_openStore]
  | leaveLoop i =>
    refine iff_of_true ⟨?_, trivial⟩ trivial
    show (s.leaveLoop i).view.Exact
    rwa [view_leaveLoop]
  | exit i =>
    refine iff_of_true ⟨?_, trivial⟩ trivial
    show (s.exit i).view.Exact
    rcases view_exit s i with heq | heq | ⟨key, heq⟩
    · rwa [heq]
    · rw [heq]
      exact h.finish i
    · rw [heq]
      exact (h.retire key).finish i

end StationInner

/-! ## Runs -/

namespace Station

theorem op_eq_dropRef {s : Station} {a : Action} {r : MultiplexRef}
    (h : s.op a = .dropRef r) : r ∈ s.inner.refs := by
  cases a with
  | dropRef r' =>
    simp only [op] at h
    split_ifs at h with hmem
    cases h
    exact hmem.1
  | _ => grind [op]

/-- **Main theorem.** The counting is exact in every state of a run, and every step of it
    conforms, just when every step of the run is safe. -/
theorem refCounting_exact_iff (cfg : Config) (as : List Action) :
    ((∀ pre, pre <+: as → (run cfg pre).inner.RefCountsExact) ∧
      StepsMeet (step cfg) init (fun s a => s.inner.Conforms cfg.grace (s.op a)) as) ↔
      StepsMeet (step cfg) init (fun s a => s.inner.Safe (s.op a)) as := by
  have hinit : init.inner.view.Sound ∧ init.inner.view.Exact :=
    ⟨Registry.sound_empty, Registry.exact_empty⟩
  have hexact : ((∀ pre, pre <+: as → (run cfg pre).inner.RefCountsExact) ↔
      StepsMeet (step cfg) init (fun s a => (s.step cfg a).inner.RefCountsExact) as) := by
    have hprefix : (∀ pre, pre <+: as → (run cfg pre).inner.RefCountsExact) ↔
        init.inner.RefCountsExact ∧
          StepsMeet (step cfg) init (fun s a => (s.step cfg a).inner.RefCountsExact) as :=
      forall_prefix_iff_stepsMeet (P := fun s : Station => s.inner.RefCountsExact)
    rwa [and_iff_right ((StationInner.exact_view_iff _).mp hinit.2)] at hprefix
  rw [hexact, ← stepsMeet_and]
  refine stepsMeet_congr (fun s => s.inner.view.Sound ∧ s.inner.view.Exact) hinit ?_ ?_ as
  · rintro s a ⟨hs, -⟩ ⟨hnext, -⟩
    exact ⟨StationInner.sound_apply cfg.grace hs (s.op a),
      (StationInner.exact_view_iff _).mpr hnext⟩
  · rintro s a ⟨hs, h⟩
    rw [← StationInner.exact_view_iff]
    exact StationInner.exact_apply_iff hs h (s.op a) fun r hr => op_eq_dropRef hr

/-- Trades of BTC against USDT on Binance. -/
def btcTrades : SeriesKey :=
  { exchange := .binance, accountType := .spot, symbol := "BTCUSDT", kind := .trade }

/-- Two subscribes of one series, the second of which looks before the first has inserted its
    multiplexer; then the first subscriber leaves. -/
def twoSubscribes : List Action :=
  [.connectWebsocket .binance .spot, .subscribe btcTrades false, .subscribe btcTrades false,
    .reply 1 .ok, .reply 2 .ok, .spawn 1, .spawn 2,
    .dropRef { key := btcTrades, inst := 0, holder := .subscriber }]

/-- Both forwarders run, and the second is told to stop while its subscriber is still there. -/
theorem twoSubscribes_not_exact :
    ¬((∀ pre, pre <+: twoSubscribes →
          (run { native := true, grace := false } pre).inner.RefCountsExact) ∧
        StepsMeet (step { native := true, grace := false }) init
          (fun s a => s.inner.Conforms false (s.op a)) twoSubscribes) ∧
      ((run { native := true, grace := false } twoSubscribes).inner.forwarders 1).map
          ForwarderTask.signalled = some true ∧
      { key := btcTrades, inst := 1, holder := .subscriber } ∈
        (run { native := true, grace := false } twoSubscribes).inner.refs := by
  have hphase : ∀ i < 2,
      ((run { native := true, grace := false } twoSubscribes).inner.forwarders i).map
        (fun f => (f.key, f.phase)) = some (btcTrades, .running) := by decide +kernel
  refine ⟨?_, by decide +kernel, by decide +kernel⟩
  rintro ⟨hexact, -⟩
  obtain ⟨f, hf, hfrun⟩ := Option.map_eq_some_iff.mp (hphase 0 (by omega))
  obtain ⟨g, hg, hgrun⟩ := Option.map_eq_some_iff.mp (hphase 1 (by omega))
  obtain ⟨hfkey, hfphase⟩ := Prod.mk.inj hfrun
  obtain ⟨hgkey, hgphase⟩ := Prod.mk.inj hgrun
  have hone := (hexact twoSubscribes (List.prefix_refl _)).oneRunning 0 1 f g hf hg
    (hfkey.trans hgkey.symm) (by rw [hfphase]; decide) (by rw [hgphase]; decide)
  cases hone

end Station

end Digdigdig3.Multiplex
