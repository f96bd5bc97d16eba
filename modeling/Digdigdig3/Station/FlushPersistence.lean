import Digdigdig3.Series.Recovery
import Digdigdig3.Station.References

/-!
# `flush_persistence`

A call of `flush_persistence` (`crates/digdigdig3-station/src/station.rs` lines 466–507) asks
every registered forwarder in turn to flush its `DiskStore` and waits for the answer. A
forwarder answers in its loop; on its way out it unregisters, flushes once more without telling
anybody, and drops the channel at the very end.

The step function is that of `StationInner` with the stores, the flush channels and the calls
around it: any number of forwarders and calls, which take their steps in any order.

Results:
* `Moved`, `moved_apply`: what an operation of the station does to the forwarders.
* `Sound`, `Sound.step`: whose request is where.
* `flushPersistence_accounts`: what a call that has returned guarantees, and what is read back
  after a crash.
* `flushPersistence_returns`: no call waits in vain.
-/

namespace Digdigdig3.Multiplex

open Series (SeriesKey DataPoint)
open Series.DiskStore (ledger)

/-! ## What the station does to its forwarders -/

namespace StationInner

/-- Of a forwarder: its key, its phase, and whether it has a store. -/
def stageOf (forwarders : ℕ → Option ForwarderTask) (i : ℕ) : Option (SeriesKey × Phase × Bool) :=
  (forwarders i).map fun f => (f.key, f.phase, f.flushRx)

def stage (s : StationInner) : ℕ → Option (SeriesKey × Phase × Bool) := stageOf s.forwarders

/-- What an operation can do to the forwarders and to `flush_handles`. -/
inductive Moved (s s' : StationInner) : Op → Prop
  | quiet {op : Op} (stage_eq : s'.stage = s.stage)
      (handles_eq : s'.flushHandles = s.flushHandles) : Moved s s' op
  | spawned {key : SeriesKey} {feed : Feed} {t : ℕ} {holder : Holder}
      (fresh : s.stage s.next = none)
      (stage_eq : s'.stage = Function.update s.stage s.next (some (key, .running, false)))
      (handles_eq : s'.flushHandles = s.flushHandles) : Moved s s' (.spawn key feed t holder)
  | opened {i : ℕ} (key : SeriesKey) (running : s.stage i = some (key, .running, false))
      (stage_eq : s'.stage = Function.update s.stage i (some (key, .running, true)))
      (handles_eq : s'.flushHandles = Function.update s.flushHandles key (some i)) :
      Moved s s' (.openStore i)
  | left {i : ℕ} (key : SeriesKey) (rx : Bool) (running : s.stage i = some (key, .running, rx))
      (stage_eq : s'.stage = Function.update s.stage i (some (key, .stopping, rx)))
      (handles_eq : s'.flushHandles =
        if rx then Function.update s.flushHandles key none else s.flushHandles) :
      Moved s s' (.leaveLoop i)
  | ended {i : ℕ} (key : SeriesKey) (rx : Bool)
      (stopping : s.stage i = some (key, .stopping, rx))
      (stage_eq : s'.stage = Function.update s.stage i (some (key, .exited, rx)))
      (handles_eq : s'.flushHandles = s.flushHandles) : Moved s s' (.exit i)

theorem stageOf_modify (forwarders : ℕ → Option ForwarderTask) (i : ℕ)
    (change : ForwarderTask → ForwarderTask) :
    stageOf (modify forwarders i change) = Function.update (stageOf forwarders) i
      ((forwarders i).map fun f => ((change f).key, (change f).phase, (change f).flushRx)) := by
  funext j
  by_cases hj : j = i
  · subst hj
    rw [Function.update_self, stageOf, modify_self, Option.map_map]
    rfl
  · rw [Function.update_of_ne hj, stageOf, modify_of_ne hj]
    rfl

theorem stageOf_modify_same (forwarders : ℕ → Option ForwarderTask) (i : ℕ)
    {change : ForwarderTask → ForwarderTask}
    (hchange : ∀ f, ((change f).key, (change f).phase, (change f).flushRx) =
      (f.key, f.phase, f.flushRx)) :
    stageOf (modify forwarders i change) = stageOf forwarders := by
  rw [stageOf_modify]
  simp only [hchange]
  exact Function.update_eq_self i _

theorem stageOf_signal (forwarders : ℕ → Option ForwarderTask) (i : ℕ) :
    stageOf (signal forwarders i) = stageOf forwarders :=
  stageOf_modify_same forwarders i fun _ => rfl

theorem stage_removeMux (s : StationInner) (key : SeriesKey) :
    (s.removeMux key).stage = s.stage := by
  unfold removeMux
  cases s.muxes key with
  | none => rfl
  | some mux => exact stageOf_signal s.forwarders mux.inst

theorem flushHandles_removeMux (s : StationInner) (key : SeriesKey) :
    (s.removeMux key).flushHandles = s.flushHandles := by
  unfold removeMux
  cases s.muxes key <;> rfl

theorem moved_dropRef (s : StationInner) (grace : Bool) (r : MultiplexRef) (op : Op) :
    Moved s (s.dropRef grace r) op := by
  unfold dropRef releaseConsumer
  cases hmux : s.muxes r.key with
  | none => exact .quiet rfl rfl
  | some mux =>
    simp only
    split_ifs
    · exact .quiet rfl rfl
    · exact .quiet rfl rfl
    · exact .quiet (stage_removeMux _ _) (flushHandles_removeMux _ _)

theorem moved_expire (s : StationInner) (t : ℕ) (op : Op) : Moved s (s.expire t) op := by
  rcases expire_cases s t with h | h | ⟨timer, mux, -, -, -, h⟩
  · rw [h]
    exact .quiet rfl rfl
  · rw [h]
    exact .quiet rfl rfl
  · rw [h]
    exact .quiet (stage_removeMux _ _) (flushHandles_removeMux _ _)

theorem moved_forceUnsubscribe (s : StationInner) (key : SeriesKey) (op : Op) :
    Moved s (s.forceUnsubscribe key) op := by
  cases hmux : s.muxes key with
  | none =>
    rw [forceUnsubscribe_of_none hmux]
    exact .quiet rfl rfl
  | some mux =>
    rw [forceUnsubscribe_of_some hmux]
    refine .quiet ?_ (flushHandles_removeMux _ _)
    refine Eq.trans ?_ (stage_removeMux s key)
    unfold stage
    dsimp only
    split
    · rfl
    · exact stageOf_modify_same _ _ fun _ => rfl

theorem stage_eq_none_of_fresh {s : StationInner} (h : s.view.Sound) : s.stage s.next = none := by
  have hkey := h.fresh s.next le_rfl
  have hnone : s.forwarders s.next = none := by
    cases hf : s.forwarders s.next with
    | none => rfl
    | some f =>
      have hsome : s.view.keyOf s.next = some f.key := keys_eq_some_iff.mpr ⟨f, hf, rfl⟩
      exact absurd (hsome.symm.trans hkey) nofun
  rw [stage, stageOf, hnone]
  rfl

theorem stage_exit {s : StationInner} {i : ℕ} {f : ForwarderTask} (hf : s.MayExit i f) :
    (s.exit i).stage = Function.update s.stage i (some (f.key, .exited, f.flushRx)) ∧
      (s.exit i).flushHandles = s.flushHandles := by
  have hsame : stageOf (s.removeUnused f.key).forwarders = stageOf s.forwarders ∧
      (s.removeUnused f.key).flushHandles = s.flushHandles := by
    unfold removeUnused
    split_ifs
    · exact ⟨stage_removeMux s f.key, flushHandles_removeMux s f.key⟩
    · exact ⟨rfl, rfl⟩
  have hsome : stageOf (s.removeUnused f.key).forwarders i =
      some (f.key, .stopping, f.flushRx) := by
    rw [hsame.1, stageOf, hf.1, Option.map_some, hf.2.1]
  obtain ⟨g, hg, hfields⟩ := Option.map_eq_some_iff.mp hsome
  simp only [Prod.mk.injEq] at hfields
  rw [exit_of_mayExit hf]
  refine ⟨(stageOf_modify (s.removeUnused f.key).forwarders i _).trans ?_, hsame.2⟩
  rw [hsame.1, hg, Option.map_some, hfields.1, hfields.2.2]
  rfl

/-- An operation that is not one of those below does nothing that a flush can see. -/
theorem moved_apply (grace : Bool) {s : StationInner} (hsound : s.view.Sound) (op : Op) :
    Moved s (s.apply grace op) op := by
  cases op with
  | skip => exact .quiet rfl rfl
  | reuse key holder =>
    show Moved s (s.reuse key holder) _
    unfold reuse
    cases s.muxes key <;> exact .quiet rfl rfl
  | spawn key feed t holder =>
    refine .spawned (stage_eq_none_of_fresh hsound) ?_ (flushHandles_removeMux _ _)
    funext j
    show stageOf (Function.update (removeMux _ key).forwarders s.next _) j = _
    by_cases hj : j = s.next
    · subst hj
      rw [Function.update_self, stageOf, Function.update_self]
      rfl
    · rw [Function.update_of_ne hj, stageOf, Function.update_of_ne hj]
      exact congrFun (stage_removeMux (s.handOver (.acquire t) (.forwarder s.next)) key) j
  | handOver a b => exact .quiet rfl rfl
  | forget holder => exact .quiet rfl rfl
  | dropRef r => exact moved_dropRef s grace r _
  | expire t => exact moved_expire s t _
  | endTimer t => exact .quiet rfl rfl
  | forceUnsubscribe key => exact moved_forceUnsubscribe s key _
  | openStore i =>
    show Moved s (s.openStore i) _
    cases hf : s.forwarders i with
    | none =>
      simp only [openStore, hf]
      exact .quiet rfl rfl
    | some f =>
      by_cases hopen : f.phase = .running ∧ f.flushRx = false
      · simp only [openStore, hf, if_pos hopen]
        refine .opened f.key ?_ ?_ rfl
        · rw [stage, stageOf, hf, Option.map_some, hopen.1, hopen.2]
        · refine (stageOf_modify s.forwarders i _).trans ?_
          rw [hf, Option.map_some, hopen.1]
          rfl
      · simp only [openStore, hf, if_neg hopen]
        exact .quiet rfl rfl
  | leaveLoop i =>
    show Moved s (s.leaveLoop i) _
    by_cases hrunning : ∃ f, s.forwarders i = some f ∧ f.phase = .running
    · obtain ⟨f, hf, hphase⟩ := hrunning
      rw [leaveLoop_of_running hf hphase]
      refine .left f.key f.flushRx ?_ ?_ rfl
      · rw [stage, stageOf, hf, Option.map_some, hphase]
      · refine (stageOf_modify s.forwarders i _).trans ?_
        rw [hf]
        rfl
    · rw [leaveLoop_of_not_running fun f hf hphase => hrunning ⟨f, hf, hphase⟩]
      exact .quiet rfl rfl
  | exit i =>
    show Moved s (s.exit i) _
    by_cases hexit : ∃ f, s.MayExit i f
    · obtain ⟨f, hf⟩ := hexit
      obtain ⟨hstage, hhandles⟩ := stage_exit hf
      refine .ended f.key f.flushRx ?_ hstage hhandles
      rw [stage, stageOf, hf.1, Option.map_some, hf.2.1]
    · rw [exit_of_not_mayExit fun f hf => hexit ⟨f, hf⟩]
      exact .quiet rfl rfl

variable {s s' : StationInner} {op : Op}

/-- What an operation does to one forwarder. -/
theorem Moved.stage_cases (h : Moved s s' op) (i : ℕ) :
    s'.stage i = s.stage i ∨
      (∃ key, s.stage i = none ∧ s'.stage i = some (key, .running, false)) ∨
      (∃ key, op = .openStore i ∧ s.stage i = some (key, .running, false) ∧
        s'.stage i = some (key, .running, true)) ∨
      (∃ key rx, op = .leaveLoop i ∧ s.stage i = some (key, .running, rx) ∧
        s'.stage i = some (key, .stopping, rx)) ∨
      ∃ key rx, op = .exit i ∧ s.stage i = some (key, .stopping, rx) ∧
        s'.stage i = some (key, .exited, rx) := by
  have hother : ∀ {j : ℕ} {v : Option (SeriesKey × Phase × Bool)},
      s'.stage = Function.update s.stage j v → i ≠ j → s'.stage i = s.stage i := by
    intro j v hupdate hne
    rw [hupdate, Function.update_of_ne hne]
  have hself : ∀ {v : Option (SeriesKey × Phase × Bool)},
      s'.stage = Function.update s.stage i v → s'.stage i = v := by
    intro v hupdate
    rw [hupdate, Function.update_self]
  cases h with
  | quiet stage_eq => exact .inl (congrFun stage_eq i)
  | @spawned key feed t holder fresh stage_eq =>
    by_cases hi : i = s.next
    · subst hi
      exact .inr (.inl ⟨key, fresh, hself stage_eq⟩)
    · exact .inl (hother stage_eq hi)
  | @opened j key running stage_eq =>
    by_cases hi : i = j
    · subst hi
      exact .inr (.inr (.inl ⟨key, rfl, running, hself stage_eq⟩))
    · exact .inl (hother stage_eq hi)
  | @left j key rx running stage_eq =>
    by_cases hi : i = j
    · subst hi
      exact .inr (.inr (.inr (.inl ⟨key, rx, rfl, running, hself stage_eq⟩)))
    · exact .inl (hother stage_eq hi)
  | @ended j key rx stopping stage_eq =>
    by_cases hi : i = j
    · subst hi
      exact .inr (.inr (.inr (.inr ⟨key, rx, rfl, stopping, hself stage_eq⟩)))
    · exact .inl (hother stage_eq hi)

/-- A forwarder keeps its key and its store. -/
theorem Moved.stored (h : Moved s s' op) {i : ℕ} {key : SeriesKey} {phase : Phase}
    (hi : s.stage i = some (key, phase, true)) :
    ∃ phase', s'.stage i = some (key, phase', true) := by
  rcases h.stage_cases i with heq | ⟨_, hnone, -⟩ | ⟨_, -, hbefore, hafter⟩ |
    ⟨_, _, -, hbefore, hafter⟩ | ⟨_, _, -, hbefore, hafter⟩
  · exact ⟨phase, heq.trans hi⟩
  · exact absurd (hi.symm.trans hnone) nofun
  · exact absurd (hi.symm.trans hbefore) (by simp)
  · cases hi.symm.trans hbefore
    exact ⟨_, hafter⟩
  · cases hi.symm.trans hbefore
    exact ⟨_, hafter⟩

/-- A handle that is registered was there before, or belongs to the forwarder that has just
    opened its store. -/
theorem Moved.handle_cases (h : Moved s s' op) {key : SeriesKey} {i : ℕ}
    (hi : s'.flushHandles key = some i) :
    s.flushHandles key = some i ∨ s'.stage i = some (key, .running, true) := by
  cases h with
  | quiet _ handles_eq => exact .inl (handles_eq ▸ hi)
  | spawned _ _ handles_eq => exact .inl (handles_eq ▸ hi)
  | ended _ _ _ _ handles_eq => exact .inl (handles_eq ▸ hi)
  | opened k _ stage_eq handles_eq =>
    rw [handles_eq, Function.update_apply] at hi
    split_ifs at hi with hk
    · cases hi
      exact .inr (by rw [stage_eq, Function.update_self, hk])
    · exact .inl hi
  | left k rx _ _ handles_eq =>
    rw [handles_eq] at hi
    split_ifs at hi
    · rw [Function.update_apply] at hi
      split_ifs at hi
      exact .inl hi
    · exact .inl hi

end StationInner

/-! ## The protocol -/

/-- What a forwarder keeps for its `DiskStore`: what it has done with it, the request in its
    flush channel, which holds one, the request that it has received and not answered, and how
    its final flush went. Requests are the numbers of the calls they come from. -/
structure Persistence (P : Type) where
  ops : List (Series.DiskStore.Op P)
  slot : Option ℕ
  serving : Option ℕ
  final : Option Bool

/-- Where a call is with the first of its handles: before `handle.0.send`, before the answer, or
    behind it. -/
inductive FlushStage (ε : Type)
  | sending
  | waiting
  | acked (result : Except ε Unit)

/-- A call of `flush_persistence`: the handles it has not done yet, with their forwarders, the
    errors so far, and what it has returned. -/
structure FlushCall (ε : Type) where
  handles : List (SeriesKey × ℕ)
  stage : FlushStage ε
  errors : List (SeriesKey × ε)
  returned : Option (Except (List (SeriesKey × ε)) Unit)

/-- The station with the stores of its forwarders and the calls of `flush_persistence`. -/
structure FlushSystem (P ε : Type) where
  inner : StationInner
  stores : ℕ → Persistence P
  nextCall : ℕ
  calls : ℕ → Option (FlushCall ε)

/-- A step of the station, of a forwarder, or of a call. A forwarder also flushes unasked: after
    a heal, and on wasm every 64 appends. A flush that fails makes nothing durable. -/
inductive FlushAction (P ε : Type)
  | station (op : StationInner.Op)
  | append (i : ℕ) (point : P)
  | flush (i : ℕ)
  | receive (i : ℕ)
  | answer (i : ℕ) (result : Except ε Unit)
  | finalFlush (i : ℕ) (ok : Bool)
  /-- A new call, whose iteration over `flush_handles` comes across `keys`. -/
  | call (keys : List SeriesKey)
  | proceed (c : ℕ)

/-- What a forwarder in the stage `stage` keeps: a request is answered in the loop, the final flush
    comes after it, and what is flushed is what has been appended, up to what is pending. -/
structure Persistence.Sound (stage : Option (SeriesKey × Phase × Bool)) (store : Persistence P) :
    Prop where
  apart : ∀ c, store.serving = some c → store.slot ≠ some c
  inLoop : store.serving ≠ none → ∃ key, stage = some (key, .running, true)
  left : store.final ≠ none → ∃ key phase, stage = some (key, phase, true) ∧ phase ≠ .running
  final : ∀ key, stage = some (key, .exited, true) → store.final ≠ none
  kept : (ledger store.ops).appended = (ledger store.ops).flushed ++ (ledger store.ops).pending
  drained : store.final = some true → (ledger store.ops).pending = []

section Stores

variable {P : Type} {stage : Option (SeriesKey × Phase × Bool)} {store : Persistence P}

theorem ledger_concat (ops : List (Series.DiskStore.Op P)) (op : Series.DiskStore.Op P) :
    ledger (ops ++ [op]) = (ledger ops).step op := List.foldl_concat ..

theorem Persistence.sound_init : (⟨[], none, none, none⟩ : Persistence P).Sound none where
  apart _ h := absurd h (by simp)
  inLoop h := absurd rfl h
  left h := absurd rfl h
  final _ h := absurd h (by simp)
  kept := rfl
  drained h := absurd h (by simp)

theorem Persistence.Sound.append (h : store.Sound stage) {key : SeriesKey}
    (hstage : stage = some (key, .running, true)) (point : P) :
    Persistence.Sound stage { store with ops := store.ops ++ [.append point] } := by
  refine ⟨h.apart, h.inLoop, h.left, h.final, ?_, fun hfinal => ?_⟩
  · show (ledger (store.ops ++ [.append point])).appended =
      (ledger (store.ops ++ [.append point])).flushed ++
        (ledger (store.ops ++ [.append point])).pending
    rw [ledger_concat]
    show (ledger store.ops).appended ++ [point] =
      (ledger store.ops).flushed ++ ((ledger store.ops).pending ++ [point])
    rw [h.kept, List.append_assoc]
  · -- nothing is appended behind the final flush
    obtain ⟨key', phase, hleft, hphase⟩ :=
      h.left (by rw [show store.final = some true from hfinal]; nofun)
    cases hstage.symm.trans hleft
    exact absurd rfl hphase

theorem ledger_flush (ops : List (Series.DiskStore.Op P)) :
    ledger (ops ++ [.flush]) =
      ⟨(ledger ops).appended, (ledger ops).flushed ++ (ledger ops).pending, []⟩ :=
  ledger_concat ops .flush

/-- A flush in the loop, asked for or not. -/
theorem Persistence.Sound.flush (h : store.Sound stage) (slot serving : Option ℕ)
    (hapart : ∀ c, serving = some c → slot ≠ some c)
    (hloop : serving ≠ none → ∃ key, stage = some (key, .running, true)) :
    Persistence.Sound stage { store with ops := store.ops ++ [.flush], slot, serving } := by
  refine ⟨hapart, hloop, h.left, h.final, ?_, fun _ => ?_⟩
  · show (ledger (store.ops ++ [.flush])).appended = (ledger (store.ops ++ [.flush])).flushed ++
      (ledger (store.ops ++ [.flush])).pending
    rw [ledger_flush, List.append_nil]
    exact h.kept
  · show (ledger (store.ops ++ [.flush])).pending = []
    rw [ledger_flush]

/-- The requests of a forwarder change. -/
theorem Persistence.Sound.requests (h : store.Sound stage) (slot serving : Option ℕ)
    (hapart : ∀ c, serving = some c → slot ≠ some c)
    (hloop : serving ≠ none → ∃ key, stage = some (key, .running, true)) :
    Persistence.Sound stage { store with slot, serving } :=
  ⟨hapart, hloop, h.left, h.final, h.kept, h.drained⟩

theorem Persistence.Sound.finalFlush (h : store.Sound stage) {key : SeriesKey}
    (hstage : stage = some (key, .stopping, true)) (ok : Bool) :
    Persistence.Sound stage { store with
      ops := if ok then store.ops ++ [.flush] else store.ops, final := some ok } := by
  refine ⟨h.apart, h.inLoop, fun _ => ⟨key, .stopping, hstage, nofun⟩, fun _ _ => nofun, ?_,
    fun hok => ?_⟩
  · cases ok with
    | false => exact h.kept
    | true =>
      show (ledger (store.ops ++ [.flush])).appended = (ledger (store.ops ++ [.flush])).flushed ++
        (ledger (store.ops ++ [.flush])).pending
      rw [ledger_flush, List.append_nil]
      exact h.kept
  · obtain rfl : ok = true := Option.some.inj hok
    show (ledger (store.ops ++ [.flush])).pending = []
    rw [ledger_flush]

/-- An operation of the station takes a forwarder into another stage. -/
theorem Persistence.Sound.moved {inner inner' : StationInner} {op : StationInner.Op} {i : ℕ}
    (h : store.Sound (inner.stage i)) (hmoved : inner.Moved inner' op)
    (hserving : op = .leaveLoop i → store.serving = none)
    (hfinal : op = .exit i → (∃ key phase, inner.stage i = some (key, phase, true)) →
      store.final ≠ none) :
    store.Sound (inner'.stage i) := by
  rcases hmoved.stage_cases i with heq | ⟨key, hbefore, hafter⟩ | ⟨key, -, hbefore, hafter⟩ |
    ⟨key, rx, hleave, hbefore, hafter⟩ | ⟨key, rx, hexit, hbefore, hafter⟩
  · exact heq ▸ h
  all_goals rw [hbefore] at h; rw [hafter]
  · exact ⟨h.apart, fun hs => absurd (h.inLoop hs) (by simp),
      fun hs => absurd (h.left hs) (by simp),
      fun _ hs => absurd hs (by simp), h.kept, h.drained⟩
  · exact ⟨h.apart, fun _ => ⟨key, rfl⟩, fun hs => absurd (h.left hs) (by simp),
      fun _ hs => absurd hs (by simp), h.kept, h.drained⟩
  · refine ⟨h.apart, fun hs => absurd (hserving hleave) hs, fun hs => ?_,
      fun _ hs => absurd hs (by simp), h.kept, h.drained⟩
    obtain ⟨key', phase, hstage, hphase⟩ := h.left hs
    cases hstage
    exact absurd rfl hphase
  · refine ⟨h.apart, fun hs => absurd (h.inLoop hs) (by simp), fun hs => ?_, fun key' hs => ?_,
      h.kept, h.drained⟩
    · obtain ⟨key', phase, hstage, -⟩ := h.left hs
      cases hstage
      exact ⟨key, .exited, rfl, nofun⟩
    · cases hs
      exact hfinal hexit ⟨key, .stopping, hbefore⟩

end Stores

namespace FlushSystem

variable {P ε : Type}

def init : FlushSystem P ε :=
  { inner := .init, stores := fun _ => ⟨[], none, none, none⟩, nextCall := 0,
    calls := fun _ => none }

/-- The forwarder is at the `select!` of its loop, with a store. -/
def ready (s : FlushSystem P ε) (i : ℕ) : Bool :=
  (s.inner.stage i).any (fun st => st.2.1 = .running ∧ st.2.2) ∧ (s.stores i).serving = none

/-- The forwarder has left its loop and has a store to flush. -/
def leaving (s : FlushSystem P ε) (i : ℕ) : Bool :=
  (s.inner.stage i).any (fun st => st.2.1 = .stopping ∧ st.2.2) ∧ (s.stores i).final = none

/-- The forwarder has returned and dropped its `flush_rx`. -/
def gone (s : FlushSystem P ε) (i : ℕ) : Bool :=
  (s.inner.stage i).any fun st => st.2.1 = .exited

/-- A forwarder does not leave its loop while it answers a request, and its final flush is
    behind it when it returns. -/
def mayDo (s : FlushSystem P ε) : StationInner.Op → Bool
  | .leaveLoop i => (s.stores i).serving.isNone
  | .exit i => !(s.inner.stage i).any (fun st => st.2.2) || (s.stores i).final.isSome
  | _ => true

def setStore (s : FlushSystem P ε) (i : ℕ) (store : Persistence P) : FlushSystem P ε :=
  { s with stores := Function.update s.stores i store }

def setCall (s : FlushSystem P ε) (c : ℕ) (call : FlushCall ε) : FlushSystem P ε :=
  { s with calls := Function.update s.calls c (some call) }

/-- The snapshot of the registered handles (lines 467–472). -/
def snapshot (s : FlushSystem P ε) (keys : List SeriesKey) : List (SeriesKey × ℕ) :=
  keys.filterMap fun key => (s.inner.flushHandles key).map fun i => (key, i)

/-- The arm of a request in the loop (lines 3220–3223): the flush, and its answer. -/
def answer (s : FlushSystem P ε) (i : ℕ) (result : Except ε Unit) : FlushSystem P ε :=
  let store := s.stores i
  match store.serving with
  | none => s
  | some c =>
    let flushed :=
      match result with
      | .ok _ => store.ops ++ [.flush]
      | .error _ => store.ops
    let s := s.setStore i { store with ops := flushed, serving := none }
    match s.calls c with
    | none => s
    | some call => s.setCall c { call with stage := .acked result }

/-- `flush_handles.retain(|_, handle| !handle.0.is_closed())`. -/
def sweep (s : FlushSystem P ε) : FlushSystem P ε :=
  let open_ := fun key => (s.inner.flushHandles key).filter fun i => !s.gone i
  { s with inner := { s.inner with flushHandles := open_ } }

/-- What a call does next (lines 476–506). It waits for room in the channel of its forwarder,
    and then for the answer; where the forwarder has returned it waits for neither. -/
def proceed (s : FlushSystem P ε) (c : ℕ) (call : FlushCall ε) : FlushSystem P ε :=
  match call.handles with
  | [] =>
    let result := if call.errors.isEmpty then .ok () else .error call.errors
    s.sweep.setCall c { call with returned := some result }
  | (key, i) :: rest =>
    let next := { call with handles := rest, stage := .sending }
    match call.stage with
    | .sending =>
      if s.gone i then s.setCall c next
      else if (s.stores i).slot = none then
        (s.setStore i { s.stores i with slot := some c }).setCall c { call with stage := .waiting }
      else s
    | .waiting => if s.gone i then s.setCall c next else s
    | .acked (.ok _) => s.setCall c next
    | .acked (.error e) => s.setCall c { next with errors := call.errors ++ [(key, e)] }

def step (grace : Bool) (s : FlushSystem P ε) : FlushAction P ε → FlushSystem P ε
  | .station op => if s.mayDo op then { s with inner := s.inner.apply grace op } else s
  | .append i point =>
    if s.ready i then
      s.setStore i { s.stores i with ops := (s.stores i).ops ++ [.append point] }
    else s
  | .flush i =>
    if s.ready i then s.setStore i { s.stores i with ops := (s.stores i).ops ++ [.flush] } else s
  | .receive i =>
    if s.ready i then
      s.setStore i { s.stores i with slot := none, serving := (s.stores i).slot }
    else s
  | .answer i result => s.answer i result
  | .finalFlush i ok =>
    if s.leaving i then
      let ops := if ok then (s.stores i).ops ++ [.flush] else (s.stores i).ops
      s.setStore i { s.stores i with ops, final := some ok }
    else s
  | .call keys =>
    let call := { handles := s.snapshot keys, stage := .sending, errors := [], returned := none }
    { s.setCall s.nextCall call with nextCall := s.nextCall + 1 }
  | .proceed c =>
    match s.calls c with
    | none => s
    | some call => if call.returned.isSome then s else s.proceed c call

/-- The station after the steps `as`. -/
def run (grace : Bool) (as : List (FlushAction P ε)) : FlushSystem P ε :=
  as.foldl (step grace) init

/-! ## The parts of a state -/

variable {s : FlushSystem P ε} {i j c : ℕ}

theorem stores_setStore (s : FlushSystem P ε) (i j : ℕ) (store : Persistence P) :
    (s.setStore i store).stores j = if j = i then store else s.stores j :=
  Function.update_apply s.stores i store j

@[simp] theorem stores_setStore_self (s : FlushSystem P ε) (i : ℕ) (store : Persistence P) :
    (s.setStore i store).stores i = store := by rw [stores_setStore, if_pos rfl]

theorem calls_setCall (s : FlushSystem P ε) (c d : ℕ) (call : FlushCall ε) :
    (s.setCall c call).calls d = if d = c then some call else s.calls d :=
  Function.update_apply s.calls c (some call) d

theorem gone_iff : s.gone i = true ↔ ∃ key rx, s.inner.stage i = some (key, .exited, rx) := by
  unfold gone
  cases s.inner.stage i with
  | none => simp
  | some st => simp [Prod.ext_iff]

theorem ready_iff : s.ready i = true ↔
    (∃ key, s.inner.stage i = some (key, .running, true)) ∧ (s.stores i).serving = none := by
  unfold ready
  cases s.inner.stage i with
  | none => simp
  | some st => simp [Prod.ext_iff]

theorem leaving_iff : s.leaving i = true ↔
    (∃ key, s.inner.stage i = some (key, .stopping, true)) ∧ (s.stores i).final = none := by
  unfold leaving
  cases s.inner.stage i with
  | none => simp
  | some st => simp [Prod.ext_iff]

/-! ## Whose request is where -/

/-- The call `c` has sent its request to the forwarder `i` and has no answer yet. -/
def WaitsFor (s : FlushSystem P ε) (c i : ℕ) : Prop :=
  ∃ call key rest, s.calls c = some call ∧ call.handles = (key, i) :: rest ∧ call.stage = .waiting

/-- The request of the call `c` is with the forwarder `i`. -/
def Holds (s : FlushSystem P ε) (i c : ℕ) : Prop :=
  (s.stores i).slot = some c ∨ (s.stores i).serving = some c

/-- Handles lead to stores, and a request is with its forwarder as long as its call waits for
    it. -/
structure Sound (s : FlushSystem P ε) : Prop where
  view : s.inner.view.Sound
  handle : ∀ key i, s.inner.flushHandles key = some i →
    ∃ phase, s.inner.stage i = some (key, phase, true)
  fresh : ∀ c, s.nextCall ≤ c → s.calls c = none
  listed : ∀ c call, s.calls c = some call → ∀ key i, (key, i) ∈ call.handles →
    ∃ phase, s.inner.stage i = some (key, phase, true)
  requested : ∀ i c, s.gone i = false → (s.Holds i c ↔ s.WaitsFor c i)
  stores : ∀ i, (s.stores i).Sound (s.inner.stage i)

theorem sound_init : (init : FlushSystem P ε).Sound := by
  have hcalls : ∀ c, (init : FlushSystem P ε).calls c = none := fun _ => rfl
  have hstore : ∀ i, (init : FlushSystem P ε).stores i = ⟨[], none, none, none⟩ := fun _ => rfl
  refine ⟨Registry.sound_empty, fun key i hi => ?_, fun c _ => hcalls c, fun c call hc => ?_,
    fun i c _ => ⟨fun hholds => ?_, ?_⟩, fun i => Persistence.sound_init⟩
  · exact absurd (hi : none = some i) nofun
  · exact absurd ((hcalls c).symm.trans hc) nofun
  · rw [Holds, hstore] at hholds
    simp at hholds
  · rintro ⟨call, _, _, hc, -⟩
    exact absurd ((hcalls c).symm.trans hc) nofun

/-- A forwarder that has returned stays where it is. -/
theorem gone_of_moved {inner : StationInner} {op : StationInner.Op}
    (hmoved : s.inner.Moved inner op) (hgone : s.gone i = true) :
    ({ s with inner } : FlushSystem P ε).gone i = true := by
  obtain ⟨key, rx, hstage⟩ := gone_iff.mp hgone
  refine gone_iff.mpr ⟨key, rx, ?_⟩
  rcases hmoved.stage_cases i with heq | ⟨_, hbefore, -⟩ | ⟨_, -, hbefore, -⟩ |
    ⟨_, _, -, hbefore, -⟩ | ⟨_, _, -, hbefore, -⟩
  · exact heq.trans hstage
  all_goals exact absurd (hstage.symm.trans hbefore) (by simp)

/-- Operations of the station leave the calls and the stores alone. -/
theorem Sound.moved (h : s.Sound) {inner : StationInner} {op : StationInner.Op}
    (hview : inner.view.Sound) (hmoved : s.inner.Moved inner op) (hop : s.mayDo op) :
    ({ s with inner } : FlushSystem P ε).Sound := by
  refine ⟨hview, fun key i hi => ?_, h.fresh, fun c call hc key i hi => ?_, fun i c hnot => ?_,
    fun i => (h.stores i).moved hmoved ?_ ?_⟩
  · rcases hmoved.handle_cases hi with hold | hnew
    · obtain ⟨phase, hstage⟩ := h.handle key i hold
      exact hmoved.stored hstage
    · exact ⟨_, hnew⟩
  · obtain ⟨phase, hstage⟩ := h.listed c call hc key i hi
    exact hmoved.stored hstage
  · refine h.requested i c (eq_false_of_ne_true fun hgone => ?_)
    exact absurd (gone_of_moved hmoved hgone) (ne_true_of_eq_false hnot)
  · rintro rfl
    simpa [mayDo] using hop
  · rintro rfl ⟨key, phase, hstage⟩
    simpa [mayDo, hstage, Option.isSome_iff_ne_none] using hop

theorem waitsFor_setCall_of_ne {d : ℕ} (hd : d ≠ c) (call : FlushCall ε) :
    (s.setCall c call).WaitsFor d j ↔ s.WaitsFor d j := by
  rw [WaitsFor, WaitsFor, calls_setCall, if_neg hd]

theorem waitsFor_setCall_self (call : FlushCall ε) :
    (s.setCall c call).WaitsFor c j ↔
      (∃ key rest, call.handles = (key, j) :: rest) ∧ call.stage = .waiting := by
  rw [WaitsFor, calls_setCall, if_pos rfl]
  constructor
  · rintro ⟨_, key, rest, ⟨⟩, hhandles, hstage⟩
    exact ⟨⟨key, rest, hhandles⟩, hstage⟩
  · rintro ⟨⟨key, rest, hhandles⟩, hstage⟩
    exact ⟨call, key, rest, rfl, hhandles, hstage⟩

/-- A call waits for one forwarder. -/
theorem WaitsFor.unique (h : s.WaitsFor c i) (h' : s.WaitsFor c j) : i = j := by
  obtain ⟨call, key, rest, hc, hhandles, -⟩ := h
  obtain ⟨call', key', rest', hc', hhandles', -⟩ := h'
  cases hc.symm.trans hc'
  cases hhandles.symm.trans hhandles'
  rfl

theorem lt_nextCall (h : s.Sound) {call : FlushCall ε} (hc : s.calls c = some call) :
    c < s.nextCall := by
  by_contra hlt
  exact absurd ((h.fresh c (not_lt.mp hlt)).symm.trans hc) nofun

/-- A forwarder changes what it keeps, and has the same requests as before. -/
theorem Sound.setStore (h : s.Sound) {store : Persistence P}
    (hstore : store.Sound (s.inner.stage i))
    (hholds : ∀ c, store.slot = some c ∨ store.serving = some c ↔ s.Holds i c) :
    (s.setStore i store).Sound := by
  refine ⟨h.view, h.handle, h.fresh, h.listed, fun j c hgone => ?_, fun j => ?_⟩
  · refine Iff.trans ?_ (h.requested j c hgone)
    rw [Holds, stores_setStore]
    split_ifs with hj
    · rw [hj]
      exact hholds c
    · rfl
  · rw [stores_setStore]
    split_ifs with hj
    · rw [hj]
      exact hstore
    · exact h.stores j

/-- A forwarder and a call that is at its handle change together. -/
theorem Sound.exchange (h : s.Sound) {call call' : FlushCall ε} (hc : s.calls c = some call)
    {key : SeriesKey} {rest : List (SeriesKey × ℕ)} (hhandles : call.handles = (key, i) :: rest)
    (hsame : call'.handles = call.handles) {store : Persistence P}
    (hstore : store.Sound (s.inner.stage i))
    (hother : ∀ d, d ≠ c → (store.slot = some d ∨ store.serving = some d ↔ s.Holds i d))
    (hcall : store.slot = some c ∨ store.serving = some c ↔ call'.stage = .waiting) :
    ((s.setStore i store).setCall c call').Sound := by
  have hstores : ∀ j, ((s.setStore i store).setCall c call').stores j =
      if j = i then store else s.stores j := fun j => stores_setStore s i j _
  refine ⟨h.view, h.handle, fun d hd => ?_, fun d call'' hd => ?_, fun j d hgone => ?_, fun j => ?_⟩
  · have hne : d ≠ c := ((lt_nextCall h hc).trans_le hd).ne'
    exact (calls_setCall _ c d _).trans (by rw [if_neg hne]; exact h.fresh d hd)
  · rw [calls_setCall] at hd
    split_ifs at hd
    · cases hd
      rw [hsame]
      exact h.listed c call hc
    · exact h.listed d call'' hd
  · by_cases hd : d = c
    · subst hd
      rw [waitsFor_setCall_self, Holds, hstores]
      split_ifs with hj
      · rw [hj, hsame]
        exact hcall.trans (and_iff_right ⟨key, rest, hhandles⟩).symm
      · -- the call is at the handle of `i`
        refine iff_of_false (fun hold => ?_) ?_
        · obtain ⟨call'', _, _, hc'', hhandles'', -⟩ := (h.requested j d hgone).mp hold
          cases hc.symm.trans hc''
          cases hhandles.symm.trans hhandles''
          exact hj rfl
        · rintro ⟨⟨key', rest', heq⟩, -⟩
          cases hhandles.symm.trans (hsame.symm.trans heq)
          exact hj rfl
    · rw [waitsFor_setCall_of_ne hd, Holds, hstores]
      refine Iff.trans ?_ (h.requested j d hgone)
      split_ifs with hj
      · rw [hj]
        exact hother d hd
      · rfl
  · rw [hstores]
    split_ifs with hj
    · rw [hj]
      exact hstore
    · exact h.stores j

/-- A call that waits for nobody, before and after. -/
theorem Sound.idleCall (h : s.Sound) {n : ℕ} {call : FlushCall ε} (hn : s.nextCall ≤ n)
    (hc : c < n)
    (hlisted : ∀ key i, (key, i) ∈ call.handles →
      ∃ phase, s.inner.stage i = some (key, phase, true))
    (hidle : ∀ j, s.gone j = false → ¬s.WaitsFor c j)
    (hafter : call.handles = [] ∨ call.stage ≠ .waiting) :
    ({ s.setCall c call with nextCall := n } : FlushSystem P ε).Sound := by
  refine ⟨h.view, h.handle, fun d hd => ?_, fun d call' hd => ?_, fun j d hgone => ?_, h.stores⟩
  · have hne : d ≠ c := (hc.trans_le hd).ne'
    exact (calls_setCall s c d call).trans (by rw [if_neg hne, h.fresh d (hn.trans hd)])
  · rw [show ({ s.setCall c call with nextCall := n } : FlushSystem P ε).calls d =
      if d = c then some call else s.calls d from calls_setCall s c d call] at hd
    split_ifs at hd
    · cases hd
      exact hlisted
    · exact h.listed d call' hd
  · refine (h.requested j d hgone).trans ?_
    show s.WaitsFor d j ↔ (s.setCall c call).WaitsFor d j
    by_cases hd : d = c
    · subst hd
      refine iff_of_false (hidle j hgone) fun hwaits => ?_
      obtain ⟨⟨key, rest, hhandles⟩, hstage⟩ := (waitsFor_setCall_self call).mp hwaits
      rcases hafter with hnil | hne
      · exact absurd (hhandles.symm.trans hnil) nofun
      · exact hne hstage
    · exact (waitsFor_setCall_of_ne hd call).symm

theorem Sound.sweep (h : s.Sound) : s.sweep.Sound where
  view := h.view
  handle key i hi := h.handle key i (Option.filter_eq_some_iff.mp hi).1
  fresh := h.fresh
  listed := h.listed
  requested := h.requested
  stores := h.stores

/-! ### One step -/

/-- A call that is done with the first of its handles. -/
def FlushCall.next (call : FlushCall ε) (rest : List (SeriesKey × ℕ))
    (errors : List (SeriesKey × ε)) : FlushCall ε :=
  { call with handles := rest, stage := .sending, errors }

/-- What a call can do. -/
inductive Proceeds (s : FlushSystem P ε) (c : ℕ) (call : FlushCall ε) : FlushSystem P ε → Prop
  | done (handles_eq : call.handles = []) :
      Proceeds s c call (s.sweep.setCall c { call with
        returned := some (if call.errors.isEmpty then .ok () else .error call.errors) })
  | sent (key : SeriesKey) (i : ℕ) (rest : List (SeriesKey × ℕ))
      (handles_eq : call.handles = (key, i) :: rest) (stage_eq : call.stage = .sending)
      (here : s.gone i = false) (room : (s.stores i).slot = none) :
      Proceeds s c call ((s.setStore i { s.stores i with slot := some c }).setCall c
        { call with stage := .waiting })
  | blocked (key : SeriesKey) (i : ℕ) (rest : List (SeriesKey × ℕ))
      (handles_eq : call.handles = (key, i) :: rest) (here : s.gone i = false)
      (behind : call.stage = .waiting ∨ call.stage = .sending ∧ (s.stores i).slot ≠ none) :
      Proceeds s c call s
  | passed (key : SeriesKey) (i : ℕ) (rest : List (SeriesKey × ℕ))
      (handles_eq : call.handles = (key, i) :: rest) (gone : s.gone i = true)
      (stage_eq : call.stage = .sending ∨ call.stage = .waiting) :
      Proceeds s c call (s.setCall c (FlushCall.next call rest call.errors))
  | flushed (key : SeriesKey) (i : ℕ) (rest : List (SeriesKey × ℕ))
      (handles_eq : call.handles = (key, i) :: rest) (stage_eq : call.stage = .acked (.ok ())) :
      Proceeds s c call (s.setCall c (FlushCall.next call rest call.errors))
  | failed (key : SeriesKey) (i : ℕ) (rest : List (SeriesKey × ℕ)) (e : ε)
      (handles_eq : call.handles = (key, i) :: rest) (stage_eq : call.stage = .acked (.error e)) :
      Proceeds s c call (s.setCall c (FlushCall.next call rest (call.errors ++ [(key, e)])))

theorem proceeds_proceed (s : FlushSystem P ε) (c : ℕ) (call : FlushCall ε) :
    Proceeds s c call (s.proceed c call) := by
  obtain ⟨handles, stage, errors, returned⟩ := call
  rcases handles with _ | ⟨⟨key, i⟩, rest⟩
  · exact .done rfl
  · rcases stage with _ | _ | (e | _) <;> simp only [proceed]
    · split_ifs with hgone hslot
      · exact .passed key i rest rfl hgone (.inl rfl)
      · exact .sent key i rest rfl rfl (eq_false_of_ne_true hgone) hslot
      · exact .blocked key i rest rfl (eq_false_of_ne_true hgone) (.inr ⟨rfl, hslot⟩)
    · split_ifs with hgone
      · exact .passed key i rest rfl hgone (.inr rfl)
      · exact .blocked key i rest rfl (eq_false_of_ne_true hgone) (.inl rfl)
    · exact .failed key i rest e rfl rfl
    · exact .flushed key i rest rfl rfl

/-- A call that is done with a handle has no request out. -/
theorem Sound.next (h : s.Sound) {call : FlushCall ε} (hc : s.calls c = some call)
    {key : SeriesKey} {rest : List (SeriesKey × ℕ)} (hhandles : call.handles = (key, i) :: rest)
    (hdone : s.gone i = true ∨ call.stage ≠ .waiting) (errors : List (SeriesKey × ε)) :
    (s.setCall c (FlushCall.next call rest errors)).Sound := by
  refine h.idleCall le_rfl (lt_nextCall h hc) (fun k j hj => ?_) (fun j hgone hwaits => ?_)
    (.inr nofun)
  · exact h.listed c call hc k j (hhandles ▸ List.mem_cons_of_mem _ hj)
  · obtain ⟨call', key', rest', hc', hhandles', hstage⟩ := hwaits
    cases hc.symm.trans hc'
    cases hhandles.symm.trans hhandles'
    rcases hdone with hi | hi
    · exact absurd hi (ne_true_of_eq_false hgone)
    · exact hi hstage

/-- A forwarder that answers requests has not returned. -/
theorem Sound.not_gone (h : s.Sound) (hserving : (s.stores i).serving ≠ none) :
    s.gone i = false := by
  obtain ⟨key, hstage⟩ := (h.stores i).inLoop hserving
  refine eq_false_of_ne_true fun hgone => ?_
  obtain ⟨key', rx, hgone⟩ := gone_iff.mp hgone
  exact absurd (hstage.symm.trans hgone) (by simp)

/-- A call puts its request into the channel of the first of its forwarders. -/
theorem Sound.sent (h : s.Sound) {call : FlushCall ε} (hc : s.calls c = some call)
    {key : SeriesKey} {rest : List (SeriesKey × ℕ)} (hhandles : call.handles = (key, i) :: rest)
    (hstage : call.stage = .sending) (hslot : (s.stores i).slot = none) :
    ((s.setStore i { s.stores i with slot := some c }).setCall c
      { call with stage := .waiting }).Sound := by
  have hserving : (s.stores i).serving ≠ some c := by
    intro hserving
    have hgone := h.not_gone (by rw [hserving]; nofun)
    obtain ⟨call', _, _, hc', -, hwaiting⟩ := (h.requested i c hgone).mp (.inr hserving)
    cases hc.symm.trans hc'
    exact absurd (hstage.symm.trans hwaiting) nofun
  refine h.exchange hc hhandles ?_ ((h.stores i).requests (some c) _ ?_ (h.stores i).inLoop)
    (fun d hd => ?_) ?_
  · rfl
  · rintro d hd ⟨⟩
    exact hserving hd
  · show some c = some d ∨ (s.stores i).serving = some d ↔ s.Holds i d
    rw [Holds, hslot]
    simp [hd.symm]
  · exact iff_of_true (.inl rfl) rfl

/-- What answering a request does. -/
theorem answer_cases (h : s.Sound) (i : ℕ) (result : Except ε Unit) :
    s.answer i result = s ∨ ∃ c call key rest, (s.stores i).serving = some c ∧
      s.calls c = some call ∧ call.handles = (key, i) :: rest ∧ call.stage = .waiting ∧
      s.answer i result = (s.setStore i { s.stores i with
          ops := if result.isOk then (s.stores i).ops ++ [.flush] else (s.stores i).ops
          serving := none }).setCall c { call with stage := .acked result } := by
  cases hserving : (s.stores i).serving with
  | none =>
    left
    simp only [answer, hserving]
  | some c =>
    right
    have hgone := h.not_gone (by rw [hserving]; nofun)
    obtain ⟨call, key, rest, hc, hhandles, hstage⟩ := (h.requested i c hgone).mp (.inr hserving)
    refine ⟨c, call, key, rest, rfl, hc, hhandles, hstage, ?_⟩
    have hc' : ∀ store, (s.setStore i store).calls c = some call := fun _ => hc
    cases result with
    | ok _ =>
      simp only [answer, hserving, hc', Except.isOk, Except.toBool, if_true]
    | error e =>
      simp only [answer, hserving, hc', Except.isOk, Except.toBool, Bool.false_eq_true, if_false]

theorem Sound.answer (h : s.Sound) (i : ℕ) (result : Except ε Unit) :
    (s.answer i result).Sound := by
  rcases answer_cases h i result with
    heq | ⟨c, call, key, rest, hserving, hc, hhandles, hstage, heq⟩
  · rwa [heq]
  · rw [heq]
    have hstore : Persistence.Sound (s.inner.stage i) { s.stores i with
        ops := if result.isOk then (s.stores i).ops ++ [.flush] else (s.stores i).ops
        serving := none } := by
      cases result with
      | ok _ => exact (h.stores i).flush _ none nofun fun hne => absurd rfl hne
      | error e => exact (h.stores i).requests _ none nofun fun hne => absurd rfl hne
    refine h.exchange hc hhandles ?_ hstore (fun d hd => ?_) (iff_of_false ?_ ?_)
    · rfl
    · show (s.stores i).slot = some d ∨ none = some d ↔ s.Holds i d
      rw [Holds, hserving]
      simp [hd.symm]
    · rintro (hslot | hnone)
      · exact (h.stores i).apart c hserving hslot
      · cases hnone
    · exact nofun

/-- **Step lemma.** -/
theorem Sound.step (h : s.Sound) (grace : Bool) (a : FlushAction P ε) : (s.step grace a).Sound := by
  cases a with
  | station op =>
    simp only [FlushSystem.step]
    split_ifs with hop
    · exact h.moved (StationInner.sound_apply grace h.view op)
        (StationInner.moved_apply grace h.view op) hop
    · exact h
  | append i point =>
    simp only [FlushSystem.step]
    split_ifs with hready
    · obtain ⟨⟨key, hstage⟩, -⟩ := ready_iff.mp hready
      exact h.setStore ((h.stores i).append hstage point) fun _ => Iff.rfl
    · exact h
  | flush i =>
    simp only [FlushSystem.step]
    split_ifs with hready
    · exact h.setStore ((h.stores i).flush _ _ (h.stores i).apart (h.stores i).inLoop)
        fun _ => Iff.rfl
    · exact h
  | receive i =>
    simp only [FlushSystem.step]
    split_ifs with hready
    · obtain ⟨hstage, hserving⟩ := ready_iff.mp hready
      refine h.setStore ((h.stores i).requests none _ (fun _ _ => nofun) fun _ => hstage)
        fun c => ?_
      show none = some c ∨ (s.stores i).slot = some c ↔ s.Holds i c
      rw [Holds, hserving]
      simp
    · exact h
  | answer i result => exact h.answer i result
  | finalFlush i ok =>
    by_cases hleaving : s.leaving i
    · simp only [FlushSystem.step, if_pos hleaving]
      obtain ⟨⟨key, hstage⟩, -⟩ := leaving_iff.mp hleaving
      exact h.setStore ((h.stores i).finalFlush hstage ok) fun _ => Iff.rfl
    · simp only [FlushSystem.step, if_neg hleaving]
      exact h
  | call keys =>
    refine h.idleCall (Nat.le_succ _) (Nat.lt_succ_self _) (fun key i hi => ?_) ?_ (.inr nofun)
    · obtain ⟨k, -, hk⟩ := List.mem_filterMap.mp hi
      obtain ⟨j, hj, heq⟩ := Option.map_eq_some_iff.mp hk
      cases heq
      exact h.handle key i hj
    · rintro j - ⟨call, _, _, hc, -⟩
      exact absurd ((h.fresh s.nextCall le_rfl).symm.trans hc) nofun
  | proceed c =>
    simp only [FlushSystem.step]
    cases hc : s.calls c with
    | none => exact h
    | some call =>
      simp only
      split_ifs
      · exact h
      · have hproceeds := proceeds_proceed s c call
        generalize s.proceed c call = s' at hproceeds ⊢
        cases hproceeds with
        | done hhandles =>
          refine h.sweep.idleCall le_rfl (lt_nextCall h.sweep hc) (h.listed c call hc) ?_
            (.inl hhandles)
          rintro j - ⟨call', _, _, hc', hhandles', -⟩
          cases hc.symm.trans hc'
          exact absurd (hhandles.symm.trans hhandles') nofun
        | sent key i rest hhandles hstage _ hslot => exact h.sent hc hhandles hstage hslot
        | blocked => exact h
        | passed key i rest hhandles hgone => exact h.next hc hhandles (.inl hgone) _
        | flushed key i rest hhandles hstage =>
          exact h.next hc hhandles (.inr (by rw [hstage]; nofun)) _
        | failed key i rest e hhandles hstage =>
          exact h.next hc hhandles (.inr (by rw [hstage]; nofun)) _

theorem sound_run (grace : Bool) (as : List (FlushAction P ε)) :
    (run grace as : FlushSystem P ε).Sound :=
  foldl_invariant sound_init (fun _ a h => h.step grace a) as

/-! ## What a call guarantees -/

/-- What the forwarder `i` had appended in `before` is durable in `s`. -/
def Retained (before s : FlushSystem P ε) (i : ℕ) : Prop :=
  (ledger (before.stores i).ops).appended <+: (ledger (s.stores i).ops).flushed

/-- Stores are only added to, and a final flush is made once. -/
structure Grows (s s' : FlushSystem P ε) : Prop where
  appended : ∀ i, (ledger (s.stores i).ops).appended <+: (ledger (s'.stores i).ops).appended
  flushed : ∀ i, (ledger (s.stores i).ops).flushed <+: (ledger (s'.stores i).ops).flushed
  final : ∀ i b, (s.stores i).final = some b → (s'.stores i).final = some b

variable {s' : FlushSystem P ε}

theorem Grows.of_stores_eq (h : s'.stores = s.stores) : Grows s s' :=
  ⟨fun i => by rw [h], fun i => by rw [h], fun i b hb => by rwa [h]⟩

theorem ledger_concat_grows (ops : List (Series.DiskStore.Op P)) (op : Series.DiskStore.Op P) :
    (ledger ops).appended <+: (ledger (ops ++ [op])).appended ∧
      (ledger ops).flushed <+: (ledger (ops ++ [op])).flushed := by
  rw [ledger_concat]
  cases op with
  | append point => exact ⟨List.prefix_append _ _, List.prefix_rfl⟩
  | flush => exact ⟨List.prefix_rfl, List.prefix_append _ _⟩
  | crash => exact ⟨List.prefix_rfl, List.prefix_rfl⟩

theorem Grows.setStore {store : Persistence P}
    (hops : store.ops = (s.stores i).ops ∨ ∃ op, store.ops = (s.stores i).ops ++ [op])
    (hfinal : ∀ b, (s.stores i).final = some b → store.final = some b) :
    Grows s (s.setStore i store) := by
  have hledger : (ledger (s.stores i).ops).appended <+: (ledger store.ops).appended ∧
      (ledger (s.stores i).ops).flushed <+: (ledger store.ops).flushed := by
    rcases hops with heq | ⟨op, heq⟩
    · rw [heq]
      exact ⟨List.prefix_rfl, List.prefix_rfl⟩
    · rw [heq]
      exact ledger_concat_grows _ op
  refine ⟨fun j => ?_, fun j => ?_, fun j b => ?_⟩ <;> rw [stores_setStore] <;> split_ifs with hj
  · exact hj ▸ hledger.1
  · exact List.prefix_rfl
  · exact hj ▸ hledger.2
  · exact List.prefix_rfl
  · exact hj ▸ hfinal b
  · exact id

theorem Grows.setCall (h : Grows s s') (c : ℕ) (call : FlushCall ε) : Grows s (s'.setCall c call) :=
  ⟨h.appended, h.flushed, h.final⟩

theorem grows_proceed (s : FlushSystem P ε) (c : ℕ) (call : FlushCall ε) :
    Grows s (s.proceed c call) := by
  have hproceeds := proceeds_proceed s c call
  generalize s.proceed c call = s' at hproceeds ⊢
  cases hproceeds with
  | sent key i =>
    refine Grows.setCall ?_ c _
    exact Grows.setStore (.inl rfl) fun _ => id
  | _ => exact Grows.of_stores_eq rfl

theorem Sound.grows_answer (h : s.Sound) (i : ℕ) (result : Except ε Unit) :
    Grows s (s.answer i result) := by
  rcases answer_cases h i result with heq | ⟨c, call, key, rest, -, -, -, -, heq⟩
  · rw [heq]
    exact Grows.of_stores_eq rfl
  · rw [heq]
    refine Grows.setCall ?_ c _
    refine Grows.setStore ?_ fun _ => id
    cases result with
    | ok _ => exact .inr ⟨_, rfl⟩
    | error _ => exact .inl rfl

/-- **Step lemma.** -/
theorem Sound.grows_step (h : s.Sound) (grace : Bool) (a : FlushAction P ε) :
    Grows s (s.step grace a) := by
  cases a with
  | station op =>
    simp only [FlushSystem.step]
    split_ifs <;> exact Grows.of_stores_eq rfl
  | append i point =>
    simp only [FlushSystem.step]
    split_ifs
    · exact Grows.setStore (.inr ⟨_, rfl⟩) fun _ => id
    · exact Grows.of_stores_eq rfl
  | flush i =>
    simp only [FlushSystem.step]
    split_ifs
    · exact Grows.setStore (.inr ⟨_, rfl⟩) fun _ => id
    · exact Grows.of_stores_eq rfl
  | receive i =>
    simp only [FlushSystem.step]
    split_ifs
    · exact Grows.setStore (.inl rfl) fun _ => id
    · exact Grows.of_stores_eq rfl
  | answer i result => exact h.grows_answer i result
  | finalFlush i ok =>
    by_cases hleaving : s.leaving i
    · simp only [FlushSystem.step, if_pos hleaving]
      refine Grows.setStore ?_ fun b hb => ?_
      · cases ok with
        | true => exact .inr ⟨_, rfl⟩
        | false => exact .inl rfl
      · exact absurd (hb.symm.trans (leaving_iff.mp hleaving).2) nofun
    · simp only [FlushSystem.step, if_neg hleaving]
      exact Grows.of_stores_eq rfl
  | call keys => exact Grows.of_stores_eq rfl
  | proceed c =>
    simp only [FlushSystem.step]
    cases s.calls c with
    | none => exact Grows.of_stores_eq rfl
    | some call =>
      simp only
      split_ifs
      · exact Grows.of_stores_eq rfl
      · exact grows_proceed s c call

/-- Where the call stands that began in the state `before` and found `handles`, after the steps
    `as`: what it has found out about the handles it is done with. -/
structure Accounts (before : FlushSystem P ε) (handles : List (SeriesKey × ℕ))
    (as : List (FlushAction P ε)) (s : FlushSystem P ε) (call : FlushCall ε) : Prop where
  done : ∃ done, handles = done ++ call.handles ∧
    (call.errors.map Prod.fst).Sublist (done.map Prod.fst) ∧
    ∀ key i, (key, i) ∈ done → key ∈ call.errors.map Prod.fst ∨ Retained before s i ∨
      (s.stores i).final = some false
  flushed : ∀ key i rest, call.handles = (key, i) :: rest → call.stage = .acked (.ok ()) →
    Retained before s i
  failed : ∀ key i rest e, call.handles = (key, i) :: rest → call.stage = .acked (.error e) →
    .answer i (.error e) ∈ as
  errors : ∀ key e, (key, e) ∈ call.errors → ∃ i, (key, i) ∈ handles ∧ .answer i (.error e) ∈ as
  returned : ∀ result, call.returned = some result → call.handles = [] ∧
    result = if call.errors.isEmpty then .ok () else .error call.errors

variable {before : FlushSystem P ε} {handles : List (SeriesKey × ℕ)}
  {as : List (FlushAction P ε)} {call : FlushCall ε}

theorem Retained.grows (h : Retained before s i) (hgrows : Grows s s') : Retained before s' i :=
  h.trans (hgrows.flushed i)

/-- What has been found out stays true. -/
theorem Accounts.grows (h : Accounts before handles as s call) (hgrows : Grows s s')
    (a : FlushAction P ε) : Accounts before handles (as ++ [a]) s' call := by
  obtain ⟨done, heq, hsub, hdone⟩ := h.done
  refine ⟨⟨done, heq, hsub, fun key i hi => ?_⟩, fun key i rest hh hs => ?_,
    fun key i rest e hh hs => ?_, fun key e he => ?_, h.returned⟩
  · rcases hdone key i hi with herror | hkept | hfinal
    · exact .inl herror
    · exact .inr (.inl (hkept.grows hgrows))
    · exact .inr (.inr (hgrows.final i false hfinal))
  · exact (h.flushed key i rest hh hs).grows hgrows
  · exact List.mem_append_left _ (h.failed key i rest e hh hs)
  · obtain ⟨i, hi, hmem⟩ := h.errors key e he
    exact ⟨i, hi, List.mem_append_left _ hmem⟩

/-- A forwarder that has returned made its final flush. -/
theorem Sound.retained_of_final (h : s.Sound) (hgrown : (ledger (before.stores i).ops).appended <+:
    (ledger (s.stores i).ops).appended) (hfinal : (s.stores i).final = some true) :
    Retained before s i := by
  have hkept := (h.stores i).kept
  rw [(h.stores i).drained hfinal, List.append_nil] at hkept
  rw [Retained, ← hkept]
  exact hgrown

/-- A handle is done with. -/
theorem Accounts.next (h : Accounts before handles as s call) {key : SeriesKey}
    {rest : List (SeriesKey × ℕ)} (hhandles : call.handles = (key, i) :: rest)
    (hreturned : call.returned = none) {errors : List (SeriesKey × ε)}
    (herrors : errors = call.errors ∧ (Retained before s i ∨ (s.stores i).final = some false) ∨
      ∃ e, errors = call.errors ++ [(key, e)] ∧ .answer i (.error e) ∈ as) :
    Accounts before handles as s (FlushCall.next call rest errors) := by
  obtain ⟨done, heq, hsub, hdone⟩ := h.done
  have hmem : (key, i) ∈ handles := by
    rw [heq, hhandles]
    simp
  have hcovers : ∀ k, k ∈ call.errors.map Prod.fst → k ∈ errors.map Prod.fst := by
    intro k hk
    rcases herrors with ⟨rfl, -⟩ | ⟨e, rfl, -⟩
    · exact hk
    · rw [List.map_append]
      exact List.mem_append_left _ hk
  have hsending : ∀ result, (FlushCall.next call rest errors).stage ≠ .acked result := by
    intro result hstage
    simp [FlushCall.next] at hstage
  refine ⟨⟨done ++ [(key, i)], ?_, ?_, fun k j hj => ?_⟩,
    fun _ _ _ _ hstage => absurd hstage (hsending _),
    fun _ _ _ _ _ hstage => absurd hstage (hsending _), fun k e he => ?_, fun result hresult => ?_⟩
  · rw [heq, hhandles, List.append_assoc]
    rfl
  · show (errors.map Prod.fst).Sublist ((done ++ [(key, i)]).map Prod.fst)
    rw [List.map_append]
    rcases herrors with ⟨rfl, -⟩ | ⟨e, rfl, -⟩
    · exact hsub.trans (List.sublist_append_left _ _)
    · rw [List.map_append]
      exact hsub.append (List.Sublist.refl _)
  · rcases List.mem_append.mp hj with hj | hj
    · rcases hdone k j hj with herror | hkept
      · exact .inl (hcovers k herror)
      · exact .inr hkept
    · obtain ⟨rfl, rfl⟩ := Prod.mk.inj (List.mem_singleton.mp hj)
      rcases herrors with ⟨-, hkept⟩ | ⟨e, rfl, -⟩
      · exact .inr hkept
      · refine .inl ?_
        show k ∈ (call.errors ++ [(k, e)]).map Prod.fst
        simp
  · rcases herrors with ⟨rfl, -⟩ | ⟨e', rfl, hanswer⟩
    · exact h.errors k e he
    · rcases List.mem_append.mp he with he | he
      · exact h.errors k e he
      · obtain ⟨rfl, rfl⟩ := Prod.mk.inj (List.mem_singleton.mp he)
        exact ⟨i, hmem, hanswer⟩
  · exact absurd (hreturned.symm.trans hresult) nofun

/-- The call `c` began in the state `before` and found `handles`. -/
structure Tracked (before : FlushSystem P ε) (handles : List (SeriesKey × ℕ)) (c : ℕ)
    (as : List (FlushAction P ε)) (s : FlushSystem P ε) : Prop where
  grown : ∀ i, (ledger (before.stores i).ops).appended <+: (ledger (s.stores i).ops).appended
  lt : c < s.nextCall
  accounts : ∃ call, s.calls c = some call ∧ Accounts before handles as s call

/-- An answer that the call waits for. -/
theorem Accounts.acked (h : Accounts before handles as s call) {key : SeriesKey}
    {rest : List (SeriesKey × ℕ)} (hhandles : call.handles = (key, i) :: rest)
    {result : Except ε Unit} (hok : result = .ok () → Retained before s i)
    (herror : ∀ e, result = .error e → .answer i (.error e) ∈ as) :
    Accounts before handles as s { call with stage := .acked result } where
  done := h.done
  flushed key' i' rest' hh hs := by
    cases hhandles.symm.trans hh
    exact hok (FlushStage.acked.inj hs)
  failed key' i' rest' e hh hs := by
    cases hhandles.symm.trans hh
    exact herror e (FlushStage.acked.inj hs)
  errors := h.errors
  returned := h.returned

/-- A request that the call sends. -/
theorem Accounts.waiting (h : Accounts before handles as s call) :
    Accounts before handles as s { call with stage := .waiting } where
  done := h.done
  flushed _ _ _ _ hs := absurd hs (by simp)
  failed _ _ _ _ _ hs := absurd hs (by simp)
  errors := h.errors
  returned := h.returned

theorem Accounts.finished (h : Accounts before handles as s call) (hhandles : call.handles = []) :
    Accounts before handles as s { call with
      returned := some (if call.errors.isEmpty then .ok () else .error call.errors) } where
  done := h.done
  flushed _ _ _ hh _ := absurd (hhandles.symm.trans hh) (by simp)
  failed _ _ _ _ hh _ := absurd (hhandles.symm.trans hh) (by simp)
  errors := h.errors
  returned _ hresult := ⟨hhandles, (Option.some.inj hresult).symm⟩

/-- **Step lemma**, for the call itself. -/
theorem Accounts.proceed (h : Accounts before handles as s call) (hs : s.Sound)
    (hc : s.calls c = some call)
    (hgrown : ∀ i, (ledger (before.stores i).ops).appended <+: (ledger (s.stores i).ops).appended)
    (hreturned : call.returned = none) :
    ∃ call', (s.proceed c call).calls c = some call' ∧ Accounts before handles as s call' := by
  have hset : ∀ (s' : FlushSystem P ε) call', (s'.setCall c call').calls c = some call' :=
    fun s' call' => (calls_setCall s' c c call').trans (if_pos rfl)
  have hproceeds := proceeds_proceed s c call
  generalize s.proceed c call = s' at hproceeds ⊢
  cases hproceeds with
  | done hhandles => exact ⟨_, hset _ _, h.finished hhandles⟩
  | sent => exact ⟨_, hset _ _, h.waiting⟩
  | blocked => exact ⟨call, hc, h⟩
  | passed key i rest hhandles hgone =>
    refine ⟨_, hset _ _, h.next hhandles hreturned (.inl ⟨rfl, ?_⟩)⟩
    -- a forwarder that has returned has made its final flush
    obtain ⟨phase, hstage⟩ := hs.listed c call hc key i (hhandles ▸ List.mem_cons_self)
    obtain ⟨key', rx, hgone⟩ := gone_iff.mp hgone
    cases hstage.symm.trans hgone
    cases hfinal : (s.stores i).final with
    | none => exact absurd hfinal ((hs.stores i).final key hstage)
    | some ok =>
      cases ok with
      | true => exact .inl (hs.retained_of_final (hgrown i) hfinal)
      | false => exact .inr rfl
  | flushed key i rest hhandles hstage =>
    exact ⟨_, hset _ _,
      h.next hhandles hreturned (.inl ⟨rfl, .inl (h.flushed key i rest hhandles hstage)⟩)⟩
  | failed key i rest e hhandles hstage =>
    exact ⟨_, hset _ _,
      h.next hhandles hreturned (.inr ⟨e, rfl, h.failed key i rest e hhandles hstage⟩)⟩

/-- What has been flushed when a flush of `i` is done is all that it has appended. -/
theorem Sound.retained_of_flush (hs : s.Sound)
    (hgrown : (ledger (before.stores i).ops).appended <+: (ledger (s.stores i).ops).appended)
    (hops : (s'.stores i).ops = (s.stores i).ops ++ [.flush]) : Retained before s' i := by
  rw [Retained, hops, ledger_flush]
  rw [(hs.stores i).kept] at hgrown
  exact hgrown

theorem Sound.nextCall_le_step (h : s.Sound) (grace : Bool) (a : FlushAction P ε) :
    s.nextCall ≤ (s.step grace a).nextCall := by
  cases a with
  | call keys => exact Nat.le_succ _
  | answer i result =>
    show s.nextCall ≤ (s.answer i result).nextCall
    rcases answer_cases h i result with heq | ⟨_, _, _, _, -, -, -, -, heq⟩
    · rw [heq]
    · rw [heq]
      exact le_rfl
  | proceed c =>
    simp only [FlushSystem.step]
    split
    · exact le_rfl
    · rename_i call _
      have hproceeds := proceeds_proceed s c call
      generalize s.proceed c call = s' at hproceeds ⊢
      split_ifs
      · exact le_rfl
      · cases hproceeds <;> exact le_rfl
  | _ =>
    simp only [FlushSystem.step]
    split_ifs <;> exact le_rfl

/-- **Step lemma.** -/
theorem Tracked.step (h : Tracked before handles c as s) (hs : s.Sound) (grace : Bool)
    (a : FlushAction P ε) : Tracked before handles c (as ++ [a]) (s.step grace a) := by
  have hgrows := hs.grows_step grace a
  obtain ⟨call, hc, haccounts⟩ := h.accounts
  refine ⟨fun i => (h.grown i).trans (hgrows.appended i),
    h.lt.trans_le (hs.nextCall_le_step grace a), ?_⟩
  cases a with
  | call keys =>
    refine ⟨call, ?_, haccounts.grows hgrows _⟩
    exact (calls_setCall s s.nextCall c _).trans ((if_neg h.lt.ne).trans hc)
  | answer i result =>
    have hgrows : Grows s (s.answer i result) := hgrows
    show ∃ call, (s.answer i result).calls c = some call ∧
      Accounts before handles (as ++ [.answer i result]) (s.answer i result) call
    rcases answer_cases hs i result with heq | ⟨d, call', key, rest, hserving, hd, hhandles, -, heq⟩
    · rw [heq] at hgrows ⊢
      exact ⟨call, hc, haccounts.grows hgrows _⟩
    · by_cases hcd : c = d
      · subst hcd
        cases hc.symm.trans hd
        refine ⟨_, by rw [heq, calls_setCall, if_pos rfl],
          (haccounts.grows hgrows (.answer i result)).acked hhandles ?_ ?_⟩
        · rintro rfl
          refine hs.retained_of_flush (h.grown i) ?_
          rw [heq]
          show ((s.setStore i _).stores i).ops = _
          rw [stores_setStore_self]
          rfl
        · rintro e rfl
          exact List.mem_append_right _ (List.mem_singleton_self _)
      · refine ⟨call, ?_, haccounts.grows hgrows _⟩
        rw [heq, calls_setCall, if_neg hcd]
        exact hc
  | proceed d =>
    by_cases hcd : d = c
    · subst hcd
      simp only [FlushSystem.step, hc] at hgrows ⊢
      split_ifs at hgrows ⊢ with hreturned
      · exact ⟨call, hc, haccounts.grows hgrows _⟩
      · have hnone : call.returned = none := by
          simpa using hreturned
        obtain ⟨call', hc', haccounts'⟩ := haccounts.proceed hs hc h.grown hnone
        exact ⟨call', hc', haccounts'.grows hgrows _⟩
    · refine ⟨call, ?_, haccounts.grows hgrows _⟩
      simp only [FlushSystem.step]
      split
      · exact hc
      · split_ifs
        · exact hc
        · rename_i call' _ _
          have hproceeds := proceeds_proceed s d call'
          generalize s.proceed d call' = s' at hproceeds ⊢
          cases hproceeds <;> first
            | exact hc
            | exact (calls_setCall _ d c _).trans ((if_neg (Ne.symm hcd)).trans hc)
  | _ =>
    refine ⟨call, ?_, haccounts.grows hgrows _⟩
    simp only [FlushSystem.step]
    split_ifs <;> exact hc

/-- **Run lemma.** -/
theorem tracked_run (grace : Bool) (as bs : List (FlushAction P ε)) (keys : List SeriesKey) :
    Tracked (run grace as) ((run grace as : FlushSystem P ε).snapshot keys)
      (run grace as : FlushSystem P ε).nextCall bs (run grace (as ++ .call keys :: bs)) := by
  induction bs using List.reverseRecOn with
  | nil =>
    have hrun : run grace (as ++ [.call keys]) =
        (run grace as : FlushSystem P ε).step grace (.call keys) := List.foldl_concat ..
    rw [hrun]
    refine ⟨fun i => List.prefix_rfl, Nat.lt_succ_self _, _,
      (calls_setCall _ _ _ _).trans (if_pos rfl), ⟨[], rfl, List.Sublist.slnil, ?_⟩, ?_, ?_, ?_, ?_⟩
    · exact fun _ _ hmem => absurd hmem List.not_mem_nil
    · exact fun _ _ _ _ hstage => absurd hstage (by simp)
    · exact fun _ _ _ _ _ hstage => absurd hstage (by simp)
    · exact fun _ _ hmem => absurd hmem List.not_mem_nil
    · exact fun _ hresult => absurd hresult (by simp)
  | append_singleton bs a ih =>
    have hrun : run grace (as ++ .call keys :: (bs ++ [a])) =
        (run grace (as ++ .call keys :: bs) : FlushSystem P ε).step grace a := by
      rw [run, ← List.cons_append, ← List.append_assoc, List.foldl_concat]
      rfl
    rw [hrun]
    exact ih.step (sound_run grace _) grace a

/-- What is read back of the store of `i` when a crash follows on `s` that neither tears a record
    nor leaves a header without its blob bytes. -/
def ReadsBack (before s : FlushSystem P ε) (i : ℕ) : Prop :=
  ∀ (T : DataPoint P) (idxEvery nDat nIdx nBlob : ℕ),
    Series.DiskStore.RunSafe T (Series.DiskStore.create T idxEvery) ⟨[], [], []⟩
      ((s.stores i).ops ++ [.crash nDat nIdx nBlob]) →
    ∀ limit, ∃ kept, (ledger (before.stores i).ops).appended.Sublist kept ∧
      kept.Sublist (ledger (s.stores i).ops).appended ∧
      (Series.DiskStore.run T idxEvery ((s.stores i).ops ++ [.crash nDat nIdx nBlob])).readTail T
        limit = kept.drop (kept.length - limit)

theorem Retained.readsBack (h : Retained before s i) : ReadsBack before s i := by
  intro T idxEvery nDat nIdx nBlob hsafe limit
  obtain ⟨kept, torn, hinv⟩ := Series.DiskStore.exists_inv_of_runSafe
    (Series.DiskStore.inv_create idxEvery) _ hsafe
  obtain ⟨kept, hflushed, happended, hread⟩ := Series.DiskStore.sound_of_inv hinv limit
  have hledger : ledger ((s.stores i).ops ++ [.crash nDat nIdx nBlob]) =
      { ledger (s.stores i).ops with pending := [] } := ledger_concat _ _
  have hfold : ((s.stores i).ops ++ [Series.DiskStore.Op.crash nDat nIdx nBlob]).foldl
      Series.DiskStore.Ledger.step ⟨[], [], []⟩ = { ledger (s.stores i).ops with pending := [] } :=
    hledger
  rw [hfold] at hflushed happended
  exact ⟨kept, h.sublist.trans hflushed, happended, hread⟩

/-- What a call that began in `before`, and has returned `result`, has made sure of in `s`, `as`
    being the steps since then. A forwarder with a store has an error of its own, or has all that
    it had appended on disk, unless its final flush failed; one that was not registered when the
    call began may still have its final flush before it. -/
structure Guarantee (before : FlushSystem P ε) (as : List (FlushAction P ε)) (s : FlushSystem P ε)
    (result : Except (List (SeriesKey × ε)) Unit) : Prop where
  reported : ∀ errors, result = .error errors → errors ≠ [] ∧ (errors.map Prod.fst).Nodup ∧
    ∀ key e, (key, e) ∈ errors →
      ∃ i, before.inner.flushHandles key = some i ∧ .answer i (.error e) ∈ as
  kept : ∀ i key phase, before.inner.stage i = some (key, phase, true) →
    (∃ errors, result = .error errors ∧ key ∈ errors.map Prod.fst) ∨
      (Retained before s i ∧ ReadsBack before s i) ∨ (s.stores i).final = some false ∨
      before.inner.flushHandles key ≠ some i ∧ (s.stores i).final = none

/-- Every forwarder in its loop with a store is registered. -/
def Listed (s : FlushSystem P ε) : Prop :=
  ∀ i key, s.inner.stage i = some (key, .running, true) → s.inner.flushHandles key = some i

/-- A forwarder that leaves its loop unregisters itself, and one that opens its store is the only
    one of its key in its loop with a store. -/
def OwnHandles (s : FlushSystem P ε) : FlushAction P ε → Prop
  | .station (.leaveLoop i) => ∀ key, s.inner.stage i = some (key, .running, true) →
      ∀ j, s.inner.flushHandles key = some j → j = i
  | .station (.openStore i) => ∀ key, s.inner.stage i = some (key, .running, false) →
      ∀ j, s.inner.stage j ≠ some (key, .running, true)
  | _ => True

theorem mem_snapshot {keys : List SeriesKey} {key : SeriesKey} :
    (key, i) ∈ s.snapshot keys ↔ key ∈ keys ∧ s.inner.flushHandles key = some i := by
  rw [snapshot, List.mem_filterMap]
  constructor
  · rintro ⟨k, hk, hmap⟩
    obtain ⟨j, hj, heq⟩ := Option.map_eq_some_iff.mp hmap
    cases heq
    exact ⟨hk, hj⟩
  · rintro ⟨hk, hj⟩
    exact ⟨key, hk, by rw [hj]; rfl⟩

theorem nodup_snapshot {keys : List SeriesKey} (h : keys.Nodup) :
    ((s.snapshot keys).map Prod.fst).Nodup := by
  refine h.sublist ?_
  induction keys with
  | nil => exact List.Sublist.slnil
  | cons key keys ih =>
    have ih := ih (List.nodup_cons.mp h).2
    rw [snapshot, List.filterMap_cons]
    cases s.inner.flushHandles key with
    | none => exact ih.cons key
    | some i => exact ih.cons_cons key

/-- A step of the station keeps the listing. -/
theorem Listed.moved (h : s.Listed) {inner : StationInner} {op : StationInner.Op}
    (hmoved : s.inner.Moved inner op) (hown : s.OwnHandles (.station op)) :
    ({ s with inner } : FlushSystem P ε).Listed := by
  intro j k hj
  show inner.flushHandles k = some j
  have hj : inner.stage j = some (k, .running, true) := hj
  cases hmoved with
  | quiet stage_eq handles_eq =>
    rw [handles_eq]
    exact h j k (stage_eq ▸ hj)
  | @spawned key feed t holder fresh stage_eq handles_eq =>
    rw [stage_eq, Function.update_apply] at hj
    rw [handles_eq]
    split_ifs at hj
    · cases hj
    · exact h j k hj
  | @opened i key running stage_eq handles_eq =>
    rw [stage_eq, Function.update_apply] at hj
    rw [handles_eq, Function.update_apply]
    split_ifs at hj with hji
    · cases hj
      rw [if_pos rfl, hji]
    · rw [if_neg]
      · exact h j k hj
      · rintro rfl
        exact hown _ running j hj
  | @left i key rx running stage_eq handles_eq =>
    rw [stage_eq, Function.update_apply] at hj
    rw [handles_eq]
    split_ifs at hj with hji
    · cases hj
    · have hlisted := h j k hj
      split_ifs with hrx
      · rw [Function.update_apply, if_neg]
        · exact hlisted
        · rintro rfl
          subst hrx
          exact hji (hown _ running j hlisted)
      · exact hlisted
  | @ended i key rx stopping stage_eq handles_eq =>
    rw [stage_eq, Function.update_apply] at hj
    rw [handles_eq]
    split_ifs at hj
    · cases hj
    · exact h j k hj

theorem Listed.sweep (h : s.Listed) : s.sweep.Listed := by
  intro j k hj
  have hj : s.inner.stage j = some (k, .running, true) := hj
  refine Option.filter_eq_some_iff.mpr ⟨h j k hj, ?_⟩
  rw [Bool.not_eq_true']
  refine eq_false_of_ne_true fun hgone => ?_
  obtain ⟨k', rx, hgone⟩ := gone_iff.mp hgone
  exact absurd (hj.symm.trans hgone) (by simp)

/-- **Step lemma.** -/
theorem Listed.step (h : s.Listed) (hs : s.Sound) (grace : Bool) {a : FlushAction P ε}
    (hown : s.OwnHandles a) : (s.step grace a).Listed := by
  cases a with
  | station op =>
    simp only [FlushSystem.step]
    split_ifs
    · exact h.moved (StationInner.moved_apply grace hs.view op) hown
    · exact h
  | answer i result =>
    show (s.answer i result).Listed
    rcases answer_cases hs i result with heq | ⟨_, _, _, _, -, -, -, -, heq⟩
    · rwa [heq]
    · rw [heq]
      exact h
  | finalFlush i ok =>
    by_cases hleaving : s.leaving i
    · simp only [FlushSystem.step, if_pos hleaving]
      exact h
    · simp only [FlushSystem.step, if_neg hleaving]
      exact h
  | call keys => exact h
  | proceed c =>
    simp only [FlushSystem.step]
    split
    · exact h
    · rename_i call _
      have hproceeds := proceeds_proceed s c call
      generalize s.proceed c call = s' at hproceeds ⊢
      split_ifs
      · exact h
      · cases hproceeds with
        | done => exact h.sweep
        | _ => exact h
  | _ =>
    simp only [FlushSystem.step]
    split_ifs <;> exact h

theorem listed_run (grace : Bool) {as : List (FlushAction P ε)}
    (h : StepsMeet (FlushSystem.step grace) init OwnHandles as) :
    (run grace as : FlushSystem P ε).Listed := by
  have hinit : (init : FlushSystem P ε).Sound ∧ (init : FlushSystem P ε).Listed :=
    ⟨sound_init, fun i key hi => (Option.some_ne_none _ hi.symm).elim⟩
  refine (@foldl_invariant_of_steps _ _ (FlushSystem.step grace) init
    (fun s => s.Sound ∧ s.Listed) _ hinit ?_ as h).2
  exact fun s a hs ha => ⟨hs.1.step grace a, hs.2.step hs.1 grace ha⟩

/-- A trade forwarder opens its store and appends a point. -/
def oneStore : List (FlushAction ℕ String) :=
  [.station (.spawn Station.btcTrades (.ws 0) 0 .subscriber), .station (.openStore 0), .append 0 7]

/-- A call asks it to flush, is answered, and returns. -/
def oneAnswer : List (FlushAction ℕ String) :=
  [.proceed 0, .receive 0, .answer 0 (.ok ()), .proceed 0, .proceed 0]

/-- The steps that a forwarder takes for a call, or on its way out once it has left its loop, and
    those of the calls. -/
inductive Helps : FlushAction P ε → Prop
  | receive (i : ℕ) : Helps (.receive i)
  | answer (i : ℕ) (result : Except ε Unit) : Helps (.answer i result)
  | finalFlush (i : ℕ) (ok : Bool) : Helps (.finalFlush i ok)
  | release (r : MultiplexRef) : Helps (.station (.dropRef r))
  | exit (i : ℕ) : Helps (.station (.exit i))
  | proceed (c : ℕ) : Helps (.proceed c)

/-- Such steps lead from `s` to `s'`. -/
def Leads (grace : Bool) (s s' : FlushSystem P ε) : Prop :=
  ∃ as : List (FlushAction P ε), (∀ a ∈ as, Helps a) ∧ as.foldl (FlushSystem.step grace) s = s'

variable {grace : Bool}

theorem Leads.refl (grace : Bool) (s : FlushSystem P ε) : Leads grace s s :=
  ⟨[], fun _ h => absurd h List.not_mem_nil, rfl⟩

theorem Leads.step (h : Leads grace s s') {a : FlushAction P ε} (ha : Helps a) :
    Leads grace s (s'.step grace a) := by
  obtain ⟨as, has, rfl⟩ := h
  refine ⟨as ++ [a], fun b hb => ?_, List.foldl_concat ..⟩
  rcases List.mem_append.mp hb with hb | hb
  · exact has b hb
  · rwa [List.mem_singleton.mp hb]

theorem Leads.trans {s'' : FlushSystem P ε} (h : Leads grace s s') (h' : Leads grace s' s'') :
    Leads grace s s'' := by
  obtain ⟨as, has, rfl⟩ := h
  obtain ⟨bs, hbs, rfl⟩ := h'
  refine ⟨as ++ bs, fun b hb => ?_, List.foldl_append⟩
  rcases List.mem_append.mp hb with hb | hb
  · exact has b hb
  · exact hbs b hb

theorem Sound.leads (h : s.Sound) (hleads : Leads grace s s') : s'.Sound := by
  obtain ⟨as, -, rfl⟩ := hleads
  exact foldl_invariant h (fun _ a hs => hs.step grace a) as

theorem refs_dropRef (s : StationInner) (grace : Bool) (r : MultiplexRef) :
    (s.dropRef grace r).refs = s.refs.erase r := by
  unfold StationInner.dropRef StationInner.releaseConsumer
  cases hmux : s.muxes r.key with
  | none => rfl
  | some mux =>
    simp only
    split_ifs
    · rfl
    · rfl
    · exact StationInner.removeMux_refs _ _

/-- A forwarder that has left its loop releases its upstreams. -/
theorem leads_released (grace : Bool) (s : FlushSystem P ε) (i : ℕ) :
    ∃ s', Leads grace s s' ∧ s'.inner.stage = s.inner.stage ∧ s'.stores = s.stores ∧
      s'.calls = s.calls ∧ ∀ r ∈ s'.inner.refs, r.holder ≠ .forwarder i := by
  induction hn : s.inner.refs.length using Nat.strongRecOn generalizing s with
  | _ n ih =>
    by_cases hheld : ∃ r ∈ s.inner.refs, r.holder = .forwarder i
    · obtain ⟨r, hr, -⟩ := hheld
      have hlen : ({ s with inner := s.inner.dropRef grace r } : FlushSystem P ε).inner.refs.length
          < n := by
        show (s.inner.dropRef grace r).refs.length < n
        rw [refs_dropRef, List.length_erase_of_mem hr, hn]
        have := List.length_pos_of_mem hr
        omega
      obtain ⟨s', hleads, hstage, hstores, hcalls, hrefs⟩ := ih _ hlen _ rfl
      have hfirst : Leads grace s { s with inner := s.inner.dropRef grace r } :=
        (Leads.refl grace s).step (.release r)
      have hquiet : (s.inner.dropRef grace r).stage = s.inner.stage := by
        have hmoved := StationInner.moved_dropRef s.inner grace r .skip
        cases hmoved with
        | quiet stage_eq => exact stage_eq
      exact ⟨s', hfirst.trans hleads, hstage.trans hquiet, hstores, hcalls, hrefs⟩
    · exact ⟨s, Leads.refl grace s, rfl, rfl, rfl, fun r hr hholder => hheld ⟨r, hr, hholder⟩⟩

/-- A forwarder that has left its loop returns. -/
theorem leads_gone {key : SeriesKey} {rx : Bool}
    (hstage : s.inner.stage i = some (key, .stopping, rx))
    (grace : Bool) : ∃ s', Leads grace s s' ∧ s'.gone i = true ∧ s'.calls = s.calls := by
  -- the final flush first
  obtain ⟨s₁, hleads₁, hstage₁, hcalls₁, hfinal⟩ : ∃ s₁, Leads grace s s₁ ∧
      s₁.inner.stage = s.inner.stage ∧ s₁.calls = s.calls ∧
      (rx = true → (s₁.stores i).final ≠ none) := by
    by_cases hleaving : s.leaving i
    · refine ⟨_, (Leads.refl grace s).step (.finalFlush i true), ?_, ?_, fun _ => ?_⟩ <;>
        simp only [FlushSystem.step, if_pos hleaving]
      · rfl
      · rfl
      · simp
    · refine ⟨s, Leads.refl grace s, rfl, rfl, fun hrx hnone => hleaving ?_⟩
      subst hrx
      exact leaving_iff.mpr ⟨⟨key, hstage⟩, hnone⟩
  obtain ⟨s₂, hleads₂, hstage₂, hstores₂, hcalls₂, hrefs⟩ := leads_released grace s₁ i
  have hstopping : s₂.inner.stage i = some (key, .stopping, rx) := by
    rw [hstage₂, hstage₁]
    exact hstage
  have hmay : s₂.mayDo (.exit i) = true := by
    cases rx with
    | false => simp [mayDo, hstopping]
    | true =>
      have := hfinal rfl
      rw [← hstores₂] at this
      simpa [mayDo, hstopping, Option.isSome_iff_ne_none] using this
  refine ⟨_, (hleads₁.trans hleads₂).step (.exit i), ?_, ?_⟩
  · obtain ⟨f, hf, hfields⟩ := Option.map_eq_some_iff.mp hstopping
    simp only [Prod.mk.injEq] at hfields
    have hexit : s₂.inner.MayExit i f := ⟨hf, hfields.2.1, hrefs⟩
    refine gone_iff.mpr ⟨f.key, f.flushRx, ?_⟩
    simp only [FlushSystem.step, if_pos hmay]
    show (s₂.inner.exit i).stage i = some (f.key, .exited, f.flushRx)
    rw [(StationInner.stage_exit hexit).1, Function.update_self]
  · simp only [FlushSystem.step, if_pos hmay]
    exact hcalls₂.trans hcalls₁

theorem serving_answer (s : FlushSystem P ε) (i : ℕ) (result : Except ε Unit) :
    ((s.answer i result).stores i).serving = none := by
  unfold FlushSystem.answer
  simp only
  split
  · assumption
  · split <;> exact congrArg Persistence.serving (stores_setStore_self ..)

/-- A forwarder in its loop answers the request it has, and takes the next one. -/
theorem leads_received (h : s.Sound) {key : SeriesKey}
    (hstage : s.inner.stage i = some (key, .running, true)) (grace : Bool) :
    ∃ s', Leads grace s s' ∧ (s'.stores i).slot = none ∧
      (s'.stores i).serving = (s.stores i).slot ∧ s'.inner = s.inner ∧
      ∀ c, (s.stores i).serving ≠ some c → s'.calls c = s.calls c := by
  obtain ⟨s₁, hleads, hserving, hslot, hinner, hcalls⟩ : ∃ s₁, Leads grace s s₁ ∧
      (s₁.stores i).serving = none ∧ (s₁.stores i).slot = (s.stores i).slot ∧
      s₁.inner = s.inner ∧ ∀ c, (s.stores i).serving ≠ some c → s₁.calls c = s.calls c := by
    cases hserving : (s.stores i).serving with
    | none => exact ⟨s, Leads.refl grace s, hserving, rfl, rfl, fun _ _ => rfl⟩
    | some d =>
      refine ⟨_, (Leads.refl grace s).step (.answer i (.ok ())), ?_⟩
      show (((s.answer i (.ok ())).stores i).serving = none ∧ _)
      rcases answer_cases h i (.ok ()) with heq | ⟨d', call, _, _, hd', -, -, -, heq⟩
      · exact absurd (heq ▸ serving_answer s i (.ok ())) (by simp [hserving])
      · cases hserving.symm.trans hd'
        rw [show FlushSystem.step grace s (.answer i (.ok ())) = s.answer i (.ok ()) from rfl, heq]
        refine ⟨?_, ?_, rfl, fun c hc => ?_⟩
        · show ((s.setStore i _).stores i).serving = none
          rw [stores_setStore_self]
        · show ((s.setStore i _).stores i).slot = _
          rw [stores_setStore_self]
        · rw [calls_setCall, if_neg fun hcd => hc (by rw [hcd])]
          rfl
  have hready : s₁.ready i = true := ready_iff.mpr ⟨⟨key, by rw [hinner]; exact hstage⟩, hserving⟩
  refine ⟨_, hleads.step (.receive i), ?_⟩
  simp only [FlushSystem.step, if_pos hready, stores_setStore_self, hslot, true_and]
  exact ⟨hinner, hcalls⟩

/-- How much a call has to wait for. -/
def weight (call : FlushCall ε) : ℕ :=
  3 * call.handles.length + match call.stage with
    | .sending => 2
    | .waiting => 1
    | .acked _ => 0

theorem step_proceed (hc : s.calls c = some call) (hreturned : call.returned = none) :
    s.step grace (.proceed c) = s.proceed c call := by
  simp [FlushSystem.step, hc, hreturned]

/-- The forwarder of the first handle has returned. -/
theorem leads_passed {key : SeriesKey} {rest : List (SeriesKey × ℕ)} (hc : s.calls c = some call)
    (hreturned : call.returned = none) (hhandles : call.handles = (key, i) :: rest)
    (hstage : call.stage = .sending ∨ call.stage = .waiting) (hgone : s.gone i = true)
    (grace : Bool) : ∃ s', Leads grace s s' ∧
      s'.calls c = some (FlushCall.next call rest call.errors) := by
  refine ⟨_, (Leads.refl grace s).step (.proceed c), ?_⟩
  rw [step_proceed hc hreturned]
  have hproceed : s.proceed c call = s.setCall c (FlushCall.next call rest call.errors) := by
    rcases hstage with hstage | hstage <;>
      simp only [FlushSystem.proceed, hhandles, hstage, hgone, if_true] <;> rfl
  rw [hproceed, calls_setCall, if_pos rfl]

theorem weight_next {key : SeriesKey} {rest : List (SeriesKey × ℕ)}
    (hhandles : call.handles = (key, i) :: rest) (errors : List (SeriesKey × ε)) :
    weight (FlushCall.next call rest errors) < weight call := by
  simp only [weight, FlushCall.next, hhandles, List.length_cons]
  omega

/-- The answer comes. -/
theorem leads_acked (hserving : (s.stores i).serving = some c)
    (hc : s.calls c = some call) (grace : Bool) :
    ∃ s', Leads grace s s' ∧ s'.calls c = some { call with stage := .acked (.ok ()) } := by
  refine ⟨_, (Leads.refl grace s).step (.answer i (.ok ())), ?_⟩
  show (s.answer i (.ok ())).calls c = _
  have hc' : ∀ store, (s.setStore i store).calls c = some call := fun _ => hc
  simp only [FlushSystem.answer, hserving, hc', calls_setCall, if_true]

/-- **Step lemma.** A call that has handles left comes closer to its return. -/
theorem leads_closer (h : s.Sound) (hc : s.calls c = some call) (hreturned : call.returned = none)
    {key : SeriesKey} {rest : List (SeriesKey × ℕ)} (hhandles : call.handles = (key, i) :: rest)
    (grace : Bool) : ∃ s' call', Leads grace s s' ∧ s'.calls c = some call' ∧
      call'.returned = none ∧ weight call' < weight call := by
  obtain ⟨phase, hstage⟩ := h.listed c call hc key i (hhandles ▸ List.mem_cons_self)
  have hpass : ∀ s₁ : FlushSystem P ε, Leads grace s s₁ → s₁.gone i = true → s₁.calls = s.calls →
      (call.stage = .sending ∨ call.stage = .waiting) → ∃ s' call', Leads grace s s' ∧
        s'.calls c = some call' ∧ call'.returned = none ∧ weight call' < weight call := by
    intro s₁ hleads hgone hcalls hwhere
    have hc₁ : s₁.calls c = some call := by rw [hcalls, hc]
    obtain ⟨s', hleads', hc'⟩ := leads_passed hc₁ hreturned hhandles hwhere hgone grace
    exact ⟨s', _, hleads.trans hleads', hc', hreturned, weight_next hhandles _⟩
  have hacked : ∀ s₁ : FlushSystem P ε, Leads grace s s₁ → (s₁.stores i).serving = some c →
      s₁.calls c = some call → call.stage = .waiting → ∃ s' call', Leads grace s s' ∧
        s'.calls c = some call' ∧ call'.returned = none ∧ weight call' < weight call := by
    intro s₁ hleads hserving hc₁ hwaiting
    obtain ⟨s', hleads', hc'⟩ := leads_acked hserving hc₁ grace
    refine ⟨s', _, hleads.trans hleads', hc', hreturned, ?_⟩
    simp only [weight, hwaiting]
    omega
  have hnot : call.stage = .sending → (s.stores i).serving ≠ some c := by
    intro hsending hserving
    have hgone := h.not_gone (by rw [hserving]; simp)
    obtain ⟨call', _, _, hc', -, hwaiting⟩ := (h.requested i c hgone).mp (.inr hserving)
    cases hc.symm.trans hc'
    exact absurd (hsending.symm.trans hwaiting) (by simp)
  cases hwhere : call.stage with
  | acked result =>
    refine ⟨_, FlushCall.next call rest
      (match result with | .ok _ => call.errors | .error e => call.errors ++ [(key, e)]),
      (Leads.refl grace s).step (.proceed c), ?_, hreturned, weight_next hhandles _⟩
    rw [step_proceed hc hreturned]
    cases result with
    | ok _ =>
      simp only [FlushSystem.proceed, hhandles, hwhere, calls_setCall, if_true]
      rfl
    | error e =>
      simp only [FlushSystem.proceed, hhandles, hwhere, calls_setCall, if_true]
      rfl
  | sending =>
    cases phase with
    | exited =>
      exact hpass s (Leads.refl grace s) (gone_iff.mpr ⟨key, true, hstage⟩) rfl (.inl hwhere)
    | stopping =>
      obtain ⟨s₁, hleads, hgone, hcalls⟩ := leads_gone hstage grace
      exact hpass s₁ hleads hgone hcalls (.inl hwhere)
    | running =>
      obtain ⟨s₁, hleads, hslot, -, hinner, hcalls⟩ := leads_received h hstage grace
      have hc₁ : s₁.calls c = some call := (hcalls c (hnot hwhere)).trans hc
      have hgone : s₁.gone i = false := by
        rw [gone, hinner, hstage]
        rfl
      refine ⟨_, { call with stage := .waiting }, hleads.step (.proceed c), ?_, hreturned, ?_⟩
      · rw [step_proceed hc₁ hreturned]
        simp only [FlushSystem.proceed, hhandles, hwhere, hgone, hslot, if_true, Bool.false_eq_true,
          if_false, calls_setCall]
      · simp only [weight, hwhere]
        omega
  | waiting =>
    cases phase with
    | exited =>
      exact hpass s (Leads.refl grace s) (gone_iff.mpr ⟨key, true, hstage⟩) rfl (.inr hwhere)
    | stopping =>
      obtain ⟨s₁, hleads, hgone, hcalls⟩ := leads_gone hstage grace
      exact hpass s₁ hleads hgone hcalls (.inr hwhere)
    | running =>
      have hgone : s.gone i = false := by
        rw [gone, hstage]
        rfl
      rcases (h.requested i c hgone).mpr ⟨call, key, rest, hc, hhandles, hwhere⟩ with
        hslot | hserving
      · obtain ⟨s₁, hleads, -, hserving, -, hcalls⟩ := leads_received h hstage grace
        refine hacked s₁ hleads (hserving.trans hslot) ((hcalls c fun hs => ?_).trans hc) hwhere
        exact (h.stores i).apart c hs hslot
      · exact hacked s (Leads.refl grace s) hserving hc hwhere

/-- **Main theorem.** From every state that can be reached, every call of `flush_persistence`
    returns after finitely many steps of the calls and of forwarders that answer requests or are
    on their way out: no forwarder has to leave its loop for that, and nobody has to append. -/
theorem flushPersistence_returns (grace : Bool) (as : List (FlushAction P ε)) {c : ℕ}
    (hcall : ((run grace as : FlushSystem P ε).calls c).isSome) :
    ∃ bs : List (FlushAction P ε), (∀ b ∈ bs, Helps b) ∧
      ∃ call, (run grace (as ++ bs)).calls c = some call ∧ call.returned.isSome := by
  suffices hreturns : ∀ n (s : FlushSystem P ε) call, s.Sound → s.calls c = some call →
      call.returned = none → weight call = n → ∃ s' call', Leads grace s s' ∧
        s'.calls c = some call' ∧ call'.returned.isSome by
    obtain ⟨call, hc⟩ := Option.isSome_iff_exists.mp hcall
    cases hreturned : call.returned with
    | some result =>
      refine ⟨[], fun _ h => absurd h List.not_mem_nil, call, ?_, by rw [hreturned]; rfl⟩
      rw [List.append_nil]
      exact hc
    | none =>
      obtain ⟨s', call', ⟨bs, hbs, rfl⟩, hc', hsome⟩ :=
        hreturns _ _ call (sound_run grace as) hc hreturned rfl
      refine ⟨bs, hbs, call', ?_, hsome⟩
      rw [run, List.foldl_append]
      exact hc'
  intro n
  induction n using Nat.strongRecOn with
  | _ n ih =>
    intro s call hs hc hreturned hweight
    rcases hhandles : call.handles with _ | ⟨⟨key, i⟩, rest⟩
    · have hproceed : s.step grace (.proceed c) = s.sweep.setCall c { call with
          returned := some (if call.errors.isEmpty then .ok () else .error call.errors) } := by
        rw [step_proceed hc hreturned]
        simp only [FlushSystem.proceed, hhandles]
      refine ⟨_, { call with
        returned := some (if call.errors.isEmpty then .ok () else .error call.errors) },
        (Leads.refl grace s).step (.proceed c), ?_, rfl⟩
      rw [hproceed, calls_setCall, if_pos rfl]
    · obtain ⟨s₁, call₁, hleads, hc₁, hreturned₁, hlt⟩ :=
        leads_closer hs hc hreturned hhandles grace
      obtain ⟨s', call', hleads', hc', hsome⟩ :=
        ih _ (hweight ▸ hlt) s₁ call₁ (hs.leads hleads) hc₁ hreturned₁ rfl
      exact ⟨s', call', hleads.trans hleads', hc', hsome⟩

theorem flushPersistence_returns_oneStore :
    ∃ bs : List (FlushAction ℕ String), (∀ b ∈ bs, Helps b) ∧
      ∃ call, (run false ((oneStore ++ [.call [Station.btcTrades]]) ++ bs)).calls 0 = some call ∧
        call.returned.isSome :=
  flushPersistence_returns false (oneStore ++ [.call [Station.btcTrades]]) rfl

end FlushSystem

end Digdigdig3.Multiplex
