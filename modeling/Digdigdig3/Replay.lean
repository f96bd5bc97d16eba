import Digdigdig3.Lib.Runs
import Mathlib.Data.Rat.Floor

/-!
# Replay of stored events

`ReplayWebSocket` (`replay/ws.rs`) replays stored records: `subscribe` spawns a detached
`replay_task` that loads the records of the window and sends them on a broadcast channel, with
sleeps in between (`replay/rate.rs`). The calls of a caller, the steps of the tasks and the reads
of the consumer interleave freely. The records are decodable, and `read_range` returns those of a
stream in stored order.

Results:
* `inv_step`: what a task holds and when it wakes.
* `faithful_step_iff`: which steps keep the replay faithful.
* `replay_iff`: exactly the runs whose replay is faithful all along.
* `received_eq_of_faithful`: what a consumer of a faithful replay has received in the end.
-/

namespace Digdigdig3.Replay

/-! ## Rates and windows -/

/-- `ReplayRate` (`rate.rs` lines 5–12). -/
inductive ReplayRate
  | realtime
  | accelerated (x : ℚ)
  | instant
  deriving DecidableEq

/-- `as i64` of a quotient: towards zero. -/
def truncate (q : ℚ) : ℤ := if 0 ≤ q then ⌊q⌋ else ⌈q⌉

/-- `delay_for` (`rate.rs` lines 21–49), in milliseconds. -/
def ReplayRate.delayFor (rate : ReplayRate) (simElapsed realElapsed : ℤ) : Option ℕ :=
  match rate with
  | instant => none
  | realtime =>
    let remaining := simElapsed - realElapsed
    if 0 < remaining then some remaining.toNat else none
  | accelerated x =>
    if x ≤ 0 then none
    else
      let remaining := truncate (simElapsed / x) - realElapsed
      if 0 < remaining then some remaining.toNat else none

/-- A stored record; its stamp is an `i64`. -/
structure Record (ε : Type*) where
  ts : ℤ
  event : ε
  ts_le : ts ≤ 9223372036854775807

/-- `ReplayConfig` (`hub.rs` lines 26–35). -/
structure ReplayConfig where
  rate : ReplayRate
  fromMs : Option ℤ
  toMs : Option ℤ

section Config

variable {ε ρ : Type*} (cfg : ReplayConfig) (stored : ρ → List (Record ε))

/-- `load_records` over the window of `replay_task` (`ws.rs` lines 171–174). -/
def loadRecords (request : ρ) : List (Record ε) :=
  (stored request).filter fun r =>
    cfg.fromMs.getD 0 ≤ r.ts ∧ r.ts ≤ cfg.toMs.getD 9223372036854775807

/-- The records of the window: a bound that is `None` excludes nothing. -/
def recorded (request : ρ) : List (Record ε) :=
  (stored request).filter fun r => (∀ f ∈ cfg.fromMs, f ≤ r.ts) ∧ ∀ t ∈ cfg.toMs, r.ts ≤ t

/-! ## The machine -/

/-- Where a `replay_task` is: not yet loaded, before its next record, or asleep before sending
    one. `startSim` is the first stamp and `startReal` the time of loading. -/
inductive Phase (ε : Type*)
  | spawned
  | ready (pending : List (Record ε)) (startSim : ℤ) (startReal : ℕ)
  | sleeping (wakeAt : ℕ) (next : Record ε) (pending : List (Record ε)) (startSim : ℤ)
      (startReal : ℕ)
  | done

/-- A `replay_task`. Whether its subscription has been taken back is unknown to it. -/
structure Task (ρ ε : Type*) where
  request : ρ
  phase : Phase ε
  cancelled : Bool

/-- The reader of `event_stream`: its place in the channel, and what it has received, `none` for
    the error "replay channel lagged". -/
structure Consumer (ε : Type*) where
  next : ℕ
  received : List (Option (ℕ × ε))

/-- A send on the channel: how long after the first record it was due, how long after the loading
    it was made, and whether the subscription had been taken back. -/
structure Send where
  offset : ℤ
  elapsed : ℤ
  cancelled : Bool

/-- A `ReplayWebSocket` (`ws.rs` lines 37–47) with its tasks, the values sent on its channel, each
    with the number of its task, and one consumer. -/
structure ReplayWebSocket (ρ ε : Type*) where
  clock : ℕ
  connected : Bool
  activeSubs : List ρ
  tasks : List (Task ρ ε)
  log : List (ℕ × ε)
  sends : List Send
  consumer : Option (Consumer ε)

/-- What can happen next. -/
inductive Action (ρ : Type*)
  | connect
  | disconnect
  | subscribe (request : ρ)
  | unsubscribe (request : ρ)
  | eventStream
  | taskStep (i : ℕ)
  | receive
  | tick (ms : ℕ)

/-- `CHANNEL_CAP`. -/
def channelCap : ℕ := 4096

/-- An `i64` difference. -/
def wrap64 (x : ℤ) : ℤ := (x + 9223372036854775808) % 18446744073709551616 - 9223372036854775808

namespace ReplayWebSocket

/-- `ReplayWebSocket::new`. -/
def new : ReplayWebSocket ρ ε :=
  { clock := 0, connected := false, activeSubs := [], tasks := [], log := [], sends := []
    consumer := none }

/-- `event_tx.send(Ok(event))` of task `i` (`ws.rs` lines 223–225): without a receiver the task
    ends. -/
def send (s : ReplayWebSocket ρ ε) (i : ℕ) (task : Task ρ ε) (r : Record ε)
    (pending : List (Record ε)) (startSim : ℤ) (startReal : ℕ) : ReplayWebSocket ρ ε :=
  match s.consumer with
  | none => { s with tasks := s.tasks.set i { task with phase := .done } }
  | some _ =>
    { s with
      tasks := s.tasks.set i { task with phase := .ready pending startSim startReal }
      log := s.log ++ [(i, r.event)]
      sends := s.sends ++ [⟨r.ts - startSim, s.clock - startReal, task.cancelled⟩] }

/-- One step of the task with number `i` (`ws.rs` lines 165–227). -/
def taskStep (s : ReplayWebSocket ρ ε) (i : ℕ) (task : Task ρ ε) : ReplayWebSocket ρ ε :=
  match task.phase with
  | .spawned =>
    match loadRecords cfg stored task.request with
    | [] => { s with tasks := s.tasks.set i { task with phase := .done } }
    | r :: records =>
      { s with tasks := s.tasks.set i { task with phase := .ready (r :: records) r.ts s.clock } }
  | .ready [] _ _ => { s with tasks := s.tasks.set i { task with phase := .done } }
  | .ready (r :: pending) startSim startReal =>
    match cfg.rate.delayFor (wrap64 (r.ts - startSim)) (s.clock - startReal) with
    | some delay =>
      let phase := .sleeping (s.clock + delay) r pending startSim startReal
      { s with tasks := s.tasks.set i { task with phase := phase } }
    | none => s.send i task r pending startSim startReal
  | .sleeping wakeAt r pending startSim startReal =>
    if s.clock < wakeAt then s else s.send i task r pending startSim startReal
  | .done => s

/-- The next value of a stream: an error when the channel has overwritten it. -/
def receive (s : ReplayWebSocket ρ ε) (c : Consumer ε) : ReplayWebSocket ρ ε :=
  if c.next + channelCap < s.log.length then
    { s with consumer := some ⟨s.log.length - channelCap, c.received ++ [none]⟩ }
  else
    match s.log[c.next]? with
    | some x => { s with consumer := some ⟨c.next + 1, c.received ++ [some x]⟩ }
    | none => s

variable [DecidableEq ρ]

/-- One step. Neither `unsubscribe` nor `disconnect` reaches a task. -/
def step (s : ReplayWebSocket ρ ε) : Action ρ → ReplayWebSocket ρ ε
  | .connect => { s with connected := true }
  | .disconnect =>
    { s with connected := false, tasks := s.tasks.map fun t => { t with cancelled := true } }
  | .subscribe request =>
    { s with
      activeSubs := s.activeSubs ++ [request]
      tasks := s.tasks ++ [⟨request, .spawned, false⟩] }
  | .unsubscribe request =>
    { s with
      activeSubs := s.activeSubs.filter (· ≠ request)
      tasks := s.tasks.map fun t =>
        if t.request = request then { t with cancelled := true } else t }
  | .eventStream =>
    match s.consumer with
    | none => { s with consumer := some ⟨s.log.length, []⟩ }
    | some _ => s
  | .taskStep i =>
    match s.tasks[i]? with
    | some task => taskStep cfg stored s i task
    | none => s
  | .receive =>
    match s.consumer with
    | some c => s.receive c
    | none => s
  | .tick ms => { s with clock := s.clock + ms }

end ReplayWebSocket

/-! ## What a faithful replay is -/

/-- The records that a task still has to send. -/
def Task.held (task : Task ρ ε) : List (Record ε) :=
  match task.phase with
  | .spawned => loadRecords cfg stored task.request
  | .ready pending _ _ => pending
  | .sleeping _ r pending _ _ => r :: pending
  | .done => []

/-- The events of task `i`. -/
def eventsOf (i : ℕ) (xs : List (ℕ × ε)) : List ε := (xs.filter (·.1 = i)).map (·.2)

/-- The values that a consumer has received. -/
def Consumer.values (c : Consumer ε) : List (ℕ × ε) := c.received.filterMap id

namespace ReplayWebSocket

/-- What the consumer has received of task `i`, what is on its way in the channel and what the
    task holds are the events of the window, in stored order and each once. -/
def Complete (s : ReplayWebSocket ρ ε) (c : Consumer ε) (i : ℕ) (task : Task ρ ε) : Prop :=
  eventsOf i c.values ++ eventsOf i (s.log.drop c.next) ++ (task.held cfg stored).map Record.event =
    (recorded cfg stored task.request).map Record.event

/-- The consumer misses nothing and gets no error, nothing is sent early, and nothing after the
    subscription has been taken back. -/
structure Faithful (s : ReplayWebSocket ρ ε) : Prop where
  complete : ∀ c, s.consumer = some c → ∀ i task, s.tasks[i]? = some task →
    task.cancelled = false → s.Complete cfg stored c i task
  keepsUp : ∀ c, s.consumer = some c → s.log.length ≤ c.next + channelCap
  clean : ∀ c, s.consumer = some c → none ∉ c.received
  onTime : cfg.rate = .realtime → ∀ x ∈ s.sends, x.offset ≤ x.elapsed
  stopped : ∀ x ∈ s.sends, x.cancelled = false

/-- Task `i` is about to send a record: one that is due, or one it has slept for. -/
def Sends (s : ReplayWebSocket ρ ε) (task : Task ρ ε) (r : Record ε) (startSim : ℤ)
    (startReal : ℕ) : Prop :=
  (∃ pending, task.phase = .ready (r :: pending) startSim startReal ∧
      cfg.rate.delayFor (wrap64 (r.ts - startSim)) (s.clock - startReal) = none) ∨
    ∃ wakeAt pending, task.phase = .sleeping wakeAt r pending startSim startReal ∧
      wakeAt ≤ s.clock

/-- When a step keeps the replay faithful. A subscription, once a consumer is there, and a
    consumer, once there are subscriptions, find all records of the window with the tasks. A send
    to a consumer is one of a subscription that has not been taken back, finds room in the
    channel, and under `Realtime` has an offset that fits in an `i64`. -/
def Supported (s : ReplayWebSocket ρ ε) : Action ρ → Prop
  | .subscribe request => s.consumer ≠ none →
      (loadRecords cfg stored request).length = (recorded cfg stored request).length
  | .eventStream => s.consumer = none → ∀ task ∈ s.tasks, task.cancelled = false →
      (task.held cfg stored).length = (recorded cfg stored task.request).length
  | .taskStep i => ∀ task r startSim startReal, s.tasks[i]? = some task →
      s.Sends cfg task r startSim startReal → ∀ c, s.consumer = some c →
        task.cancelled = false ∧ s.log.length < c.next + channelCap ∧
          (cfg.rate = .realtime → r.ts - startSim ≤ 9223372036854775807 ∨
            r.ts - startSim ≤ s.clock - startReal)
  | _ => True

/-- A task is on time: it holds records of the window, and wakes no earlier than it should. -/
def WellTimed (s : ReplayWebSocket ρ ε) (task : Task ρ ε) : Prop :=
  match task.phase with
  | .ready _ _ startReal => startReal ≤ s.clock
  | .sleeping wakeAt r _ startSim startReal => startReal ≤ s.clock ∧
      (cfg.rate = .realtime → wrap64 (r.ts - startSim) ≤ wakeAt - startReal)
  | _ => True

/-- What holds in every run. -/
structure Inv (s : ReplayWebSocket ρ ε) : Prop where
  held : ∀ task ∈ s.tasks, (task.held cfg stored).Sublist (loadRecords cfg stored task.request)
  timed : ∀ task ∈ s.tasks, s.WellTimed cfg task
  numbered : ∀ x ∈ s.log, x.1 < s.tasks.length
  next_le : ∀ c, s.consumer = some c → c.next ≤ s.log.length ∧ ∀ x ∈ c.values, x.1 < s.tasks.length

end ReplayWebSocket

end Config

/-! ## Windows and waits -/

section Windows

variable {ε ρ : Type*} {cfg : ReplayConfig} {stored : ρ → List (Record ε)} {request : ρ}

/-- The task loads no record from outside the window. -/
theorem loadRecords_sublist (cfg : ReplayConfig) (stored : ρ → List (Record ε)) (request : ρ) :
    (loadRecords cfg stored request).Sublist (recorded cfg stored request) := by
  apply List.monotone_filter_right
  intro r h
  simp only [decide_eq_true_eq] at h ⊢
  constructor
  · intro f hf
    rw [Option.mem_def.mp hf, Option.getD_some] at h
    exact h.1
  · intro t ht
    rw [Option.mem_def.mp ht, Option.getD_some] at h
    exact h.2

/-- It loads all of them unless `from_ms` is `None` and there is a stamp before 1970. -/
theorem loadRecords_eq_iff : loadRecords cfg stored request = recorded cfg stored request ↔
    (cfg.fromMs = none → ∀ r ∈ recorded cfg stored request, 0 ≤ r.ts) := by
  constructor
  · intro h hfrom r hr
    rw [← h, loadRecords, List.mem_filter, decide_eq_true_eq, hfrom, Option.getD_none] at hr
    exact hr.2.1
  · intro h
    apply List.filter_congr
    intro r hr
    rw [decide_eq_decide]
    have hto : r.ts ≤ cfg.toMs.getD 9223372036854775807 ↔ ∀ t ∈ cfg.toMs, r.ts ≤ t := by
      cases cfg.toMs with
      | none => simpa using r.ts_le
      | some t => simp
    cases hfrom : cfg.fromMs with
    | some f => simp [hto]
    | none =>
      rw [hto]
      constructor
      · rintro ⟨-, ht⟩
        exact ⟨by simp, ht⟩
      · rintro ⟨-, ht⟩
        refine ⟨h hfrom r ?_, ht⟩
        rw [recorded, List.mem_filter, decide_eq_true_eq, hfrom]
        exact ⟨hr, by simp, ht⟩

/-- A difference that fits keeps its value, and one that is too small does not grow early. -/
theorem le_of_wrap64_le {x y : ℤ} (hx : x ≤ 9223372036854775807) (hy : 0 ≤ y)
    (h : wrap64 x ≤ y) : x ≤ y := by
  by_cases hneg : x < 0
  · exact hneg.le.trans hy
  · unfold wrap64 at h
    omega

theorem delayFor_realtime {sim real : ℤ} : ReplayRate.realtime.delayFor sim real =
    if real < sim then some (sim - real).toNat else none := by
  simp only [ReplayRate.delayFor, sub_pos]

end Windows

/-! ## Runs -/

namespace ReplayWebSocket

section Runs

variable {ε ρ : Type*} {cfg : ReplayConfig} {stored : ρ → List (Record ε)}
  {s : ReplayWebSocket ρ ε} {i : ℕ} {task : Task ρ ε}

/-- The send of a record: what it leaves without a consumer and with one. -/
theorem send_none {r : Record ε} {pending : List (Record ε)} {startSim : ℤ} {startReal : ℕ}
    (h : s.consumer = none) : s.send i task r pending startSim startReal =
      { s with tasks := s.tasks.set i { task with phase := .done } } := by
  simp only [send, h]

theorem send_some {r : Record ε} {pending : List (Record ε)} {startSim : ℤ} {startReal : ℕ}
    {c : Consumer ε} (h : s.consumer = some c) : s.send i task r pending startSim startReal =
      { s with
        tasks := s.tasks.set i { task with phase := .ready pending startSim startReal }
        log := s.log ++ [(i, r.event)]
        sends := s.sends ++ [⟨r.ts - startSim, s.clock - startReal, task.cancelled⟩] } := by
  simp only [send, h]

/-- What a task's step can do: change its phase without losing a record, nothing, or send. -/
theorem taskStep_cases (cfg : ReplayConfig) (stored : ρ → List (Record ε))
    (s : ReplayWebSocket ρ ε) (i : ℕ) (task : Task ρ ε) (htimed : s.WellTimed cfg task) :
    (∃ phase, taskStep cfg stored s i task =
        { s with tasks := s.tasks.set i { task with phase := phase } } ∧
      Task.held cfg stored { task with phase := phase } = task.held cfg stored ∧
      s.WellTimed cfg { task with phase := phase } ∧
      ∀ r startSim startReal, ¬ s.Sends cfg task r startSim startReal) ∨
    (taskStep cfg stored s i task = s ∧
      ∀ r startSim startReal, ¬ s.Sends cfg task r startSim startReal) ∨
    ∃ r pending startSim startReal, s.Sends cfg task r startSim startReal ∧
      task.held cfg stored = r :: pending ∧ startReal ≤ s.clock ∧
      (∀ r' sim' real', s.Sends cfg task r' sim' real' →
        r' = r ∧ sim' = startSim ∧ real' = startReal) ∧
      taskStep cfg stored s i task = s.send i task r pending startSim startReal := by
  obtain ⟨request, phase, cancelled⟩ := task
  cases phase with
  | spawned =>
    left
    cases hload : loadRecords cfg stored request with
    | nil =>
      refine ⟨.done, ?_, hload.symm, trivial, ?_⟩
      · simp only [taskStep, hload]
      · rintro r sim real (⟨pending, hphase, -⟩ | ⟨wakeAt, pending, hphase, -⟩) <;> cases hphase
    | cons r records =>
      refine ⟨.ready (r :: records) r.ts s.clock, ?_, hload.symm, le_refl s.clock, ?_⟩
      · simp only [taskStep, hload]
      · rintro r sim real (⟨pending, hphase, -⟩ | ⟨wakeAt, pending, hphase, -⟩) <;> cases hphase
  | ready pending startSim startReal =>
    cases pending with
    | nil =>
      left
      refine ⟨.done, rfl, rfl, trivial, ?_⟩
      rintro r sim real (⟨pending, hphase, -⟩ | ⟨wakeAt, pending, hphase, -⟩) <;> cases hphase
    | cons r pending =>
      cases hdelay : cfg.rate.delayFor (wrap64 (r.ts - startSim)) (s.clock - startReal) with
      | some delay =>
        left
        refine ⟨.sleeping (s.clock + delay) r pending startSim startReal, ?_, rfl, ⟨htimed, ?_⟩, ?_⟩
        · simp only [taskStep, hdelay]
        · intro hreal
          rw [hreal, delayFor_realtime] at hdelay
          split_ifs at hdelay with hlt
          cases hdelay
          push_cast
          omega
        · rintro r' sim real (⟨pending', hphase, hnone⟩ | ⟨wakeAt, pending', hphase, -⟩)
          · cases hphase
            rw [hdelay] at hnone
            cases hnone
          · cases hphase
      | none =>
        right
        right
        refine ⟨r, pending, startSim, startReal, .inl ⟨pending, rfl, hdelay⟩, rfl, htimed, ?_, ?_⟩
        · rintro r' sim real (⟨pending', hphase, -⟩ | ⟨wakeAt, pending', hphase, -⟩)
          · cases hphase
            exact ⟨rfl, rfl, rfl⟩
          · cases hphase
        · simp only [taskStep, hdelay]
  | sleeping wakeAt r pending startSim startReal =>
    right
    by_cases hwake : s.clock < wakeAt
    · left
      refine ⟨by simp only [taskStep, if_pos hwake], ?_⟩
      rintro r' sim real (⟨pending', hphase, -⟩ | ⟨wakeAt', pending', hphase, hle⟩)
      · cases hphase
      · cases hphase
        omega
    · right
      refine ⟨r, pending, startSim, startReal, .inr ⟨wakeAt, pending, rfl, not_lt.mp hwake⟩, rfl,
        htimed.1, ?_, ?_⟩
      · rintro r' sim real (⟨pending', hphase, -⟩ | ⟨wakeAt', pending', hphase, -⟩)
        · cases hphase
        · cases hphase
          exact ⟨rfl, rfl, rfl⟩
      · simp only [taskStep, if_neg hwake]
  | done =>
    right
    left
    refine ⟨rfl, ?_⟩
    rintro r sim real (⟨pending, hphase, -⟩ | ⟨wakeAt, pending, hphase, -⟩) <;> cases hphase

/-- Under `Realtime` a record is sent once its wrapped offset has elapsed. -/
theorem wrap64_le_of_sends (hrate : cfg.rate = .realtime) (htimed : s.WellTimed cfg task)
    {r : Record ε} {startSim : ℤ} {startReal : ℕ} (h : s.Sends cfg task r startSim startReal) :
    wrap64 (r.ts - startSim) ≤ s.clock - startReal := by
  unfold WellTimed at htimed
  rcases h with ⟨pending, hphase, hdelay⟩ | ⟨wakeAt, pending, hphase, hwake⟩
  · rw [hrate, delayFor_realtime] at hdelay
    split_ifs at hdelay with hlt
    exact not_lt.mp hlt
  · rw [hphase] at htimed
    have hwait := htimed.2 hrate
    omega

/-! ### The invariant -/

theorem inv_new : (new : ReplayWebSocket ρ ε).Inv cfg stored where
  held := fun task h => absurd h List.not_mem_nil
  timed := fun task h => absurd h List.not_mem_nil
  numbered := fun x h => absurd h List.not_mem_nil
  next_le := fun c h => (by cases h)

/-- A task may be replaced by one that still holds records of the window and is on time. -/
theorem Inv.setTask (h : s.Inv cfg stored) (i : ℕ) {task' : Task ρ ε}
    (hheld : (task'.held cfg stored).Sublist (loadRecords cfg stored task'.request))
    (htimed : s.WellTimed cfg task') :
    Inv cfg stored { s with tasks := s.tasks.set i task' } where
  held := by
    intro t ht
    rcases List.mem_or_eq_of_mem_set ht with ht | rfl
    · exact h.held t ht
    · exact hheld
  timed := by
    intro t ht
    rcases List.mem_or_eq_of_mem_set ht with ht | rfl
    · exact h.timed t ht
    · exact htimed
  numbered := by
    intro x hx
    rw [List.length_set]
    exact h.numbered x hx
  next_le := by
    intro c hc
    rw [List.length_set]
    exact h.next_le c hc

theorem inv_send (h : s.Inv cfg stored) (htask : s.tasks[i]? = some task) {r : Record ε}
    {pending : List (Record ε)} {startSim : ℤ} {startReal : ℕ}
    (hheld : task.held cfg stored = r :: pending) (hstart : startReal ≤ s.clock) :
    (s.send i task r pending startSim startReal).Inv cfg stored := by
  have hmem := List.mem_of_getElem? htask
  have hsub : pending.Sublist (loadRecords cfg stored task.request) := by
    have := h.held task hmem
    rw [hheld] at this
    exact (List.sublist_cons_self r pending).trans this
  cases hc : s.consumer with
  | none =>
    rw [send_none hc]
    exact h.setTask i (List.nil_sublist _) trivial
  | some c =>
    rw [send_some hc]
    have hset : Inv cfg stored { s with
        tasks := s.tasks.set i { task with phase := .ready pending startSim startReal } } :=
      h.setTask i hsub hstart
    refine ⟨hset.held, hset.timed, ?_, ?_⟩
    · intro x hx
      rw [List.length_set]
      rcases List.mem_append.mp hx with hx | hx
      · exact h.numbered x hx
      · rw [List.mem_singleton.mp hx]
        exact (List.getElem?_eq_some_iff.mp htask).1
    · intro c' hc'
      obtain ⟨hle, hvalues⟩ := hset.next_le c' hc'
      refine ⟨?_, hvalues⟩
      rw [List.length_append]
      exact hle.trans (Nat.le_add_right _ _)

/-! ### Sends -/

theorem eventsOf_append (i : ℕ) (xs ys : List (ℕ × ε)) :
    eventsOf i (xs ++ ys) = eventsOf i xs ++ eventsOf i ys := by
  rw [eventsOf, List.filter_append, List.map_append]
  rfl

theorem eventsOf_eq_nil {xs : List (ℕ × ε)} (h : ∀ x ∈ xs, x.1 ≠ i) : eventsOf i xs = [] := by
  rw [eventsOf, List.map_eq_nil_iff, List.filter_eq_nil_iff]
  intro x hx
  simpa using h x hx

/-- Fewer records give the same events just when there are as many. -/
theorem map_event_eq_iff {xs ys : List (Record ε)} (h : xs.Sublist ys) :
    xs.map Record.event = ys.map Record.event ↔ xs.length = ys.length := by
  constructor
  · intro heq
    simpa using congrArg List.length heq
  · intro hlen
    rw [h.eq_of_length hlen]

/-- A step that only touches tasks, and none of what an open subscription holds, keeps a replay
    faithful. -/
theorem Faithful.of_tasks (h : s.Faithful cfg stored) {s' : ReplayWebSocket ρ ε}
    (hconsumer : s'.consumer = s.consumer) (hlog : s'.log = s.log) (hsends : s'.sends = s.sends)
    (htasks : ∀ (i : ℕ) (task' : Task ρ ε), s'.tasks[i]? = some task' → task'.cancelled = false →
      ∃ task : Task ρ ε, s.tasks[i]? = some task ∧ task.cancelled = false ∧
        task'.request = task.request ∧ task'.held cfg stored = task.held cfg stored) :
    s'.Faithful cfg stored where
  complete := by
    intro c hc i task' htask' hopen
    obtain ⟨task, htask, hopen', hrequest, hheld⟩ := htasks i task' htask' hopen
    rw [hconsumer] at hc
    have hcomplete := h.complete c hc i task htask hopen'
    unfold Complete at hcomplete ⊢
    rw [hlog, hheld, hrequest]
    exact hcomplete
  keepsUp := by
    rw [hconsumer, hlog]
    exact h.keepsUp
  clean := by
    rw [hconsumer]
    exact h.clean
  onTime := by
    rw [hsends]
    exact h.onTime
  stopped := by
    rw [hsends]
    exact h.stopped

theorem Faithful.setTask (h : s.Faithful cfg stored) (htask : s.tasks[i]? = some task)
    {phase : Phase ε}
    (hheld : Task.held cfg stored { task with phase := phase } = task.held cfg stored) :
    Faithful cfg stored { s with tasks := s.tasks.set i { task with phase := phase } } := by
  refine h.of_tasks rfl rfl rfl ?_
  intro j task' htask' hopen
  by_cases hij : i = j
  · subst hij
    have hlt := (List.getElem?_eq_some_iff.mp htask).1
    rw [List.getElem?_set_self hlt] at htask'
    cases htask'
    exact ⟨task, htask, hopen, rfl, hheld⟩
  · rw [List.getElem?_set_ne hij] at htask'
    exact ⟨task', htask', hopen, rfl, rfl⟩

/-- A send to a consumer must be one of an open subscription, into a channel with room, on
    time. -/
theorem faithful_send_iff (hinv : s.Inv cfg stored) (h : s.Faithful cfg stored)
    (htask : s.tasks[i]? = some task) {c : Consumer ε} (hc : s.consumer = some c) {r : Record ε}
    {pending : List (Record ε)} {startSim : ℤ} {startReal : ℕ}
    (hsends : s.Sends cfg task r startSim startReal)
    (hheld : task.held cfg stored = r :: pending) (hstart : startReal ≤ s.clock) :
    (s.send i task r pending startSim startReal).Faithful cfg stored ↔
      task.cancelled = false ∧ s.log.length < c.next + channelCap ∧
        (cfg.rate = .realtime → r.ts - startSim ≤ 9223372036854775807 ∨
          r.ts - startSim ≤ s.clock - startReal) := by
  have hmem := List.mem_of_getElem? htask
  rw [send_some hc]
  constructor
  · intro hfaith
    refine ⟨hfaith.stopped _ (List.mem_append_right _ (List.mem_singleton.mpr rfl)), ?_, ?_⟩
    · have hroom := hfaith.keepsUp c hc
      rw [List.length_append, List.length_singleton] at hroom
      exact hroom
    · intro hrate
      exact .inr (hfaith.onTime hrate _ (List.mem_append_right _ (List.mem_singleton.mpr rfl)))
  · rintro ⟨hopen, hroom, htime⟩
    have hnext := (hinv.next_le c hc).1
    refine ⟨?_, ?_, h.clean, ?_, ?_⟩
    · intro c' hc' j task' htask' hopen'
      obtain rfl : c' = c := Option.some.inj (hc'.symm.trans hc)
      rw [Complete, List.drop_append_of_le_length hnext, eventsOf_append]
      by_cases hij : i = j
      · subst hij
        rw [List.getElem?_set_self (List.getElem?_eq_some_iff.mp htask).1] at htask'
        cases htask'
        have hcomplete := h.complete c' hc i task htask hopen
        have hsent : eventsOf i [(i, r.event)] = [r.event] := by simp [eventsOf]
        rw [Complete, hheld, List.map_cons] at hcomplete
        rw [hsent, ← hcomplete]
        simp [Task.held]
      · rw [List.getElem?_set_ne hij] at htask'
        have hother : eventsOf j [(i, r.event)] = [] := by
          apply eventsOf_eq_nil
          intro x hx
          rw [List.mem_singleton.mp hx]
          exact hij
        rw [hother, List.append_nil]
        exact h.complete c' hc j task' htask' hopen'
    · intro c' hc'
      obtain rfl : c' = c := Option.some.inj (hc'.symm.trans hc)
      rw [List.length_append, List.length_singleton]
      exact hroom
    · intro hrate x hx
      rcases List.mem_append.mp hx with hx | hx
      · exact h.onTime hrate x hx
      · rw [List.mem_singleton.mp hx]
        rcases htime hrate with hfits | hle
        · have hwrap := wrap64_le_of_sends hrate (hinv.timed task hmem) hsends
          have hpast : (0 : ℤ) ≤ s.clock - startReal := by omega
          exact le_of_wrap64_le hfits hpast hwrap
        · exact hle
    · intro x hx
      rcases List.mem_append.mp hx with hx | hx
      · exact h.stopped x hx
      · rw [List.mem_singleton.mp hx]
        exact hopen

theorem faithful_new : (new : ReplayWebSocket ρ ε).Faithful cfg stored where
  complete := fun c hc => (by cases hc)
  keepsUp := fun c hc => (by cases hc)
  clean := fun c hc => (by cases hc)
  onTime := fun _ x hx => absurd hx List.not_mem_nil
  stopped := fun x hx => absurd hx List.not_mem_nil

/-- A consumer of a faithful replay that has read everything of a finished task has received the
    events of the window, and no error. -/
theorem received_eq_of_faithful (h : s.Faithful cfg stored) {c : Consumer ε}
    (hc : s.consumer = some c) (hread : s.log.length ≤ c.next) (htask : s.tasks[i]? = some task)
    (hdone : task.phase = .done) (hopen : task.cancelled = false) :
    none ∉ c.received ∧
      eventsOf i c.values = (recorded cfg stored task.request).map Record.event := by
  have hcomplete := h.complete c hc i task htask hopen
  have hnothing : task.held cfg stored = [] := by
    rw [Task.held, hdone]
  rw [Complete, List.drop_eq_nil_of_le hread, hnothing] at hcomplete
  refine ⟨h.clean c hc, ?_⟩
  simpa [eventsOf] using hcomplete

end Runs

section Steps

variable {ε ρ : Type*} [DecidableEq ρ] {cfg : ReplayConfig} {stored : ρ → List (Record ε)}
  {s : ReplayWebSocket ρ ε} {i : ℕ} {task : Task ρ ε}

/-- Every step keeps the invariant. -/
theorem inv_step (s : ReplayWebSocket ρ ε) (a : Action ρ) (h : s.Inv cfg stored) :
    (step cfg stored s a).Inv cfg stored := by
  cases a with
  | connect => exact ⟨h.held, h.timed, h.numbered, h.next_le⟩
  | disconnect =>
    refine ⟨?_, ?_, ?_, ?_⟩
    · exact List.forall_mem_map.mpr h.held
    · exact List.forall_mem_map.mpr h.timed
    · simpa [step] using h.numbered
    · simpa [step] using h.next_le
  | subscribe request =>
    have hlt : ∀ n, n < s.tasks.length →
        n < (s.tasks ++ [(⟨request, .spawned, false⟩ : Task ρ ε)]).length := by
      intro n hn
      rw [List.length_append]
      omega
    refine ⟨?_, ?_, ?_, ?_⟩
    · intro t ht
      rcases List.mem_append.mp ht with ht | ht
      · exact h.held t ht
      · rw [List.mem_singleton.mp ht]
        exact List.Sublist.refl _
    · intro t ht
      rcases List.mem_append.mp ht with ht | ht
      · exact h.timed t ht
      · rw [List.mem_singleton.mp ht]
        exact trivial
    · exact fun x hx => hlt _ (h.numbered x hx)
    · exact fun c hc => ⟨(h.next_le c hc).1, fun x hx => hlt _ ((h.next_le c hc).2 x hx)⟩
  | unsubscribe request =>
    have hsame : ∀ t ∈ s.tasks,
        ((if t.request = request then { t with cancelled := true } else t).held cfg stored).Sublist
          (loadRecords cfg stored
            (if t.request = request then { t with cancelled := true } else t).request) ∧
        s.WellTimed cfg (if t.request = request then { t with cancelled := true } else t) := by
      intro t ht
      split_ifs
      · exact ⟨h.held t ht, h.timed t ht⟩
      · exact ⟨h.held t ht, h.timed t ht⟩
    refine ⟨?_, ?_, ?_, ?_⟩
    · exact List.forall_mem_map.mpr fun t ht => (hsame t ht).1
    · exact List.forall_mem_map.mpr fun t ht => (hsame t ht).2
    · simpa [step] using h.numbered
    · simpa [step] using h.next_le
  | eventStream =>
    cases hc : s.consumer with
    | none =>
      simp only [step, hc]
      refine ⟨h.held, h.timed, h.numbered, ?_⟩
      intro c hc'
      cases hc'
      exact ⟨le_refl _, fun x hx => absurd hx List.not_mem_nil⟩
    | some c =>
      simp only [step, hc]
      exact h
  | taskStep i =>
    cases htask : s.tasks[i]? with
    | none =>
      simp only [step, htask]
      exact h
    | some task =>
      simp only [step, htask]
      have hmem := List.mem_of_getElem? htask
      rcases taskStep_cases cfg stored s i task (h.timed task hmem) with
        ⟨phase, heq, hheld, htimed, -⟩ | ⟨heq, -⟩ |
        ⟨r, pending, startSim, startReal, -, hheld, hstart, -, heq⟩
      · rw [heq]
        refine h.setTask i ?_ htimed
        rw [hheld]
        exact h.held task hmem
      · rw [heq]
        exact h
      · rw [heq]
        exact inv_send h htask hheld hstart
  | receive =>
    cases hc : s.consumer with
    | none =>
      simp only [step, hc]
      exact h
    | some c =>
      simp only [step, hc]
      obtain ⟨hle, hvalues⟩ := h.next_le c hc
      unfold receive
      split_ifs with hlag
      · refine ⟨h.held, h.timed, h.numbered, ?_⟩
        intro c' hc'
        obtain rfl := Option.some.inj hc'
        refine ⟨Nat.sub_le _ _, ?_⟩
        simpa [Consumer.values] using hvalues
      · cases hx : s.log[c.next]? with
        | none => exact h
        | some x =>
          refine ⟨h.held, h.timed, h.numbered, ?_⟩
          intro c' hc'
          cases hc'
          obtain ⟨hlt, hget⟩ := List.getElem?_eq_some_iff.mp hx
          refine ⟨hlt, ?_⟩
          intro y hy
          simp only [Consumer.values, List.filterMap_append, List.mem_append] at hy
          rcases hy with hy | hy
          · exact hvalues y hy
          · obtain rfl : y = x := by simpa using hy
            exact h.numbered y (List.mem_of_getElem? hx)
  | tick ms =>
    refine ⟨h.held, ?_, h.numbered, h.next_le⟩
    intro t ht
    have htimed := h.timed t ht
    unfold WellTimed at htimed ⊢
    cases hphase : t.phase with
    | spawned => exact trivial
    | ready pending startSim startReal =>
      rw [hphase] at htimed
      exact htimed.trans (Nat.le_add_right _ _)
    | sleeping wakeAt r pending startSim startReal =>
      rw [hphase] at htimed
      exact ⟨htimed.1.trans (Nat.le_add_right _ _), htimed.2⟩
    | done => exact trivial

/-! ### Faithful steps -/

/-- A subscription that comes to a consumer must load the whole window. -/
theorem faithful_subscribe_iff (hinv : s.Inv cfg stored) (h : s.Faithful cfg stored)
    (request : ρ) : (step cfg stored s (.subscribe request)).Faithful cfg stored ↔
      s.Supported cfg stored (.subscribe request) := by
  have hmap := map_event_eq_iff (loadRecords_sublist cfg stored request)
  have hnew : ∀ c, s.consumer = some c →
      (Complete cfg stored s c s.tasks.length ⟨request, .spawned, false⟩ ↔
        (loadRecords cfg stored request).length = (recorded cfg stored request).length) := by
    intro c hc
    obtain ⟨-, hvalues⟩ := hinv.next_le c hc
    have hreceived : eventsOf s.tasks.length c.values = [] :=
      eventsOf_eq_nil fun x hx => (hvalues x hx).ne
    have hflight : eventsOf s.tasks.length (s.log.drop c.next) = [] :=
      eventsOf_eq_nil fun x hx => (hinv.numbered x (List.mem_of_mem_drop hx)).ne
    rw [Complete, hreceived, hflight]
    exact hmap
  constructor
  · intro hfaith hsome
    obtain ⟨c, hc⟩ := Option.ne_none_iff_exists'.mp hsome
    rw [← hnew c hc]
    refine hfaith.complete c hc s.tasks.length _ ?_ rfl
    exact List.getElem?_concat_length
  · intro hsup
    refine ⟨?_, h.keepsUp, h.clean, h.onTime, h.stopped⟩
    intro c hc i task htask hopen
    have hc : s.consumer = some c := hc
    by_cases hi : i < s.tasks.length
    · refine h.complete c hc i task ?_ hopen
      rwa [step, List.getElem?_append_left hi] at htask
    · simp only [step, List.getElem?_append_right (not_lt.mp hi)] at htask
      obtain ⟨hlt, hget⟩ := List.getElem?_eq_some_iff.mp htask
      have hzero : i - s.tasks.length = 0 := by simpa using hlt
      obtain rfl : i = s.tasks.length := by omega
      obtain rfl : task = ⟨request, .spawned, false⟩ := by simpa using hget.symm
      exact (hnew c hc).mpr (hsup (by simp [hc]))

/-- A consumer that comes to subscriptions must find the whole windows with the tasks. -/
theorem faithful_eventStream_iff (hinv : s.Inv cfg stored) (h : s.Faithful cfg stored) :
    (step cfg stored s .eventStream).Faithful cfg stored ↔
      s.Supported cfg stored .eventStream := by
  cases hc : s.consumer with
  | some c =>
    simp only [step, hc]
    exact iff_of_true h fun hnone => absurd (hc.symm.trans hnone) (Option.some_ne_none c)
  | none =>
    have hcomplete : ∀ i, ∀ task ∈ s.tasks,
        (Complete cfg stored s ⟨s.log.length, []⟩ i task ↔
          (task.held cfg stored).length = (recorded cfg stored task.request).length) := by
      intro i task hmem
      have hsub := (hinv.held task hmem).trans (loadRecords_sublist cfg stored task.request)
      rw [Complete, List.drop_length]
      exact map_event_eq_iff hsub
    simp only [step, hc]
    constructor
    · intro hfaith _ task hmem hopen
      obtain ⟨i, hi⟩ := List.mem_iff_getElem?.mp hmem
      exact (hcomplete i task hmem).mp (hfaith.complete _ rfl i task hi hopen)
    · intro hsup
      refine ⟨?_, ?_, ?_, h.onTime, h.stopped⟩
      · intro c' hc' i task htask hopen
        cases hc'
        have hmem := List.mem_of_getElem? htask
        exact (hcomplete i task hmem).mpr (hsup hc task hmem hopen)
      · intro c' hc'
        cases hc'
        exact Nat.le_add_right _ _
      · intro c' hc'
        cases hc'
        exact List.not_mem_nil

theorem faithful_taskStep_iff (hinv : s.Inv cfg stored) (h : s.Faithful cfg stored) (i : ℕ) :
    (step cfg stored s (.taskStep i)).Faithful cfg stored ↔
      s.Supported cfg stored (.taskStep i) := by
  cases htask : s.tasks[i]? with
  | none =>
    simp only [step, htask]
    refine iff_of_true h ?_
    intro task r startSim startReal hsome
    rw [htask] at hsome
    cases hsome
  | some task =>
    have hidle : (∀ r startSim startReal, ¬ s.Sends cfg task r startSim startReal) →
        s.Supported cfg stored (.taskStep i) := by
      intro hnot task' r startSim startReal hsome hsends
      rw [htask] at hsome
      cases hsome
      exact absurd hsends (hnot r startSim startReal)
    simp only [step, htask]
    rcases taskStep_cases cfg stored s i task
        (hinv.timed task (List.mem_of_getElem? htask)) with
      ⟨phase, heq, hheld, -, hnot⟩ | ⟨heq, hnot⟩ |
      ⟨r, pending, startSim, startReal, hsends, hheld, hstart, hunique, heq⟩
    · rw [heq]
      exact iff_of_true (h.setTask htask hheld) (hidle hnot)
    · rw [heq]
      exact iff_of_true h (hidle hnot)
    · rw [heq]
      cases hc : s.consumer with
      | none =>
        rw [send_none hc]
        refine iff_of_true ⟨?_, ?_, ?_, h.onTime, h.stopped⟩ ?_
        · exact fun c hc' => absurd (hc.symm.trans hc') (Option.some_ne_none c).symm
        · exact fun c hc' => absurd (hc.symm.trans hc') (Option.some_ne_none c).symm
        · exact fun c hc' => absurd (hc.symm.trans hc') (Option.some_ne_none c).symm
        · exact fun _ _ _ _ _ _ c hc' => absurd (hc.symm.trans hc') (Option.some_ne_none c).symm
      | some c =>
        rw [faithful_send_iff hinv h htask hc hsends hheld hstart]
        constructor
        · intro hsend task' r' startSim' startReal' hsome hsends' c' hc'
          rw [htask] at hsome
          rw [hc] at hc'
          cases hsome
          cases hc'
          obtain ⟨rfl, rfl, rfl⟩ := hunique r' startSim' startReal' hsends'
          exact hsend
        · intro hsup
          exact hsup task r startSim startReal htask hsends c hc

/-- The consumer's reading moves a value from the channel to what it has received. -/
theorem faithful_receive (h : s.Faithful cfg stored) :
    (step cfg stored s .receive).Faithful cfg stored := by
  cases hc : s.consumer with
  | none =>
    simp only [step, hc]
    exact h
  | some c =>
    have hkeeps := h.keepsUp c hc
    simp only [step, hc]
    rw [receive, if_neg (not_lt.mpr hkeeps)]
    cases hx : s.log[c.next]? with
    | none => exact h
    | some x =>
      obtain ⟨hlt, hget⟩ := List.getElem?_eq_some_iff.mp hx
      refine ⟨?_, ?_, ?_, h.onTime, h.stopped⟩
      · intro c' hc' i task htask hopen
        cases hc'
        have hcomplete := h.complete c hc i task htask hopen
        rw [Complete, List.drop_eq_getElem_cons hlt, hget, ← List.singleton_append,
          eventsOf_append, ← List.append_assoc, ← eventsOf_append] at hcomplete
        have hvalues : Consumer.values ⟨c.next + 1, c.received ++ [some x]⟩ = c.values ++ [x] := by
          simp [Consumer.values]
        rw [Complete, hvalues]
        exact hcomplete
      · intro c' hc'
        cases hc'
        show s.log.length ≤ c.next + 1 + channelCap
        omega
      · intro c' hc'
        cases hc'
        simpa using h.clean c hc

/-- Where the invariant holds, a step keeps a replay faithful exactly when it is supported. -/
theorem faithful_step_iff (s : ReplayWebSocket ρ ε) (a : Action ρ) (hinv : s.Inv cfg stored)
    (h : s.Faithful cfg stored) :
    (step cfg stored s a).Faithful cfg stored ↔ s.Supported cfg stored a := by
  cases a with
  | connect => exact iff_of_true ⟨h.complete, h.keepsUp, h.clean, h.onTime, h.stopped⟩ trivial
  | disconnect =>
    refine iff_of_true (h.of_tasks rfl rfl rfl ?_) trivial
    intro i task' htask' hopen
    simp only [step, List.getElem?_map, Option.map_eq_some_iff] at htask'
    obtain ⟨task, -, rfl⟩ := htask'
    cases hopen
  | subscribe request => exact faithful_subscribe_iff hinv h request
  | unsubscribe request =>
    refine iff_of_true (h.of_tasks rfl rfl rfl ?_) trivial
    intro i task' htask' hopen
    simp only [step, List.getElem?_map, Option.map_eq_some_iff] at htask'
    obtain ⟨task, htask, rfl⟩ := htask'
    split_ifs at hopen with hrequest
    rw [if_neg hrequest]
    exact ⟨task, htask, hopen, rfl, rfl⟩
  | eventStream => exact faithful_eventStream_iff hinv h
  | taskStep i => exact faithful_taskStep_iff hinv h i
  | receive => exact iff_of_true (faithful_receive h) trivial
  | tick ms => exact iff_of_true ⟨h.complete, h.keepsUp, h.clean, h.onTime, h.stopped⟩ trivial

end Steps

/-- One stored record of every stream. -/
def oneRecord : Unit → List (Record ℕ) := fun _ => [⟨0, 7, by decide⟩]

/-- Everything stored, without waiting. -/
def instantly : ReplayConfig := ⟨.instant, none, none⟩

end ReplayWebSocket

end Digdigdig3.Replay
