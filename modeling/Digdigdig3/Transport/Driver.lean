import Digdigdig3.Core.StreamSpec
import Digdigdig3.Lib.Runs

/-!
# The WebSocket driver

`DriverTask` of `crates/digdigdig3/src/core/websocket/transport.rs` with the two bridge tasks of
each connection, and `BackoffState` of `reconnect.rs`. Delays are left out: the driver waits at
the top of its loop. Connections are numbered from 1 in the order they are made.

* `DriverTask`: what the driver and its tasks hold, and a record of what they did.
* `Event`, `step`: what can happen, and what the driver does then.
* `Move`, `move_or_stay`: what a step can do.
-/

namespace Digdigdig3.Transport

/-- `TransportState` (lines 64–69). -/
inductive TransportState
  | disconnected | connecting | connected | reconnecting
  deriving DecidableEq

/-- `TransportCmd` (lines 87–98). -/
inductive TransportCmd
  | connect
  | subscribe (spec : StreamSpec)
  | unsubscribe (spec : StreamSpec)
  | shutdown
  deriving DecidableEq

/-- A frame, by what it was built for. -/
inductive Frame
  | subscribe (spec : StreamSpec)
  | unsubscribe (spec : StreamSpec)
  | other
  deriving DecidableEq

/-- A frame with the connection it was built or read on. -/
structure Tagged (α : Type) where
  madeOn : ℕ
  val : α

/-- What the driver asks of a `WsProtocol`: the specs it can build frames for, and how many
    frames it sends after connecting. -/
structure WsProtocol where
  subscribeFrame : StreamSpec → Bool
  unsubscribeFrame : StreamSpec → Bool
  postConnectFrames : ℕ

/-- A protocol that builds every frame. -/
def anyFrame : WsProtocol where
  subscribeFrame := fun _ => true
  unsubscribeFrame := fun _ => true
  postConnectFrames := 0

/-- Where `run` is. -/
inductive Phase
  /-- The top of the loop, or the sleep before it. -/
  | loopTop
  /-- Awaiting `pre_connect_hook`. -/
  | preConnect
  /-- Awaiting `connect_ws`. -/
  | connecting
  /-- The post-connect delay and the auth handshake. -/
  | handshake
  /-- The replay, with the specs still to come. -/
  | replay (todo : List StreamSpec)
  /-- The post-connect frames still to come. -/
  | postConnect (left : ℕ)
  | messageLoop
  | returned
  deriving DecidableEq

/-- What the read task passes on: a frame, which may call for an answer, an error, the end. -/
inductive Incoming
  | frame (reply : Bool)
  | error
  | eof

/-- `DriverTask` (lines 424–440) and the channels of its tasks. From `wire` on, a record of what
    happened. -/
structure DriverTask where
  phase : Phase
  state : TransportState
  /-- `BackoffState::attempt`. -/
  attempt : UInt32
  activeSubs : Finset StreamSpec
  /-- The queue of `cmd_rx`. -/
  cmds : List TransportCmd
  /-- Every command sender is gone. -/
  sendersDropped : Bool
  /-- The number of the latest connection. -/
  current : ℕ
  /-- `write_rx` and `read_rx` of each connection. -/
  writeQueue : ℕ → List (Tagged Frame)
  readQueue : ℕ → List (Tagged Incoming)
  /-- The frames each connection has carried. -/
  wire : ℕ → List (Tagged Frame)
  /-- Each frame taken: the connection it was read on, and the one it was taken for. -/
  dispatched : List (ℕ × ℕ)
  /-- The commands accepted, and those the loop has taken. -/
  accepted : List TransportCmd
  taken : List TransportCmd
  /-- A shutdown is queued, or every sender dropped; what was begun and sent since. -/
  stopped : Bool
  attemptsAfterStop : ℕ
  subscribesAfterStop : ℕ
  /-- The latest connection has delivered a frame. -/
  worked : Bool
  /-- Attempts since the last connection that worked. -/
  failedInARow : ℕ

/-- How the handshake ends (lines 521–552). -/
inductive AuthResult
  | notNeeded | buildFailed | sendFailed | noAck | acked
  deriving DecidableEq

/-- What can happen to the driver and its tasks. -/
inductive Event
  /-- A user queues a command. -/
  | queue (cmd : TransportCmd)
  | dropSenders
  /-- The driver leaves the top of the loop. -/
  | begin
  | hook (ok : Bool)
  | connected (ok : Bool)
  /-- The handshake ends; `order` is how the set of subscriptions is walked. -/
  | auth (result : AuthResult) (order : List StreamSpec)
  /-- The next frame of the replay is sent. -/
  | replayNext (ok : Bool)
  | postConnectNext (ok : Bool)
  /-- The loop takes what the read task passed on. -/
  | receive
  | silent
  /-- The loop takes a command. -/
  | command
  | ping (frame : Bool)
  /-- The read task of a connection passes something on. -/
  | read (i : ℕ) (item : Incoming)
  /-- The write task of a connection sends its next frame. -/
  | write (i : ℕ) (ok : Bool)
  /-- The write task of a connection ends. -/
  | writerEnds (i : ℕ)

namespace DriverTask

/-- A driver that has just been spawned (lines 181–194). -/
def new : DriverTask where
  phase := .loopTop
  state := .disconnected
  attempt := 0
  activeSubs := ∅
  cmds := []
  sendersDropped := false
  current := 0
  writeQueue := fun _ => []
  readQueue := fun _ => []
  wire := fun _ => []
  dispatched := []
  accepted := []
  taken := []
  stopped := false
  attemptsAfterStop := 0
  subscribesAfterStop := 0
  worked := false
  failedInARow := 0

/-! ## Pieces -/

/-- A frame goes out on connection `i`. -/
def carry (s : DriverTask) (i : ℕ) (frame : Tagged Frame) : DriverTask :=
  { s with
    wire := Function.update s.wire i (s.wire i ++ [frame])
    subscribesAfterStop := match frame.val with
      | .subscribe _ => if s.stopped then s.subscribesAfterStop + 1 else s.subscribesAfterStop
      | _ => s.subscribesAfterStop }

/-- `conn.send` of a frame built for the latest connection, when it returns `Ok`. -/
def send (s : DriverTask) (frame : Frame) : DriverTask :=
  s.carry s.current { madeOn := s.current, val := frame }

/-- `write_tx.send`. -/
def enqueue (s : DriverTask) (frame : Frame) : DriverTask :=
  { s with
    writeQueue := Function.update s.writeQueue s.current
      (s.writeQueue s.current ++ [{ madeOn := s.current, val := frame }]) }

/-- An attempt failed; `counted` when `next_delay` is called. -/
def retry (s : DriverTask) (counted : Bool) : DriverTask :=
  { s with
    phase := .loopTop
    attempt := if counted then s.attempt + 1 else s.attempt
    failedInARow := s.failedInARow + 1 }

/-- The loop exits that reconnect (lines 909–921). -/
def leaveLoop (cfgMaxAttempts : UInt32) (s : DriverTask) : DriverTask :=
  if 0 < cfgMaxAttempts ∧ cfgMaxAttempts ≤ s.attempt then
    { s with phase := .returned, state := .disconnected }
  else { s with phase := .loopTop, attempt := s.attempt + 1 }

/-- The connection was lost: a failed attempt unless it had delivered something. -/
def lose (cfgMaxAttempts : UInt32) (s : DriverTask) : DriverTask :=
  leaveLoop cfgMaxAttempts
    { s with failedInARow := if s.worked then s.failedInARow else s.failedInARow + 1 }

/-! ## What each event does -/

/-- `subscribe` probes the frame before it queues the command (lines 294–296). -/
def probe (p : WsProtocol) : TransportCmd → Bool
  | .subscribe spec => p.subscribeFrame spec
  | _ => true

/-- `connect`, `disconnect`, `subscribe` and `unsubscribe` (lines 250–308). -/
def queueCmd (p : WsProtocol) (s : DriverTask) (cmd : TransportCmd) : DriverTask :=
  if s.phase ≠ .returned ∧ s.sendersDropped = false ∧ probe p cmd = true then
    { s with
      cmds := s.cmds ++ [cmd]
      accepted := s.accepted ++ [cmd]
      stopped := s.stopped || cmd = .shutdown }
  else s

/-- The top of the loop (lines 452–462). -/
def beginAttempt (s : DriverTask) : DriverTask :=
  if s.phase = .loopTop then
    { s with
      phase := .preConnect
      state := if 0 < s.attempt then .reconnecting else .connecting
      attemptsAfterStop := if s.stopped then s.attemptsAfterStop + 1 else s.attemptsAfterStop }
  else s

/-- The pre-connect hook answers (lines 465–480). -/
def hooked (s : DriverTask) (ok : Bool) : DriverTask :=
  if s.phase = .preConnect then
    if ok then { s with phase := .connecting }
    else { s with state := .reconnecting }.retry true
  else s

/-- `connect_ws` answers (lines 485–508). -/
def connected (s : DriverTask) (ok : Bool) : DriverTask :=
  if s.phase = .connecting then
    if ok then { s with phase := .handshake, current := s.current + 1, worked := false }
    else s.retry true
  else s

/-- The auth handshake (lines 519–552), then the replay begins. -/
def authenticated (s : DriverTask) (result : AuthResult) (order : List StreamSpec) : DriverTask :=
  if s.phase = .handshake ∧ order.Nodup ∧ order.toFinset = s.activeSubs then
    match result with
    | .notNeeded => { s with phase := .replay order }
    | .acked => { s.send .other with phase := .replay order }
    | .noAck => (s.send .other).retry false
    | .buildFailed | .sendFailed => s.retry false
  else s

/-- One spec of the replay (lines 555–571), or its end. -/
def replayNext (p : WsProtocol) (s : DriverTask) (ok : Bool) : DriverTask :=
  match s.phase with
  | .replay (spec :: todo) =>
    if p.subscribeFrame spec ∧ ok then { s.send (.subscribe spec) with phase := .replay todo }
    else { s with phase := .replay todo }
  | .replay [] => { s with phase := .postConnect p.postConnectFrames }
  | _ => s

/-- One post-connect frame (lines 574–578), or the driver is connected (lines 581–584). -/
def postConnectNext (s : DriverTask) (ok : Bool) : DriverTask :=
  match s.phase with
  | .postConnect (left + 1) =>
    if ok then { s.send .other with phase := .postConnect left }
    else { s with phase := .postConnect left }
  | .postConnect 0 => { s with phase := .messageLoop, state := .connected, attempt := 0 }
  | _ => s

/-- `read_rx.recv()`. -/
def popRead (s : DriverTask) (item : Tagged Incoming) (rest : List (Tagged Incoming)) :
    DriverTask :=
  { s with
    readQueue := Function.update s.readQueue s.current rest
    dispatched := s.dispatched ++ [(item.madeOn, s.current)] }

/-- The read arm of the loop (lines 798–825). -/
def receive (cfgMaxAttempts : UInt32) (s : DriverTask) : DriverTask :=
  if s.phase = .messageLoop then
    match s.readQueue s.current with
    | [] => s
    | item :: rest =>
      match item.val with
      | .frame reply =>
        let worked := { s.popRead item rest with worked := true, failedInARow := 0 }
        if reply then worked.enqueue .other else worked
      | .error | .eof => (s.popRead item rest).lose cfgMaxAttempts
  else s

/-- The watchdog arm (lines 828–830). -/
def silence (cfgMaxAttempts : UInt32) (s : DriverTask) : DriverTask :=
  if s.phase = .messageLoop then s.lose cfgMaxAttempts else s

/-- `cmd_rx.recv()`. -/
def popCmd (s : DriverTask) (cmd : TransportCmd) (rest : List TransportCmd) : DriverTask :=
  { s with cmds := rest, taken := s.taken ++ [cmd] }

/-- A command is carried out (lines 835–868). -/
def obey (p : WsProtocol) (s : DriverTask) : TransportCmd → DriverTask
  | .connect => s
  | .subscribe spec =>
    let added := { s with activeSubs := insert spec s.activeSubs }
    if p.subscribeFrame spec then added.enqueue (.subscribe spec) else added
  | .unsubscribe spec =>
    let removed := { s with activeSubs := s.activeSubs.erase spec }
    if p.unsubscribeFrame spec then removed.enqueue (.unsubscribe spec) else removed
  | .shutdown => { s with phase := .returned, state := .disconnected }

/-- The command arm (lines 833–875). -/
def command (cfgMaxAttempts : UInt32) (p : WsProtocol) (s : DriverTask) : DriverTask :=
  if s.phase = .messageLoop then
    match s.cmds with
    | [] => if s.sendersDropped then s.leaveLoop cfgMaxAttempts else s
    | cmd :: rest => (s.popCmd cmd rest).obey p cmd
  else s

/-- The ping arm (lines 878–897). -/
def pingTick (s : DriverTask) (frame : Bool) : DriverTask :=
  if s.phase = .messageLoop ∧ frame then s.enqueue .other else s

/-- The read task of connection `i` (lines 616–679). -/
def readTask (s : DriverTask) (i : ℕ) (item : Incoming) : DriverTask :=
  if i ≤ s.current then
    { s with
      readQueue :=
        Function.update s.readQueue i (s.readQueue i ++ [{ madeOn := i, val := item }]) }
  else s

/-- The write task of connection `i` (lines 682–708): the result of the send is dropped. -/
def writeTask (s : DriverTask) (i : ℕ) (ok : Bool) : DriverTask :=
  match s.writeQueue i with
  | [] => s
  | frame :: rest =>
    let popped := { s with writeQueue := Function.update s.writeQueue i rest }
    if ok then popped.carry i frame else popped

/-- The write task of connection `i` is killed: not while its loop runs. -/
def writerEnds (s : DriverTask) (i : ℕ) : DriverTask :=
  if s.phase = .messageLoop ∧ i = s.current then s
  else { s with writeQueue := Function.update s.writeQueue i [] }

/-- One event. -/
def step (cfgMaxAttempts : UInt32) (p : WsProtocol) (s : DriverTask) : Event → DriverTask
  | .queue cmd => s.queueCmd p cmd
  | .dropSenders => { s with sendersDropped := true, stopped := true }
  | .begin => s.beginAttempt
  | .hook ok => s.hooked ok
  | .connected ok => s.connected ok
  | .auth result order => s.authenticated result order
  | .replayNext ok => s.replayNext p ok
  | .postConnectNext ok => s.postConnectNext ok
  | .receive => s.receive cfgMaxAttempts
  | .silent => s.silence cfgMaxAttempts
  | .command => s.command cfgMaxAttempts p
  | .ping frame => s.pingTick frame
  | .read i item => s.readTask i item
  | .write i ok => s.writeTask i ok
  | .writerEnds i => s.writerEnds i

/-- A run of a new driver. -/
def run (cfgMaxAttempts : UInt32) (p : WsProtocol) (es : List Event) : DriverTask :=
  es.foldl (step cfgMaxAttempts p) new

/-! ## What a step can do -/

/-- The loop was left for another attempt, or for good. -/
inductive Left (s : DriverTask) : DriverTask → Prop
  | again : Left s { s with phase := .loopTop, attempt := s.attempt + 1 }
  | forGood : s.attempt ≠ 0 → Left s { s with phase := .returned, state := .disconnected }

/-- The steps that do something, each with what holds before it. -/
inductive Move (p : WsProtocol) (s : DriverTask) : Event → DriverTask → Prop
  | queued (cmd) : s.phase ≠ .returned → probe p cmd = true → Move p s (.queue cmd)
      { s with
        cmds := s.cmds ++ [cmd]
        accepted := s.accepted ++ [cmd]
        stopped := s.stopped || cmd = .shutdown }
  | dropped : Move p s .dropSenders { s with sendersDropped := true, stopped := true }
  | began (state) : s.phase = .loopTop → Move p s .begin
      { s with
        phase := .preConnect
        state := state
        attemptsAfterStop := if s.stopped then s.attemptsAfterStop + 1 else s.attemptsAfterStop }
  | hooked : s.phase = .preConnect → Move p s (.hook true) { s with phase := .connecting }
  | hookFailed : s.phase = .preConnect →
      Move p s (.hook false) ({ s with state := .reconnecting }.retry true)
  | connected : s.phase = .connecting → Move p s (.connected true)
      { s with phase := .handshake, current := s.current + 1, worked := false }
  | connectFailed : s.phase = .connecting → Move p s (.connected false) (s.retry true)
  | authNotNeeded (order) : s.phase = .handshake → order.Nodup → order.toFinset = s.activeSubs →
      Move p s (.auth .notNeeded order) { s with phase := .replay order }
  | acked (order) : s.phase = .handshake → order.Nodup → order.toFinset = s.activeSubs →
      Move p s (.auth .acked order) { s.send .other with phase := .replay order }
  | noAck (order) : s.phase = .handshake → order.Nodup → order.toFinset = s.activeSubs →
      Move p s (.auth .noAck order) ((s.send .other).retry false)
  | authFailed (result order) : s.phase = .handshake → order.Nodup →
      order.toFinset = s.activeSubs → result = .buildFailed ∨ result = .sendFailed →
      Move p s (.auth result order) (s.retry false)
  | replayed (spec todo) : s.phase = .replay (spec :: todo) → p.subscribeFrame spec = true →
      Move p s (.replayNext true) { s.send (.subscribe spec) with phase := .replay todo }
  | replayFailed (spec todo ok) : s.phase = .replay (spec :: todo) →
      ¬ (p.subscribeFrame spec = true ∧ ok = true) →
      Move p s (.replayNext ok) { s with phase := .replay todo }
  | replayDone (ok) : s.phase = .replay [] →
      Move p s (.replayNext ok) { s with phase := .postConnect p.postConnectFrames }
  | postConnected (left) : s.phase = .postConnect (left + 1) →
      Move p s (.postConnectNext true) { s.send .other with phase := .postConnect left }
  | postConnectFailed (left) : s.phase = .postConnect (left + 1) →
      Move p s (.postConnectNext false) { s with phase := .postConnect left }
  | entered (ok) : s.phase = .postConnect 0 → Move p s (.postConnectNext ok)
      { s with phase := .messageLoop, state := .connected, attempt := 0 }
  | received (item rest) : s.phase = .messageLoop → s.readQueue s.current = item :: rest →
      item.val = .frame false →
      Move p s .receive { s.popRead item rest with worked := true, failedInARow := 0 }
  | replied (item rest) : s.phase = .messageLoop → s.readQueue s.current = item :: rest →
      item.val = .frame true →
      Move p s .receive
        ({ s.popRead item rest with worked := true, failedInARow := 0 }.enqueue .other)
  | lost (item rest t) : s.phase = .messageLoop → s.readQueue s.current = item :: rest →
      (∀ reply, item.val ≠ .frame reply) →
      Left { s.popRead item rest with
        failedInARow := if s.worked then s.failedInARow else s.failedInARow + 1 } t →
      Move p s .receive t
  | silenced (t) : s.phase = .messageLoop →
      Left { s with failedInARow := if s.worked then s.failedInARow else s.failedInARow + 1 } t →
      Move p s .silent t
  | obeyed (cmd rest) : s.phase = .messageLoop → s.cmds = cmd :: rest →
      Move p s .command ((s.popCmd cmd rest).obey p cmd)
  | abandoned (t) : s.phase = .messageLoop → s.cmds = [] → s.sendersDropped = true → Left s t →
      Move p s .command t
  | pinged : s.phase = .messageLoop → Move p s (.ping true) (s.enqueue .other)
  | read (i item) : i ≤ s.current → Move p s (.read i item)
      { s with
        readQueue :=
          Function.update s.readQueue i (s.readQueue i ++ [{ madeOn := i, val := item }]) }
  | written (i frame rest) : s.writeQueue i = frame :: rest → Move p s (.write i true)
      ({ s with writeQueue := Function.update s.writeQueue i rest }.carry i frame)
  | writeFailed (i frame rest) : s.writeQueue i = frame :: rest → Move p s (.write i false)
      { s with writeQueue := Function.update s.writeQueue i rest }
  | writerEnded (i) : ¬ (s.phase = .messageLoop ∧ i = s.current) → Move p s (.writerEnds i)
      { s with writeQueue := Function.update s.writeQueue i [] }

theorem left_leaveLoop (cfgMaxAttempts : UInt32) (s : DriverTask) :
    Left s (s.leaveLoop cfgMaxAttempts) := by
  unfold leaveLoop
  split_ifs with h
  · refine Left.forGood fun hzero => ?_
    rw [hzero] at h
    have hpos := UInt32.lt_iff_toNat_lt.mp h.1
    have hle := UInt32.le_iff_toNat_le.mp h.2
    omega
  · exact Left.again

/-! Each handler makes its move, or does nothing. -/

theorem queueCmd_cases (p : WsProtocol) (s : DriverTask) (cmd : TransportCmd) :
    Move p s (.queue cmd) (s.queueCmd p cmd) ∨ s.queueCmd p cmd = s := by
  unfold queueCmd
  split_ifs with h
  · exact Or.inl (Move.queued cmd h.1 h.2.2)
  · exact Or.inr rfl

theorem beginAttempt_cases (p : WsProtocol) (s : DriverTask) :
    Move p s .begin s.beginAttempt ∨ s.beginAttempt = s := by
  unfold beginAttempt
  by_cases h : s.phase = .loopTop
  · rw [if_pos h]
    exact Or.inl (Move.began _ h)
  · rw [if_neg h]
    exact Or.inr rfl

theorem hooked_cases (p : WsProtocol) (s : DriverTask) (ok : Bool) :
    Move p s (.hook ok) (s.hooked ok) ∨ s.hooked ok = s := by
  unfold hooked
  by_cases h : s.phase = .preConnect
  · rw [if_pos h]
    cases ok with
    | true => exact Or.inl (Move.hooked h)
    | false => exact Or.inl (Move.hookFailed h)
  · rw [if_neg h]
    exact Or.inr rfl

theorem connected_cases (p : WsProtocol) (s : DriverTask) (ok : Bool) :
    Move p s (.connected ok) (s.connected ok) ∨ s.connected ok = s := by
  unfold connected
  by_cases h : s.phase = .connecting
  · rw [if_pos h]
    cases ok with
    | true => exact Or.inl (Move.connected h)
    | false => exact Or.inl (Move.connectFailed h)
  · rw [if_neg h]
    exact Or.inr rfl

theorem authenticated_cases (p : WsProtocol) (s : DriverTask) (result : AuthResult)
    (order : List StreamSpec) :
    Move p s (.auth result order) (s.authenticated result order) ∨
      s.authenticated result order = s := by
  unfold authenticated
  by_cases h : s.phase = .handshake ∧ order.Nodup ∧ order.toFinset = s.activeSubs
  · rw [if_pos h]
    obtain ⟨hphase, hnodup, hset⟩ := h
    cases result with
    | notNeeded => exact Or.inl (Move.authNotNeeded order hphase hnodup hset)
    | buildFailed => exact Or.inl (Move.authFailed _ order hphase hnodup hset (Or.inl rfl))
    | sendFailed => exact Or.inl (Move.authFailed _ order hphase hnodup hset (Or.inr rfl))
    | noAck => exact Or.inl (Move.noAck order hphase hnodup hset)
    | acked => exact Or.inl (Move.acked order hphase hnodup hset)
  · rw [if_neg h]
    exact Or.inr rfl

theorem replayNext_cases (p : WsProtocol) (s : DriverTask) (ok : Bool) :
    Move p s (.replayNext ok) (s.replayNext p ok) ∨ s.replayNext p ok = s := by
  unfold replayNext
  split
  · next spec todo hphase =>
    split_ifs with h
    · obtain ⟨hframe, rfl⟩ := h
      exact Or.inl (Move.replayed spec todo hphase hframe)
    · exact Or.inl (Move.replayFailed spec todo ok hphase h)
  · next hphase => exact Or.inl (Move.replayDone ok hphase)
  · exact Or.inr rfl

theorem postConnectNext_cases (p : WsProtocol) (s : DriverTask) (ok : Bool) :
    Move p s (.postConnectNext ok) (s.postConnectNext ok) ∨ s.postConnectNext ok = s := by
  unfold postConnectNext
  split
  · next left hphase =>
    cases ok with
    | true => exact Or.inl (Move.postConnected left hphase)
    | false => exact Or.inl (Move.postConnectFailed left hphase)
  · next hphase => exact Or.inl (Move.entered ok hphase)
  · exact Or.inr rfl

theorem receive_cases (cfgMaxAttempts : UInt32) (p : WsProtocol) (s : DriverTask) :
    Move p s .receive (s.receive cfgMaxAttempts) ∨ s.receive cfgMaxAttempts = s := by
  unfold receive
  by_cases hphase : s.phase = .messageLoop
  · rw [if_pos hphase]
    split
    · exact Or.inr rfl
    · next item rest hqueue =>
      obtain ⟨madeOn, item⟩ := item
      cases item with
      | frame reply =>
        cases reply with
        | true => exact Or.inl (Move.replied _ rest hphase hqueue rfl)
        | false => exact Or.inl (Move.received _ rest hphase hqueue rfl)
      | error =>
        exact Or.inl (Move.lost _ rest _ hphase hqueue (fun _ h => nomatch h)
          (left_leaveLoop cfgMaxAttempts _))
      | eof =>
        exact Or.inl (Move.lost _ rest _ hphase hqueue (fun _ h => nomatch h)
          (left_leaveLoop cfgMaxAttempts _))
  · rw [if_neg hphase]
    exact Or.inr rfl

theorem silence_cases (cfgMaxAttempts : UInt32) (p : WsProtocol) (s : DriverTask) :
    Move p s .silent (s.silence cfgMaxAttempts) ∨ s.silence cfgMaxAttempts = s := by
  unfold silence
  by_cases hphase : s.phase = .messageLoop
  · rw [if_pos hphase]
    exact Or.inl (Move.silenced _ hphase (left_leaveLoop cfgMaxAttempts _))
  · rw [if_neg hphase]
    exact Or.inr rfl

theorem command_cases (cfgMaxAttempts : UInt32) (p : WsProtocol) (s : DriverTask) :
    Move p s .command (s.command cfgMaxAttempts p) ∨ s.command cfgMaxAttempts p = s := by
  unfold command
  by_cases hphase : s.phase = .messageLoop
  · rw [if_pos hphase]
    split
    · next hcmds =>
      split_ifs with hdropped
      · exact Or.inl (Move.abandoned _ hphase hcmds hdropped (left_leaveLoop cfgMaxAttempts s))
      · exact Or.inr rfl
    · next cmd rest hcmds => exact Or.inl (Move.obeyed cmd rest hphase hcmds)
  · rw [if_neg hphase]
    exact Or.inr rfl

theorem pingTick_cases (p : WsProtocol) (s : DriverTask) (frame : Bool) :
    Move p s (.ping frame) (s.pingTick frame) ∨ s.pingTick frame = s := by
  unfold pingTick
  split_ifs with h
  · obtain ⟨hphase, hframe⟩ := h
    cases hframe
    exact Or.inl (Move.pinged hphase)
  · exact Or.inr rfl

theorem readTask_cases (p : WsProtocol) (s : DriverTask) (i : ℕ) (item : Incoming) :
    Move p s (.read i item) (s.readTask i item) ∨ s.readTask i item = s := by
  unfold readTask
  split_ifs with h
  · exact Or.inl (Move.read i item h)
  · exact Or.inr rfl

theorem writeTask_cases (p : WsProtocol) (s : DriverTask) (i : ℕ) (ok : Bool) :
    Move p s (.write i ok) (s.writeTask i ok) ∨ s.writeTask i ok = s := by
  unfold writeTask
  split
  · exact Or.inr rfl
  · next frame rest hqueue =>
    cases ok with
    | true => exact Or.inl (Move.written i frame rest hqueue)
    | false => exact Or.inl (Move.writeFailed i frame rest hqueue)

theorem writerEnds_cases (p : WsProtocol) (s : DriverTask) (i : ℕ) :
    Move p s (.writerEnds i) (s.writerEnds i) ∨ s.writerEnds i = s := by
  unfold writerEnds
  split_ifs with h
  · exact Or.inr rfl
  · exact Or.inl (Move.writerEnded i h)

/-- **Step lemma.** A step is a move, or it does nothing. -/
theorem move_or_stay (cfgMaxAttempts : UInt32) (p : WsProtocol) (s : DriverTask) (e : Event) :
    Move p s e (step cfgMaxAttempts p s e) ∨ step cfgMaxAttempts p s e = s := by
  cases e with
  | queue cmd => exact queueCmd_cases p s cmd
  | dropSenders => exact Or.inl Move.dropped
  | begin => exact beginAttempt_cases p s
  | hook ok => exact hooked_cases p s ok
  | connected ok => exact connected_cases p s ok
  | auth result order => exact authenticated_cases p s result order
  | replayNext ok => exact replayNext_cases p s ok
  | postConnectNext ok => exact postConnectNext_cases p s ok
  | receive => exact receive_cases cfgMaxAttempts p s
  | silent => exact silence_cases cfgMaxAttempts p s
  | command => exact command_cases cfgMaxAttempts p s
  | ping frame => exact pingTick_cases p s frame
  | read i item => exact readTask_cases p s i item
  | write i ok => exact writeTask_cases p s i ok
  | writerEnds i => exact writerEnds_cases p s i

end DriverTask

end Digdigdig3.Transport
