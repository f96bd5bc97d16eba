import Digdigdig3.Transport.Driver

/-!
# The stop conditions of the driver

A shutdown is a command like any other, taken only in the message loop; a dropped sender ends the
loop, not the driver; and `max_attempts` is compared with a counter that connecting has just
set to zero.

* `shutdown_taken_of_returned`: the driver returns for a shutdown only.
* `ObeysStop`, `Allowed`: what the stop conditions promise of a state, and when a step keeps it.
-/

namespace Digdigdig3.Transport.DriverTask

variable {cfgMaxAttempts : UInt32} {p : WsProtocol}

/-! ## Giving up -/

/-- In the message loop the attempt counter is zero. -/
def LoopReset (s : DriverTask) : Prop := s.phase = .messageLoop → s.attempt = 0

theorem loopReset_left {s t : DriverTask} (h : Left s t) : LoopReset t := by
  cases h with
  | again => exact fun hloop => nomatch hloop
  | forGood => exact fun hloop => nomatch hloop

theorem loopReset_of_phase_ne {s : DriverTask} (h : s.phase ≠ .messageLoop) : LoopReset s :=
  fun hloop => absurd hloop h

theorem loopReset_obey {s : DriverTask} (h : LoopReset s) (cmd : TransportCmd) :
    LoopReset (s.obey p cmd) := by
  cases cmd with
  | connect => exact h
  | subscribe spec =>
    unfold obey
    dsimp only
    split_ifs <;> exact h
  | unsubscribe spec =>
    unfold obey
    dsimp only
    split_ifs <;> exact h
  | shutdown => exact loopReset_of_phase_ne (by simp [obey])

theorem loopReset_move {s t : DriverTask} {e : Event} (hmove : Move p s e t) (h : LoopReset s) :
    LoopReset t := by
  cases hmove with
  | lost item rest t _ _ _ hleft => exact loopReset_left hleft
  | silenced t _ hleft => exact loopReset_left hleft
  | abandoned t _ _ _ hleft => exact loopReset_left hleft
  | obeyed cmd rest => exact loopReset_obey (s := s.popCmd cmd rest) h cmd
  | entered => exact fun _ => rfl
  | queued => exact h
  | dropped => exact h
  | received => exact h
  | replied => exact h
  | pinged => exact h
  | read => exact h
  | written => exact h
  | writeFailed => exact h
  | writerEnded => exact h
  | began => exact fun hloop => nomatch hloop
  | hooked => exact fun hloop => nomatch hloop
  | hookFailed => exact fun hloop => nomatch hloop
  | connected => exact fun hloop => nomatch hloop
  | connectFailed => exact fun hloop => nomatch hloop
  | authNotNeeded => exact fun hloop => nomatch hloop
  | acked => exact fun hloop => nomatch hloop
  | noAck => exact fun hloop => nomatch hloop
  | authFailed => exact fun hloop => nomatch hloop
  | replayed => exact fun hloop => nomatch hloop
  | replayFailed => exact fun hloop => nomatch hloop
  | replayDone => exact fun hloop => nomatch hloop
  | postConnected => exact fun hloop => nomatch hloop
  | postConnectFailed => exact fun hloop => nomatch hloop

/-- The loop starts with the counter at zero, and the driver returns for a shutdown only. -/
structure Persistent (s : DriverTask) : Prop where
  reset : LoopReset s
  returned : s.phase = .returned → .shutdown ∈ s.taken

theorem phase_of_left {s t : DriverTask} (hleft : Left s t) (h : s.attempt = 0) :
    t.phase = .loopTop := by
  cases hleft with
  | again => rfl
  | forGood hne => exact absurd h hne

theorem returned_obey {s : DriverTask} {cmd : TransportCmd} (hphase : s.phase ≠ .returned)
    (h : (s.obey p cmd).phase = .returned) : cmd = .shutdown := by
  cases cmd with
  | connect => exact absurd h hphase
  | subscribe spec =>
    unfold obey at h
    dsimp only at h
    split_ifs at h
    · exact absurd h hphase
    · exact absurd h hphase
  | unsubscribe spec =>
    unfold obey at h
    dsimp only at h
    split_ifs at h
    · exact absurd h hphase
    · exact absurd h hphase
  | shutdown => rfl

theorem taken_obey (s : DriverTask) (cmd : TransportCmd) : (s.obey p cmd).taken = s.taken := by
  cases cmd with
  | connect => rfl
  | subscribe spec =>
    unfold obey
    dsimp only
    split_ifs <;> rfl
  | unsubscribe spec =>
    unfold obey
    dsimp only
    split_ifs <;> rfl
  | shutdown => rfl

/-- **Step lemma.** The test against `max_attempts` never ends the driver. -/
theorem persistent_move {s t : DriverTask} {e : Event} (hmove : Move p s e t)
    (h : Persistent s) : Persistent t := by
  refine ⟨loopReset_move hmove h.reset, fun hreturned => ?_⟩
  cases hmove with
  | obeyed cmd rest hphase hcmds =>
    have hcmd : cmd = .shutdown :=
      returned_obey (s := s.popCmd cmd rest) (by simp [popCmd, hphase]) hreturned
    rw [taken_obey, hcmd]
    exact List.mem_append_right _ List.mem_cons_self
  | lost item rest t hphase _ _ hleft =>
    exact absurd ((phase_of_left hleft (h.reset hphase)).symm.trans hreturned) (by simp)
  | silenced t hphase hleft =>
    exact absurd ((phase_of_left hleft (h.reset hphase)).symm.trans hreturned) (by simp)
  | abandoned t hphase _ _ hleft =>
    exact absurd ((phase_of_left hleft (h.reset hphase)).symm.trans hreturned) (by simp)
  | queued => exact h.returned hreturned
  | dropped => exact h.returned hreturned
  | received _ _ hphase => exact absurd (hphase.symm.trans hreturned) (by simp)
  | replied _ _ hphase => exact absurd (hphase.symm.trans hreturned) (by simp)
  | pinged => exact h.returned hreturned
  | read => exact h.returned hreturned
  | written => exact h.returned hreturned
  | writeFailed => exact h.returned hreturned
  | writerEnded => exact h.returned hreturned
  | _ => nomatch hreturned

/-- **Run lemma.** Whatever `max_attempts` is, a driver that has returned has taken a shutdown. -/
theorem shutdown_taken_of_returned (es : List Event)
    (h : (run cfgMaxAttempts p es).phase = .returned) :
    .shutdown ∈ (run cfgMaxAttempts p es).taken := by
  have hinit : Persistent new :=
    ⟨fun hloop => (nomatch hloop), fun hreturned => (nomatch hreturned)⟩
  have hrun : Persistent (run cfgMaxAttempts p es) := by
    refine foldl_invariant hinit (fun s e hs => ?_) es
    rcases move_or_stay cfgMaxAttempts p s e with hmove | hstay
    · exact persistent_move hmove hs
    · rwa [hstay]
  exact hrun.returned h

/-! ## What the stop conditions promise -/

/-- No attempt and no subscribe frame since the stop, and no more than `max_attempts` failures
    in a row. -/
def ObeysStop (cfgMaxAttempts : UInt32) (s : DriverTask) : Prop :=
  s.attemptsAfterStop = 0 ∧ s.subscribesAfterStop = 0 ∧
  (0 < cfgMaxAttempts.toNat → s.failedInARow ≤ cfgMaxAttempts.toNat)

/-- The driver leaves the top of its loop. -/
def BeginsAttempt (s : DriverTask) (e : Event) : Prop := s.phase = .loopTop ∧ e = .begin

/-- A subscribe frame goes out, of the replay or of a write queue. -/
def SendsSubscribe (p : WsProtocol) (s : DriverTask) : Event → Prop
  | .replayNext ok => ok = true ∧ ∃ spec todo, s.phase = .replay (spec :: todo) ∧
      p.subscribeFrame spec = true
  | .write i ok => ok = true ∧ ∃ frame rest spec, s.writeQueue i = frame :: rest ∧
      frame.val = .subscribe spec
  | _ => False

/-- The hook, the connection or the handshake fails, or a connection is lost that has not
    delivered a frame. -/
def FailsAttempt (s : DriverTask) : Event → Prop
  | .hook ok => s.phase = .preConnect ∧ ok = false
  | .connected ok => s.phase = .connecting ∧ ok = false
  | .auth result order => s.phase = .handshake ∧ order.Nodup ∧ order.toFinset = s.activeSubs ∧
      result ≠ .notNeeded ∧ result ≠ .acked
  | .receive => s.phase = .messageLoop ∧ s.worked = false ∧ ∃ item rest,
      s.readQueue s.current = item :: rest ∧ ∀ reply, item.val ≠ .frame reply
  | .silent => s.phase = .messageLoop ∧ s.worked = false
  | _ => False

/-- The steps that keep the promise: after a stop the driver is not at the top of its loop and
    has nothing to subscribe, and no attempt fails when `max_attempts` have failed in a row. -/
def Allowed (cfgMaxAttempts : UInt32) (p : WsProtocol) (s : DriverTask) (e : Event) : Prop :=
  (s.stopped = true → ¬ BeginsAttempt s e) ∧ (s.stopped = true → ¬ SendsSubscribe p s e) ∧
  (0 < cfgMaxAttempts.toNat → FailsAttempt s e → s.failedInARow < cfgMaxAttempts.toNat)

/-! ## What a step counts -/

theorem attemptsAfterStop_obey (s : DriverTask) (cmd : TransportCmd) :
    (s.obey p cmd).attemptsAfterStop = s.attemptsAfterStop ∧
      (s.obey p cmd).subscribesAfterStop = s.subscribesAfterStop ∧
      (s.obey p cmd).failedInARow = s.failedInARow := by
  cases cmd with
  | connect => exact ⟨rfl, rfl, rfl⟩
  | subscribe spec =>
    unfold obey
    dsimp only
    split_ifs <;> exact ⟨rfl, rfl, rfl⟩
  | unsubscribe spec =>
    unfold obey
    dsimp only
    split_ifs <;> exact ⟨rfl, rfl, rfl⟩
  | shutdown => exact ⟨rfl, rfl, rfl⟩

theorem counters_left {s t : DriverTask} (h : Left s t) :
    t.attemptsAfterStop = s.attemptsAfterStop ∧ t.subscribesAfterStop = s.subscribesAfterStop ∧
      t.failedInARow = s.failedInARow := by
  cases h with
  | again => exact ⟨rfl, rfl, rfl⟩
  | forGood => exact ⟨rfl, rfl, rfl⟩

theorem attemptsAfterStop_move {s t : DriverTask} {e : Event} (hmove : Move p s e t)
    (h : ¬ BeginsAttempt s e) : t.attemptsAfterStop = s.attemptsAfterStop := by
  cases hmove with
  | began _ hphase => exact absurd ⟨hphase, rfl⟩ h
  | lost _ _ _ _ _ _ hleft => exact (counters_left hleft).1
  | silenced _ _ hleft => exact (counters_left hleft).1
  | abandoned _ _ _ _ hleft => exact (counters_left hleft).1
  | obeyed cmd rest => exact (attemptsAfterStop_obey (s.popCmd cmd rest) cmd).1
  | _ => rfl

theorem attemptsAfterStop_begins {s : DriverTask} {e : Event} (h : BeginsAttempt s e) :
    (step cfgMaxAttempts p s e).attemptsAfterStop =
      if s.stopped then s.attemptsAfterStop + 1 else s.attemptsAfterStop := by
  obtain ⟨hphase, rfl⟩ := h
  show (s.beginAttempt).attemptsAfterStop = _
  rw [beginAttempt, if_pos hphase]

theorem subscribesAfterStop_move {s t : DriverTask} {e : Event} (hmove : Move p s e t)
    (h : ¬ SendsSubscribe p s e) : t.subscribesAfterStop = s.subscribesAfterStop := by
  cases hmove with
  | replayed spec todo hphase hframe => exact absurd ⟨rfl, spec, todo, hphase, hframe⟩ h
  | written i frame rest hqueue =>
    obtain ⟨madeOn, frame⟩ := frame
    cases frame with
    | subscribe spec => exact absurd ⟨rfl, _, rest, spec, hqueue, rfl⟩ h
    | unsubscribe spec => rfl
    | other => rfl
  | lost _ _ _ _ _ _ hleft => exact (counters_left hleft).2.1
  | silenced _ _ hleft => exact (counters_left hleft).2.1
  | abandoned _ _ _ _ hleft => exact (counters_left hleft).2.1
  | obeyed cmd rest => exact (attemptsAfterStop_obey (s.popCmd cmd rest) cmd).2.1
  | _ => rfl

theorem subscribesAfterStop_sends {s : DriverTask} {e : Event} (h : SendsSubscribe p s e) :
    (step cfgMaxAttempts p s e).subscribesAfterStop =
      if s.stopped then s.subscribesAfterStop + 1 else s.subscribesAfterStop := by
  cases e with
  | replayNext ok =>
    obtain ⟨rfl, spec, todo, hphase, hframe⟩ := h
    show (s.replayNext p true).subscribesAfterStop = _
    rw [replayNext, hphase]
    dsimp only
    rw [if_pos ⟨hframe, rfl⟩]
    rfl
  | write i ok =>
    obtain ⟨rfl, ⟨madeOn, frame⟩, rest, spec, hqueue, hframe⟩ := h
    cases hframe
    show (s.writeTask i true).subscribesAfterStop = _
    rw [writeTask, hqueue]
    rfl
  | _ => exact h.elim

theorem failedInARow_move {s t : DriverTask} {e : Event} (hmove : Move p s e t)
    (h : ¬ FailsAttempt s e) : t.failedInARow ≤ s.failedInARow := by
  cases hmove with
  | hookFailed hphase => exact absurd ⟨hphase, rfl⟩ h
  | connectFailed hphase => exact absurd ⟨hphase, rfl⟩ h
  | noAck order hphase hnodup hset => exact absurd ⟨hphase, hnodup, hset, by simp, by simp⟩ h
  | authFailed result order hphase hnodup hset hresult =>
    refine absurd ⟨hphase, hnodup, hset, ?_, ?_⟩ h
    · rcases hresult with rfl | rfl <;> simp
    · rcases hresult with rfl | rfl <;> simp
  | lost item rest _ hphase hqueue hitem hleft =>
    rw [(counters_left hleft).2.2]
    dsimp only
    split_ifs with hworked
    · exact le_rfl
    · exact absurd ⟨hphase, by simpa using hworked, item, rest, hqueue, hitem⟩ h
  | silenced _ hphase hleft =>
    rw [(counters_left hleft).2.2]
    dsimp only
    split_ifs with hworked
    · exact le_rfl
    · exact absurd ⟨hphase, by simpa using hworked⟩ h
  | abandoned _ _ _ _ hleft => exact (counters_left hleft).2.2.le
  | obeyed cmd rest => exact (attemptsAfterStop_obey (s.popCmd cmd rest) cmd).2.2.le
  | received => exact Nat.zero_le _
  | replied => exact Nat.zero_le _
  | _ => exact le_rfl

theorem failedInARow_leaveLoop (s : DriverTask) :
    (s.leaveLoop cfgMaxAttempts).failedInARow = s.failedInARow :=
  (counters_left (left_leaveLoop cfgMaxAttempts s)).2.2

theorem failedInARow_fails {s : DriverTask} {e : Event} (h : FailsAttempt s e) :
    (step cfgMaxAttempts p s e).failedInARow = s.failedInARow + 1 := by
  cases e with
  | hook ok =>
    obtain ⟨hphase, rfl⟩ := h
    show (s.hooked false).failedInARow = _
    rw [hooked, if_pos hphase]
    rfl
  | connected ok =>
    obtain ⟨hphase, rfl⟩ := h
    show (s.connected false).failedInARow = _
    rw [connected, if_pos hphase]
    rfl
  | auth result order =>
    obtain ⟨hphase, hnodup, hset, hnot, hacked⟩ := h
    show (s.authenticated result order).failedInARow = _
    unfold authenticated
    rw [if_pos ⟨hphase, hnodup, hset⟩]
    cases result with
    | notNeeded => exact absurd rfl hnot
    | acked => exact absurd rfl hacked
    | _ => rfl
  | receive =>
    obtain ⟨hphase, hworked, ⟨madeOn, item⟩, rest, hqueue, hitem⟩ := h
    show (s.receive cfgMaxAttempts).failedInARow = _
    rw [receive, if_pos hphase, hqueue]
    have hlose : ((s.popRead { madeOn := madeOn, val := item } rest).lose
        cfgMaxAttempts).failedInARow = s.failedInARow + 1 := by
      rw [lose, failedInARow_leaveLoop]
      show (if s.worked = true then _ else _) = _
      rw [hworked]
      rfl
    cases item with
    | frame reply => exact absurd rfl (hitem reply)
    | error => exact hlose
    | eof => exact hlose
  | silent =>
    obtain ⟨hphase, hworked⟩ := h
    show (s.silence cfgMaxAttempts).failedInARow = _
    rw [silence, if_pos hphase, lose, failedInARow_leaveLoop, hworked]
    rfl
  | _ => exact h.elim

/-- **Step lemma.** A step keeps the promise just when it is allowed. -/
theorem obeysStop_step (s : DriverTask) (e : Event) (h : ObeysStop cfgMaxAttempts s) :
    ObeysStop cfgMaxAttempts (step cfgMaxAttempts p s e) ↔ Allowed cfgMaxAttempts p s e := by
  obtain ⟨hattempts, hsubscribes, hfailed⟩ := h
  have hstep := move_or_stay cfgMaxAttempts p s e
  refine and_congr ?_ (and_congr ?_ ?_)
  · by_cases hbegins : BeginsAttempt s e
    · rw [attemptsAfterStop_begins hbegins, hattempts]
      split_ifs with hstopped <;> simp [hstopped, hbegins]
    · refine iff_of_true ?_ fun _ => hbegins
      rcases hstep with hmove | hstay
      · rw [attemptsAfterStop_move hmove hbegins, hattempts]
      · rw [hstay, hattempts]
  · by_cases hsends : SendsSubscribe p s e
    · rw [subscribesAfterStop_sends hsends, hsubscribes]
      split_ifs with hstopped <;> simp [hstopped, hsends]
    · refine iff_of_true ?_ fun _ => hsends
      rcases hstep with hmove | hstay
      · rw [subscribesAfterStop_move hmove hsends, hsubscribes]
      · rw [hstay, hsubscribes]
  · refine imp_congr_right fun hpos => ?_
    by_cases hfails : FailsAttempt s e
    · rw [failedInARow_fails hfails, imp_iff_right hfails]
      exact Nat.succ_le_iff
    · refine iff_of_true ?_ fun hfails' => absurd hfails' hfails
      rcases hstep with hmove | hstay
      · exact (failedInARow_move hmove hfails).trans (hfailed hpos)
      · rw [hstay]
        exact hfailed hpos

end Digdigdig3.Transport.DriverTask
