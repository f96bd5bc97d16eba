import Digdigdig3.Core.SubscriptionRequest
import Digdigdig3.Core.SymbolRecovery
import Digdigdig3.Transport.Convergence

/-!
# Subscriptions across the public boundary

The `WebSocketConnector` of a `UniversalWsTransport` (`transport.rs` lines 388–424) reports its
active specs as requests, and takes requests back. The driver keeps specs, and takes one out of
its set when it is named again.

* `unsubscribeAll_eq`: the commands that the reported requests make.
* `HandedBack.mem_activeSubs_iff`: what is left when the driver has taken them.
* `HandedBack.cleared_iff`: when nothing is left.
-/

namespace Digdigdig3.Transport

open SymbolNormalizer (asciiTables btcUsdt)

variable {ε : Type}

/-- `active_subscriptions` (lines 418–423); `order` is the order in which the set is iterated. -/
def activeSubscriptions (U : Unicode) (order : List StreamSpec) : List SubscriptionRequest :=
  order.map (SubscriptionRequest.ofSpec U)

/-- `unsubscribe` (lines 409–412 and 304–308), as the command that it queues. -/
def unsubscribe (request : SubscriptionRequest) : Except ε TransportCmd := do
  let spec ← StreamSpec.tryFrom request
  return .unsubscribe spec

/-- A spec as it comes back across the boundary. -/
def comesBack (spec : StreamSpec) : StreamSpec :=
  { spec with symbol := .raw (StreamSpec.requestText spec.symbol) }

/-- The command that the request of a spec makes. -/
def handBack (spec : StreamSpec) : TransportCmd := .unsubscribe (comesBack spec)

/-- The commands that the reported requests make. -/
theorem unsubscribeAll_eq (U : Unicode) (order : List StreamSpec) :
    (activeSubscriptions U order).mapM unsubscribe =
      (.ok (order.map handBack) : Except ε (List TransportCmd)) := by
  induction order with
  | nil => rfl
  | cons spec order ih =>
    rw [activeSubscriptions, List.map_cons, List.mapM_cons, ← activeSubscriptions, ih,
      unsubscribe, StreamSpec.tryFrom_ofSpec]
    rfl

/-- The spec names its instrument by the exchange's own text. -/
def IsRaw (spec : StreamSpec) : Prop := ∃ s, spec.symbol = .raw s

theorem isRaw_comesBack (spec : StreamSpec) : IsRaw (comesBack spec) := ⟨_, rfl⟩

theorem comesBack_of_isRaw {spec : StreamSpec} (h : IsRaw spec) : comesBack spec = spec := by
  obtain ⟨kind, symbol, accountType, depth, speedMs⟩ := spec
  obtain ⟨s, rfl⟩ := h
  rfl

namespace DriverTask

variable {p : WsProtocol} {s t : DriverTask}

/-- From `s` to `t` the user has handed back the requests reported in `s` and queued nothing else,
    and the driver has taken every command. -/
def HandedBack (ε : Type) (U : Unicode) (s t : DriverTask) : Prop :=
  ∃ order cmds, order.toFinset = s.activeSubs ∧
    (activeSubscriptions U order).mapM unsubscribe = (.ok cmds : Except ε (List TransportCmd)) ∧
    t.accepted = s.accepted ++ cmds ∧ t.cmds = []

/-- In `t` nothing is active, and since `s` the driver was told to unsubscribe from each instrument
    that was active there. -/
def Cleared (U : Unicode) (exchange : ExchangeId) (accountType : AccountType)
    (s t : DriverTask) : Prop :=
  t.activeSubs = ∅ ∧ ∀ spec ∈ s.activeSubs, ∃ back : StreamSpec,
    .unsubscribe back ∈ t.taken.drop s.taken.length ∧ back.kind = spec.kind ∧
    back.resolveSymbol U exchange accountType = spec.resolveSymbol U exchange accountType

/-- The commands taken since `s`: those that were queued there, and the requests handed back. -/
theorem HandedBack.taken {U : Unicode} (h : HandedBack ε U s t) (hs : Ledger p s)
    (ht : Ledger p t) : ∃ order : List StreamSpec, order.toFinset = s.activeSubs ∧
      t.taken = s.taken ++ (s.cmds ++ order.map handBack) := by
  obtain ⟨order, cmds, horder, hcmds, haccepted, hempty⟩ := h
  rw [unsubscribeAll_eq] at hcmds
  cases hcmds
  refine ⟨order, horder, ?_⟩
  rw [ht.2.1, hs.2.1, hempty, List.append_nil] at haccepted
  rw [haccepted, List.append_assoc]

/-- Commands that do not subscribe, followed by requests handed back, put nothing into the set. -/
theorem insert_notMem_handBack {cmds : List TransportCmd} {order : List StreamSpec}
    (hpending : ∀ spec, TransportCmd.subscribe spec ∉ cmds) (spec : StreamSpec) :
    SetUpdate.insert spec ∉ (cmds ++ order.map handBack).map cmdUpdate := by
  intro h
  obtain ⟨cmd, hcmd, hupdate⟩ := List.mem_map.mp h
  cases cmd with
  | subscribe other =>
    rcases List.mem_append.mp hcmd with hcmd | hcmd
    · exact hpending other hcmd
    · simp [handBack] at hcmd
  | _ => exact nomatch hupdate

/-- What they take out of the set. -/
theorem remove_mem_handBack {cmds : List TransportCmd} {order : List StreamSpec}
    {spec : StreamSpec} : SetUpdate.remove spec ∈ (cmds ++ order.map handBack).map cmdUpdate ↔
      TransportCmd.unsubscribe spec ∈ cmds ∨ ∃ other ∈ order, comesBack other = spec := by
  rw [List.mem_map]
  constructor
  · rintro ⟨cmd, hcmd, hupdate⟩
    cases cmd with
    | unsubscribe other =>
      cases hupdate
      simpa [handBack] using hcmd
    | _ => exact nomatch hupdate
  · intro h
    exact ⟨.unsubscribe spec, by simpa [handBack] using h, rfl⟩

/-- What is left when they have been taken, when no subscription was queued. -/
theorem HandedBack.mem_activeSubs_iff {U : Unicode} (h : HandedBack ε U s t) (hs : Ledger p s)
    (ht : Ledger p t) (hpending : ∀ spec, TransportCmd.subscribe spec ∉ s.cmds)
    (spec : StreamSpec) : spec ∈ t.activeSubs ↔
      spec ∈ s.activeSubs ∧ TransportCmd.unsubscribe spec ∉ s.cmds ∧
        ∀ other ∈ s.activeSubs, comesBack other ≠ spec := by
  obtain ⟨order, horder, htaken⟩ := h.taken hs ht
  rw [ht.1, htaken, List.map_append, SetUpdate.replay_append, ← hs.1,
    SetUpdate.mem_replay_of_no_insert (insert_notMem_handBack hpending), remove_mem_handBack,
    not_or, ← horder]
  simp only [List.mem_toFinset, not_exists, not_and, ne_eq]

/-- Nothing is left exactly when every active spec is named by the exchange's own text, those apart
    whose unsubscription was queued before. -/
theorem HandedBack.cleared_iff {U : Unicode} (h : HandedBack ε U s t) (hs : Ledger p s)
    (ht : Ledger p t) (hpending : ∀ spec, TransportCmd.subscribe spec ∉ s.cmds)
    (exchange : ExchangeId) (accountType : AccountType) :
    Cleared U exchange accountType s t ↔
      ∀ spec ∈ s.activeSubs, TransportCmd.unsubscribe spec ∉ s.cmds → IsRaw spec := by
  constructor
  · rintro ⟨hempty, -⟩ spec hspec hqueued
    have hgone : spec ∉ t.activeSubs := by simp [hempty]
    rw [h.mem_activeSubs_iff hs ht hpending] at hgone
    obtain ⟨other, -, hother⟩ : ∃ other ∈ s.activeSubs, comesBack other = spec := by
      by_contra hnone
      exact hgone ⟨hspec, hqueued, fun other hother heq => hnone ⟨other, hother, heq⟩⟩
    rw [← hother]
    exact isRaw_comesBack other
  · intro hraw
    refine ⟨Finset.eq_empty_of_forall_notMem fun spec hspec => ?_, fun spec hspec => ?_⟩
    · obtain ⟨hactive, hqueued, hnone⟩ := (h.mem_activeSubs_iff hs ht hpending spec).mp hspec
      exact hnone spec hactive (comesBack_of_isRaw (hraw spec hactive hqueued))
    · obtain ⟨order, horder, htaken⟩ := h.taken hs ht
      refine ⟨spec, ?_, rfl, rfl⟩
      rw [htaken, List.drop_left, List.mem_append]
      by_cases hqueued : TransportCmd.unsubscribe spec ∈ s.cmds
      · exact .inl hqueued
      · refine .inr (List.mem_map.mpr ⟨spec, ?_, ?_⟩)
        · rwa [← List.mem_toFinset, horder]
        · rw [handBack, comesBack_of_isRaw (hraw spec hspec hqueued)]

/-! ## Specs and runs -/

theorem ledger_run (cfgMaxAttempts : UInt32) (p : WsProtocol) (es : List Event) :
    Ledger p (run cfgMaxAttempts p es) :=
  (foldl_invariant (sound_new p) (fun _ e hs => sound_step e hs) es).2.1

variable (ε)

/-- A driver that connects and takes one subscription. -/
def subscribedTo (spec : StreamSpec) : List Event :=
  [.begin, .hook true, .connected true, .auth .notNeeded [], .replayNext true,
    .postConnectNext true, .queue (.subscribe spec), .command]

/-- The request that is then reported is handed back. -/
def handedBack (spec : StreamSpec) : List Event := [.queue (handBack spec), .command]

theorem handedBack_subscribedTo (spec : StreamSpec) : HandedBack Empty asciiTables
    (run 0 anyFrame (subscribedTo spec))
    (run 0 anyFrame (subscribedTo spec ++ handedBack spec)) :=
  ⟨[spec], [handBack spec], rfl, unsubscribeAll_eq asciiTables [spec], rfl, rfl⟩

/-- The trades of `BTC/USDT`. -/
def canonicalSpec : StreamSpec :=
  { btcTradeSpec with symbol := .canonical btcUsdt }

end DriverTask

end Digdigdig3.Transport
