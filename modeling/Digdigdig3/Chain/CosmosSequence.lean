import Digdigdig3.Lib.Runs

/-!
# Sequence numbers of a Cosmos account

`get_sequence`, `next_sequence` and `refresh_sequence` of `CosmosProvider`
(`crates/digdigdig3/src/core/chain/cosmos.rs`) for one address: any number of calls, whose lock
acquisitions and account queries are steps of their own, beside a chain that includes or rejects
the transactions whose sequence numbers were handed out. The chain includes a transaction only if
its number is the account's sequence, which is how many of them it has included.

* `consecutive_run`: between two refreshes the numbers handed out are consecutive.
* `sequences_run`: when they are fresh, and when the answers of `get_sequence` do not go back.
* `refresh_hands_out_in_flight`: a refresh hands out a number that is still in flight.
-/

namespace Digdigdig3.Cosmos

/-! ## The provider and the chain -/

/-- The three calls (lines 765–813). -/
inductive Op
  | getSequence
  | nextSequence
  | refreshSequence
  deriving DecidableEq

/-- Where a call stands: it waits for the chain, it has the answer and waits for the lock, or it
    waits for the lock of its last part. -/
inductive Task
  | querying (op : Op)
  | answered (op : Op) (sequence : ℕ)
  | taking
  deriving DecidableEq

/-- `sequences` is the cache entry of the address (line 269), `included` the sequence of the account
    on chain, and `inFlight` the numbers that were handed out and are neither included nor rejected.
    `handedOut` and `answers` are what the last refresh has been followed by: the numbers of
    `next_sequence`, and those with the answers of `get_sequence`. -/
structure State where
  sequences : Option ℕ
  included : ℕ
  inFlight : List ℕ
  tasks : ℕ → Option Task
  handedOut : List ℕ
  answers : List ℕ

/-- A call begins and takes the lock for the first time, the chain answers its query or fails to,
    the call takes the lock again, or the chain settles a transaction. -/
inductive Action
  | call (op : Op) (task : ℕ)
  | observe (task : ℕ)
  | fail (task : ℕ)
  | lock (task : ℕ)
  | includeTx (sequence : ℕ)
  | rejectTx (sequence : ℕ)
  deriving DecidableEq

namespace State

/-- A provider with an empty cache. -/
def init (included : ℕ) : State := ⟨none, included, [], fun _ => none, [], []⟩

/-- The call `task` is now at `next`. -/
def setTask (s : State) (task : ℕ) (next : Option Task) : State :=
  { s with tasks := Function.update s.tasks task next }

/-- The first lookup: lines 766–771, 784–788, and nothing for a refresh. -/
def begin (s : State) (task : ℕ) : Op → State
  | .getSequence =>
    match s.sequences with
    | some sequence => { s with answers := s.answers ++ [sequence] }
    | none => s.setTask task (some (.querying .getSequence))
  | .nextSequence =>
    match s.sequences with
    | some _ => s.setTask task (some .taking)
    | none => s.setTask task (some (.querying .nextSequence))
  | .refreshSequence => s.setTask task (some (.querying .refreshSequence))

/-- The lock with the answer of the query in hand: lines 774–779, 792–794 and 810–812. -/
def write (s : State) (task sequence : ℕ) : Op → State
  | .getSequence =>
    { s.setTask task none with
      sequences := some (s.sequences.getD sequence)
      answers := s.answers ++ [sequence] }
  | .nextSequence =>
    { s.setTask task (some .taking) with sequences := some (s.sequences.getD sequence) }
  | .refreshSequence =>
    { s.setTask task none with sequences := some sequence, handedOut := [], answers := [] }

/-- The last part of `next_sequence` (lines 799–805): the number is taken and will be broadcast. The
    entry is there, or the call panics. -/
def take (s : State) (task : ℕ) : State :=
  match s.sequences with
  | some current =>
    { s.setTask task none with
      sequences := some (current + 1)
      inFlight := s.inFlight ++ [current]
      handedOut := s.handedOut ++ [current]
      answers := s.answers ++ [current] }
  | none => s.setTask task none

/-- One step of a call or of the chain. -/
def step (s : State) : Action → State
  | .call op task => if s.tasks task = none then s.begin task op else s
  | .observe task =>
    match s.tasks task with
    | some (.querying op) => s.setTask task (some (.answered op s.included))
    | _ => s
  | .fail task =>
    match s.tasks task with
    | some (.querying _) => s.setTask task none
    | _ => s
  | .lock task =>
    match s.tasks task with
    | some (.answered op sequence) => s.write task sequence op
    | some .taking => s.take task
    | _ => s
  | .includeTx sequence =>
    if sequence ∈ s.inFlight ∧ sequence = s.included then
      { s with included := s.included + 1, inFlight := s.inFlight.erase sequence }
    else s
  | .rejectTx sequence => { s with inFlight := s.inFlight.erase sequence }

/-- The state after a run. -/
def run (included : ℕ) (as : List Action) : State := as.foldl step (init included)

/-- The number that `next_sequence` hands out in a step. -/
def handsOut (s : State) : Action → Option ℕ
  | .lock task => if s.tasks task = some .taking then s.sequences else none
  | _ => none

/-- The number that `get_sequence` returns in a step. -/
def getReturns (s : State) : Action → Option ℕ
  | .call .getSequence task => if s.tasks task = none then s.sequences else none
  | .lock task =>
    match s.tasks task with
    | some (.answered .getSequence sequence) => some sequence
    | _ => none
  | _ => none

/-! ## Conditions -/

/-- A refresh writes the sequence that the account has at this moment, and no number from there on
    is in flight. -/
def RefreshesCurrent (s : State) : Action → Prop
  | .lock task =>
    ∀ sequence, s.tasks task = some (.answered .refreshSequence sequence) →
      sequence = s.included ∧ ∀ v ∈ s.inFlight, v < sequence
  | _ => True

/-- A `get_sequence` that had to ask the chain finds the entry still empty, or its own answer. -/
def LookupsCurrent (s : State) : Action → Prop
  | .lock task =>
    ∀ sequence, s.tasks task = some (.answered .getSequence sequence) →
      s.sequences = none ∨ s.sequences = some sequence
  | _ => True

/-! ## Invariants -/

/-- The numbers handed out since the last refresh lead up to the cached one. -/
def LeadsUp (s : State) : Prop :=
  ∃ first, s.handedOut = List.range' first s.handedOut.length ∧
    (s.handedOut ≠ [] → s.sequences = some (first + s.handedOut.length))

/-- The cached number is ahead of the chain and of everything in flight. -/
structure Ahead (s : State) : Prop where
  fresh : ∀ c, s.sequences = some c → s.included ≤ c ∧ ∀ v ∈ s.inFlight, v < c
  empty : s.sequences = none → s.inFlight = []
  answered : s.sequences = none →
    ∀ task op n, s.tasks task = some (.answered op n) → n = s.included
  taking : ∀ task, s.tasks task = some .taking → s.sequences.isSome

/-- No answer is above the cached number. -/
structure Bounded (s : State) : Prop where
  le : ∀ c, s.sequences = some c → ∀ w ∈ s.answers, w ≤ c
  empty : s.sequences = none → s.answers = []

variable {s : State}

@[simp] theorem setTask_tasks (task : ℕ) (next : Option Task) :
    (s.setTask task next).tasks = Function.update s.tasks task next := rfl

/-! ### Consecutive numbers -/

theorem leadsUp_init (included : ℕ) : (init included).LeadsUp :=
  ⟨0, rfl, fun h => absurd rfl h⟩

/-- What leaves the numbers handed out as they are, and an entry that is there. -/
theorem LeadsUp.congr {s' : State} (h : s.LeadsUp) (hout : s'.handedOut = s.handedOut)
    (hentry : ∀ n, s.sequences = some n → s'.sequences = some n) : s'.LeadsUp := by
  obtain ⟨first, heq, hnext⟩ := h
  refine ⟨first, ?_, ?_⟩
  · rw [hout]
    exact heq
  · intro hne
    rw [hout] at hne ⊢
    exact hentry _ (hnext hne)

theorem LeadsUp.write (h : s.LeadsUp) (task sequence : ℕ) (op : Op) :
    (s.write task sequence op).LeadsUp := by
  cases op with
  | getSequence => exact h.congr rfl fun n hn => by simp [State.write, hn]
  | nextSequence => exact h.congr rfl fun n hn => by simp [State.write, hn]
  | refreshSequence => exact ⟨0, rfl, fun hne => absurd rfl hne⟩

theorem LeadsUp.take (h : s.LeadsUp) (task : ℕ) : (s.take task).LeadsUp := by
  unfold State.take
  split
  · rename_i current hentry
    obtain ⟨first, heq, hnext⟩ := h
    by_cases hnil : s.handedOut = []
    · refine ⟨current, ?_, fun _ => ?_⟩
      · simp [hnil]
      · simp [hnil]
    · have hcurrent : current = first + s.handedOut.length :=
        Option.some.inj (hentry.symm.trans (hnext hnil))
      refine ⟨first, ?_, fun _ => ?_⟩
      · show s.handedOut ++ [current] = _
        rw [List.length_append, List.length_singleton, List.range'_concat, ← heq, hcurrent,
          one_mul]
      · show some (current + 1) = _
        rw [List.length_append, List.length_singleton, hcurrent, Nat.add_assoc]
  · exact h.congr rfl fun n hn => hn

/-- **Step lemma.** Numbers handed out stay consecutive, whatever the step. -/
theorem LeadsUp.step (h : s.LeadsUp) (a : Action) : (s.step a).LeadsUp := by
  cases a with
  | call op task =>
    show State.LeadsUp (if s.tasks task = none then s.begin task op else s)
    split
    · cases op with
      | refreshSequence => exact h.congr rfl fun n hn => hn
      | _ =>
        simp only [State.begin]
        split <;> exact h.congr rfl fun n hn => hn
    · exact h
  | observe task =>
    simp only [State.step]
    split
    · exact h.congr rfl fun n hn => hn
    · exact h
  | fail task =>
    simp only [State.step]
    split
    · exact h.congr rfl fun n hn => hn
    · exact h
  | lock task =>
    simp only [State.step]
    split
    · exact h.write task _ _
    · exact h.take task
    · exact h
  | includeTx sequence =>
    show State.LeadsUp (if _ then _ else s)
    split
    · exact h.congr rfl fun n hn => hn
    · exact h
  | rejectTx sequence => exact h.congr rfl fun n hn => hn

/-- **Run lemma.** Between two refreshes the numbers handed out are consecutive. -/
theorem consecutive_run (included : ℕ) (as : List Action) : (run included as).LeadsUp :=
  foldl_invariant (leadsUp_init included) (fun _ a h => h.step a) as

/-! ### Fresh numbers -/

theorem ahead_init (included : ℕ) : (init included).Ahead where
  fresh _ hc := nomatch hc
  empty _ := rfl
  answered _ _ _ _ h := nomatch h
  taking _ h := nomatch h

/-- A call that moves on, neither to an answer nor to the last lock, changes nothing. -/
theorem Ahead.setTask (h : s.Ahead) {task : ℕ} {next : Option Task}
    (hanswer : ∀ op n, next = some (.answered op n) → n = s.included)
    (htaking : next = some .taking → s.sequences.isSome) : (s.setTask task next).Ahead where
  fresh := h.fresh
  empty := h.empty
  answered hnone task' op n heq := by
    rw [setTask_tasks] at heq
    by_cases ht : task' = task
    · subst ht
      rw [Function.update_self] at heq
      exact hanswer op n heq
    · rw [Function.update_of_ne ht] at heq
      exact h.answered hnone task' op n heq
  taking task' heq := by
    rw [setTask_tasks] at heq
    by_cases ht : task' = task
    · subst ht
      rw [Function.update_self] at heq
      exact htaking heq
    · rw [Function.update_of_ne ht] at heq
      exact h.taking task' heq

/-- With an entry that is ahead, and no new call at its last lock, the rest follows. -/
theorem ahead_of_entry {current : ℕ} (hentry : s.sequences = some current)
    (hincluded : s.included ≤ current) (hflight : ∀ v ∈ s.inFlight, v < current) : s.Ahead where
  fresh c hc := by
    obtain rfl := Option.some.inj (hentry.symm.trans hc)
    exact ⟨hincluded, hflight⟩
  empty hnone := by simp [hentry] at hnone
  answered hnone := by simp [hentry] at hnone
  taking _ _ := by simp [hentry]

theorem Ahead.getD (h : s.Ahead) {task : ℕ} {op : Op} {sequence : ℕ}
    (htask : s.tasks task = some (.answered op sequence)) :
    s.included ≤ s.sequences.getD sequence ∧
      ∀ v ∈ s.inFlight, v < s.sequences.getD sequence := by
  cases hentry : s.sequences with
  | none =>
    rw [h.empty hentry, h.answered hentry task op sequence htask]
    exact ⟨Nat.le_refl _, fun v hv => nomatch hv⟩
  | some current => exact h.fresh current hentry

theorem Ahead.write (h : s.Ahead) {task : ℕ} {op : Op} {sequence : ℕ}
    (htask : s.tasks task = some (.answered op sequence))
    (hrefresh : op = .refreshSequence →
      sequence = s.included ∧ ∀ v ∈ s.inFlight, v < sequence) :
    (s.write task sequence op).Ahead := by
  obtain ⟨hle, hlt⟩ := h.getD htask
  cases op with
  | getSequence => exact ahead_of_entry rfl hle hlt
  | nextSequence => exact ahead_of_entry rfl hle hlt
  | refreshSequence =>
    obtain ⟨heq, hflight⟩ := hrefresh rfl
    exact ahead_of_entry rfl (Nat.le_of_eq heq.symm) hflight

theorem Ahead.take (h : s.Ahead) (task : ℕ) : (s.take task).Ahead := by
  unfold State.take
  split
  · rename_i current hentry
    obtain ⟨hle, hlt⟩ := h.fresh current hentry
    apply ahead_of_entry rfl
    · exact Nat.le_succ_of_le hle
    · intro v hv
      rcases List.mem_append.mp hv with hv | hv
      · exact Nat.lt_succ_of_lt (hlt v hv)
      · rw [List.mem_singleton.mp hv]
        exact Nat.lt_succ_self _
  · exact h.setTask (fun _ _ hn => nomatch hn) fun hn => nomatch hn

theorem Ahead.includeTx (h : s.Ahead) {sequence : ℕ} (hflight : sequence ∈ s.inFlight)
    (hnext : sequence = s.included) :
    ({ s with included := s.included + 1, inFlight := s.inFlight.erase sequence } : State).Ahead
    := by
  have hsome : s.sequences ≠ none := by
    intro hnone
    rw [h.empty hnone] at hflight
    exact nomatch hflight
  obtain ⟨current, hentry⟩ := Option.ne_none_iff_exists'.mp hsome
  obtain ⟨-, hlt⟩ := h.fresh current hentry
  refine ahead_of_entry hentry ?_ fun v hv => hlt v (List.mem_of_mem_erase hv)
  show s.included + 1 ≤ current
  rw [← hnext]
  exact hlt sequence hflight

theorem Ahead.rejectTx (h : s.Ahead) (sequence : ℕ) :
    ({ s with inFlight := s.inFlight.erase sequence } : State).Ahead where
  fresh c hc := ⟨(h.fresh c hc).1, fun v hv => (h.fresh c hc).2 v (List.mem_of_mem_erase hv)⟩
  empty hnone := by
    show s.inFlight.erase sequence = []
    rw [h.empty hnone]
    rfl
  answered := h.answered
  taking := h.taking

/-- **Step lemma.** Refreshes that write the current sequence keep the entry ahead. -/
theorem Ahead.step (h : s.Ahead) {a : Action} (ha : s.RefreshesCurrent a) : (s.step a).Ahead := by
  cases a with
  | call op task =>
    show State.Ahead (if s.tasks task = none then s.begin task op else s)
    split
    · cases op with
      | getSequence =>
        simp only [State.begin]
        split
        · exact ⟨h.fresh, h.empty, h.answered, h.taking⟩
        · exact h.setTask (fun _ _ hn => nomatch hn) fun hn => nomatch hn
      | nextSequence =>
        simp only [State.begin]
        split
        · rename_i current hentry
          exact h.setTask (fun _ _ hn => nomatch hn) fun _ => by simp [hentry]
        · exact h.setTask (fun _ _ hn => nomatch hn) fun hn => nomatch hn
      | refreshSequence => exact h.setTask (fun _ _ hn => nomatch hn) fun hn => nomatch hn
    · exact h
  | observe task =>
    simp only [State.step]
    split
    · refine h.setTask (fun op n hn => ?_) fun hn => nomatch hn
      cases hn
      rfl
    · exact h
  | fail task =>
    simp only [State.step]
    split
    · exact h.setTask (fun _ _ hn => nomatch hn) fun hn => nomatch hn
    · exact h
  | lock task =>
    simp only [State.step]
    split
    · rename_i op sequence htask
      refine h.write htask fun hop => ?_
      subst hop
      exact ha sequence htask
    · exact h.take task
    · exact h
  | includeTx sequence =>
    show State.Ahead (if _ then _ else s)
    split
    · rename_i hpos
      exact h.includeTx hpos.1 hpos.2
    · exact h
  | rejectTx sequence => exact h.rejectTx sequence

/-- What is handed out while the entry is ahead is neither included nor in flight. -/
theorem Ahead.handsOut (h : s.Ahead) {a : Action} {v : ℕ} (hv : s.handsOut a = some v) :
    s.included ≤ v ∧ v ∉ s.inFlight := by
  cases a with
  | lock task =>
    simp only [State.handsOut] at hv
    split at hv
    · obtain ⟨hle, hlt⟩ := h.fresh v hv
      exact ⟨hle, fun hmem => Nat.lt_irrefl v (hlt v hmem)⟩
    · cases hv
  | _ => cases hv

/-! ### Answers -/

theorem bounded_init (included : ℕ) : (init included).Bounded where
  le _ hc := nomatch hc
  empty _ := rfl

/-- What leaves the entry and the answers as they are. -/
theorem Bounded.congr {s' : State} (h : s.Bounded) (hentry : s'.sequences = s.sequences)
    (hanswers : s'.answers = s.answers) : s'.Bounded where
  le c hc := by
    rw [hanswers]
    exact h.le c (hentry ▸ hc)
  empty hnone := by
    rw [hanswers]
    exact h.empty (hentry ▸ hnone)

theorem bounded_of_entry {current : ℕ} (hentry : s.sequences = some current)
    (hle : ∀ w ∈ s.answers, w ≤ current) : s.Bounded where
  le c hc := by
    obtain rfl := Option.some.inj (hentry.symm.trans hc)
    exact hle
  empty hnone := by simp [hentry] at hnone

/-- No answer is above the entry, once the call has set one. -/
theorem Bounded.le_getD (h : s.Bounded) (sequence : ℕ) :
    ∀ w ∈ s.answers, w ≤ s.sequences.getD sequence := by
  cases hentry : s.sequences with
  | none =>
    rw [h.empty hentry]
    exact fun w hw => nomatch hw
  | some current => exact h.le current hentry

theorem Bounded.write (h : s.Bounded) {task : ℕ} {op : Op} {sequence : ℕ}
    (hget : op = .getSequence → s.sequences = none ∨ s.sequences = some sequence) :
    (s.write task sequence op).Bounded := by
  cases op with
  | getSequence =>
    have hown : s.sequences.getD sequence = sequence := by
      rcases hget rfl with hnone | hsome
      · rw [hnone, Option.getD_none]
      · rw [hsome, Option.getD_some]
    refine bounded_of_entry rfl fun w hw => ?_
    rcases List.mem_append.mp hw with hw | hw
    · exact h.le_getD sequence w hw
    · rw [List.mem_singleton.mp hw, hown]
  | nextSequence => exact bounded_of_entry rfl (h.le_getD sequence)
  | refreshSequence => exact bounded_of_entry rfl fun w hw => nomatch hw

theorem Bounded.take (h : s.Bounded) (task : ℕ) : (s.take task).Bounded := by
  unfold State.take
  split
  · rename_i current hentry
    refine bounded_of_entry rfl fun w hw => ?_
    rcases List.mem_append.mp hw with hw | hw
    · exact Nat.le_succ_of_le (h.le current hentry w hw)
    · rw [List.mem_singleton.mp hw]
      exact Nat.le_succ _
  · exact h.congr rfl rfl

/-- **Step lemma.** Where a lookup returns the entry, no answer rises above it. -/
theorem Bounded.step (h : s.Bounded) {a : Action} (ha : s.LookupsCurrent a) :
    (s.step a).Bounded := by
  cases a with
  | call op task =>
    show State.Bounded (if s.tasks task = none then s.begin task op else s)
    split
    · cases op with
      | getSequence =>
        simp only [State.begin]
        split
        · rename_i current hentry
          refine bounded_of_entry hentry fun w hw => ?_
          rcases List.mem_append.mp hw with hw | hw
          · exact h.le current hentry w hw
          · exact Nat.le_of_eq (List.mem_singleton.mp hw)
        · exact h.congr rfl rfl
      | nextSequence =>
        simp only [State.begin]
        split <;> exact h.congr rfl rfl
      | refreshSequence => exact h.congr rfl rfl
    · exact h
  | observe task =>
    simp only [State.step]
    split
    · exact h.congr rfl rfl
    · exact h
  | fail task =>
    simp only [State.step]
    split
    · exact h.congr rfl rfl
    · exact h
  | lock task =>
    simp only [State.step]
    split
    · rename_i op sequence htask
      refine h.write fun hop => ?_
      subst hop
      exact ha sequence htask
    · exact h.take task
    · exact h
  | includeTx sequence =>
    show State.Bounded (if _ then _ else s)
    split
    · exact h.congr rfl rfl
    · exact h
  | rejectTx sequence => exact h.congr rfl rfl

/-- What `get_sequence` returns is not below an earlier answer. -/
theorem Bounded.getReturns (h : s.Bounded) {a : Action} (ha : s.LookupsCurrent a) {v : ℕ}
    (hv : s.getReturns a = some v) : ∀ w ∈ s.answers, w ≤ v := by
  cases a with
  | call op task =>
    cases op with
    | getSequence =>
      simp only [State.getReturns] at hv
      split at hv
      · exact h.le v hv
      · cases hv
    | _ => cases hv
  | lock task =>
    simp only [State.getReturns] at hv
    split at hv
    · rename_i sequence htask
      obtain rfl := Option.some.inj hv
      rcases ha sequence htask with hnone | hsome
      · rw [h.empty hnone]
        exact fun w hw => nomatch hw
      · exact h.le sequence hsome
    · cases hv
  | _ => cases hv

/-! ## Runs -/

/-- **Main theorem.** In every run the numbers handed out between two refreshes are consecutive.
    Where refreshes write the current sequence, no number is handed out that is included or in
    flight; where lookups return the entry, `get_sequence` never goes back. -/
theorem sequences_run (included : ℕ) (as : List Action) :
    (∀ pre, pre <+: as → (run included pre).LeadsUp) ∧
      (StepsMeet step (init included) RefreshesCurrent as →
        ∀ pre a v, pre ++ [a] <+: as → (run included pre).handsOut a = some v →
          (run included pre).included ≤ v ∧ v ∉ (run included pre).inFlight) ∧
      (StepsMeet step (init included) LookupsCurrent as →
        ∀ pre a v, pre ++ [a] <+: as → (run included pre).getReturns a = some v →
          ∀ w ∈ (run included pre).answers, w ≤ v) := by
  refine ⟨fun pre _ => consecutive_run included pre, ?_, ?_⟩
  · intro hrefresh pre a v hpre hv
    have hcut : StepsMeet step (init included) RefreshesCurrent pre := fun pre' a' h =>
      hrefresh pre' a' (h.trans ((List.prefix_append _ _).trans hpre))
    have hahead : (run included pre).Ahead :=
      foldl_invariant_of_steps (ahead_init included) (fun _ _ hs ha => hs.step ha) hcut
    exact hahead.handsOut hv
  · intro hlookup pre a v hpre hv
    have hcut : StepsMeet step (init included) LookupsCurrent pre := fun pre' a' h =>
      hlookup pre' a' (h.trans ((List.prefix_append _ _).trans hpre))
    have hbounded : (run included pre).Bounded :=
      foldl_invariant_of_steps (bounded_init included) (fun _ _ hs ha => hs.step ha) hcut
    exact hbounded.getReturns (hlookup pre a hpre) hv

/-- A transaction whose number is in flight when the cache is refreshed. -/
def refreshInFlight : List Action :=
  [.call .nextSequence 0, .observe 0, .lock 0, .lock 0,
    .call .refreshSequence 1, .observe 1, .lock 1, .call .nextSequence 2, .lock 2]

/-- A first call that takes its number after a lookup. -/
theorem sequences_run_first :
    (run 5 (refreshInFlight.take 3)).included ≤ 5 ∧
      5 ∉ (run 5 (refreshInFlight.take 3)).inFlight := by
  refine (sequences_run 5 (refreshInFlight.take 4)).2.1 ?_ _ (.lock 0) 5 ⟨[], rfl⟩
    (by decide)
  simp only [refreshInFlight, List.take, stepsMeet_cons]
  refine ⟨trivial, trivial, ?_, ?_, stepsMeet_nil _⟩
  · intro sequence h
    have hget : (run 5 (refreshInFlight.take 2)).tasks 0 = some (.answered .nextSequence 5) := by
      decide
    cases hget.symm.trans h
  · intro sequence h
    have hget : (run 5 (refreshInFlight.take 3)).tasks 0 = some .taking := by decide
    cases hget.symm.trans h

/-- After the refresh the same number is handed out again. -/
theorem refresh_hands_out_in_flight :
    ¬ ∀ (included : ℕ) (as pre : List Action) (a : Action) (v : ℕ), pre ++ [a] <+: as →
      (run included pre).handsOut a = some v → v ∉ (run included pre).inFlight := by
  intro h
  have hout : (run 5 (refreshInFlight.take 8)).handsOut (.lock 2) = some 5 := by decide
  have hin : 5 ∈ (run 5 (refreshInFlight.take 8)).inFlight := by decide
  exact h 5 refreshInFlight (refreshInFlight.take 8) (.lock 2) 5 ⟨[], rfl⟩ hout hin

end State

end Digdigdig3.Cosmos
