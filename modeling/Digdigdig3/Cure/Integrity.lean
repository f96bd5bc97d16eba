import Digdigdig3.Core.Json
import Digdigdig3.Cure.Dedup
import Digdigdig3.Lib.Utf8

/-!
# `IntegrityChecker`: statistics and anomalies of a range

`IntegrityChecker::check` (`crates/digdigdig3-station/src/cure/integrity.rs` lines 73–165)
reads a range of a stream and counts duplicates, reversals of time, quiet periods, jumps of
the sequence number and payloads that are not JSON. Subtractions and increments are unchecked;
`none` stands for an overflow, which panics in a build that checks and wraps in one that does
not. The successor of the last sequence number is computed only when another one follows.

`value` stands for `serde_json::from_slice`, `fingerprint` for `sha256_first16`.

Results:
* `check_loop`: the loop reaches the state that describes the records, or overflows.
* `integrity_lawful_iff`: the analysis is complete and consistent with `Deduper::dedup` exactly
  when no sequence number follows `u64::MAX` and no counter is full.
-/

namespace Digdigdig3.Cure

open Storage Storage.StorageManager

/-- `TimeGap` (lines 13–17). -/
structure TimeGap where
  startMs : Int64
  endMs : Int64
  durationMs : ℤ
  deriving DecidableEq

/-- `SequenceGap` (lines 21–25). -/
structure SequenceGap where
  fromSeq : ℕ
  toSeq : ℕ
  tsMs : Int64
  deriving DecidableEq

/-- `IntegrityReport` (lines 29–46). -/
structure IntegrityReport where
  stream : StreamKey
  fromMs : ℤ
  toMs : ℤ
  recordCount : ℕ
  duplicateCount : ℕ
  outOfOrderCount : ℕ
  parseErrors : ℕ
  timeGaps : List TimeGap
  sequenceGaps : List SequenceGap
  firstTs : Option Int64
  lastTs : Option Int64
  avgIntervalMs : Option ℚ

variable {Dir H : Type} [DecidableEq Dir] [DecidableEq H]

namespace IntegrityChecker

/-- An `i64` subtraction. -/
def checkedSub (a b : Int64) : Option ℤ :=
  if -9223372036854775808 ≤ a.toInt - b.toInt ∧ a.toInt - b.toInt ≤ 9223372036854775807 then
    some (a.toInt - b.toInt)
  else none

/-- A `u64` increment. -/
def checkedSucc (n : ℕ) : Option ℕ := if n < 18446744073709551615 then some (n + 1) else none

/-- `u32::MAX`. -/
def u32Max : ℕ := 4294967295

/-- `extract_sequence` (lines 182–188). -/
def extractSequence (v : Json) : Option ℕ :=
  ((v.get? "last_update_id").bind Json.asU64).or
    (((v.get? "sequence").bind Json.asU64).or
      (((v.get? "u").bind Json.asU64).or ((v.get? "seq").bind Json.asU64)))

/-- The variables of the loop (lines 101–104) and the fields of the report that it changes. -/
structure Loop (H : Type) where
  outOfOrderCount : ℕ
  parseErrors : ℕ
  timeGaps : List TimeGap
  sequenceGaps : List SequenceGap
  lastTs : Option Int64
  lastSeq : Option ℕ
  seen : List ((Int64 × H) × ℕ)

/-- The loop before the first record. -/
def Loop.init : Loop H :=
  { outOfOrderCount := 0, parseErrors := 0, timeGaps := [], sequenceGaps := [], lastTs := none
    lastSeq := none, seen := [] }

/-- The time gap and the order (lines 108–120); `threshold` is `time_gap_threshold_ms`. -/
def Loop.time (threshold : ℤ) (s : Loop H) (ts : Int64) : Option (Loop H) :=
  match s.lastTs with
  | none => some { s with lastTs := some ts }
  | some prev => do
    let delta ← checkedSub ts prev
    if delta < 0 then
      return { s with outOfOrderCount := s.outOfOrderCount + 1, lastTs := some ts }
    else if threshold < delta then
      return { s with timeGaps := s.timeGaps ++ [⟨prev, ts, delta⟩], lastTs := some ts }
    else return { s with lastTs := some ts }

/-- The sequence gap (lines 127–146). -/
def Loop.sequence (s : Loop H) (ts : Int64) (v : Option Json) : Option (Loop H) :=
  match v with
  | none => some { s with parseErrors := s.parseErrors + 1 }
  | some v =>
    match extractSequence v with
    | none => some s
    | some seq =>
      match s.lastSeq with
      | none => some { s with lastSeq := some seq }
      | some prev => do
        let next ← checkedSucc prev
        if next < seq then
          return { s with
            sequenceGaps := s.sequenceGaps ++ [⟨prev, seq, ts⟩], lastSeq := some seq }
        else return { s with lastSeq := some seq }

variable (value : Bytes → Option Json) (fingerprint : Bytes → H) (threshold : ℤ)

/-- The body of the loop (lines 106–147). -/
def Loop.record (s : Loop H) (r : EventRecord) : Option (Loop H) := do
  let s ← s.time threshold r.tsMs
  let seen ← bump u32Max (mark fingerprint r) s.seen
  ({ s with seen := seen } : Loop H).sequence r.tsMs (value r.payload)

/-- `avg_interval_ms` (lines 155–160). -/
def avgInterval (records : List EventRecord) : Option (Option ℚ) :=
  match records.head?, records.getLast? with
  | some first, some last =>
    if 1 < records.length then
      (checkedSub last.tsMs first.tsMs).map fun d => some ((d : ℚ) / ((records.length : ℚ) - 1))
    else some none
  | _, _ => some none

/-- What `check` makes of the records (lines 81–162), `none` for an overflow. -/
def report (key : StreamKey) (fromMs toMs : ℤ) (records : List EventRecord) :
    Option IntegrityReport := do
  let s ← records.foldlM (Loop.record value fingerprint threshold) Loop.init
  let avg ← avgInterval records
  return { stream := key, fromMs := fromMs, toMs := toMs, recordCount := records.length
           duplicateCount := ((s.seen.filter fun e => 1 < e.2).map fun e => e.2 - 1).sum
           outOfOrderCount := s.outOfOrderCount, parseErrors := s.parseErrors
           timeGaps := s.timeGaps, sequenceGaps := s.sequenceGaps
           firstTs := records.head?.map (·.tsMs), lastTs := records.getLast?.map (·.tsMs)
           avgIntervalMs := avg }

/-- `IntegrityChecker::check` (lines 73–165). -/
def check (resolve : List String → Dir) (storage : StorageManager Dir) (key : StreamKey)
    (fromMs toMs : ℤ) : Except String (Option IntegrityReport) :=
  match storage.readRange resolve key fromMs toMs with
  | .error e => .error e
  | .ok records => .ok (report value fingerprint threshold key fromMs toMs records)

/-! ## Specification -/

/-- What a record and the one behind it are counted as. -/
inductive PairClass
  | outOfOrder
  | timeGap
  | neither
  deriving DecidableEq

/-- The class of a pair of neighbours. -/
def classify (threshold : ℤ) (p : EventRecord × EventRecord) : PairClass :=
  if p.2.tsMs.toInt < p.1.tsMs.toInt then .outOfOrder
  else if threshold < p.2.tsMs.toInt - p.1.tsMs.toInt then .timeGap
  else .neither

/-- The time gap between neighbours. -/
def gapOf (p : EventRecord × EventRecord) : TimeGap :=
  ⟨p.1.tsMs, p.2.tsMs, p.2.tsMs.toInt - p.1.tsMs.toInt⟩

/-- The sequence numbers of the records, in order. -/
def sequences (records : List EventRecord) : List ℕ :=
  records.filterMap fun r => (value r.payload).bind extractSequence

/-- The report of the records of a range is there, and its numbers agree with the records, with
    each other and with what `dedup` removes on the same range. -/
def Lawful (resolve : List String → Dir) (storage : StorageManager Dir) (key : StreamKey)
    (fromMs toMs : ℤ) : Prop :=
  ∃ r, check value fingerprint threshold resolve storage key fromMs toMs = .ok (some r) ∧
    ∃ records, storage.readRange resolve key fromMs toMs = .ok records ∧
      r.recordCount = records.length ∧
      r.duplicateCount + (records.map (mark fingerprint)).toFinset.card = r.recordCount ∧
      (∀ clock, ∃ kept, (dedup resolve fingerprint storage key ⟨fromMs, toMs, clock⟩).2 =
        .ok (kept, r.duplicateCount)) ∧
      r.outOfOrderCount =
        (adjacent records).countP (fun p => classify threshold p = .outOfOrder) ∧
      r.timeGaps =
        ((adjacent records).filter fun p => classify threshold p = .timeGap).map gapOf ∧
      r.parseErrors + records.countP (fun r => (value r.payload).isSome) = r.recordCount

/-- No sequence number follows `u64::MAX`, and no record is there more than `u32::MAX` times. -/
def Countable (records : List EventRecord) : Prop :=
  (∀ p ∈ adjacent (sequences value records), p.1 < 18446744073709551615) ∧
    ∀ r ∈ records, timesIn (records.map (mark fingerprint)) (mark fingerprint r) ≤ u32Max

/-! ## One record -/

section Step

variable {value fingerprint threshold} {records : List EventRecord} {r : EventRecord} {s : Loop H}

/-- What the loop knows after `records`. -/
structure Describes (value : Bytes → Option Json) (fingerprint : Bytes → H) (threshold : ℤ)
    (records : List EventRecord) (s : Loop H) : Prop where
  outOfOrder : s.outOfOrderCount =
    (adjacent records).countP (fun p => classify threshold p = .outOfOrder)
  timeGaps : s.timeGaps =
    ((adjacent records).filter fun p => classify threshold p = .timeGap).map gapOf
  parseErrors : s.parseErrors + records.countP (fun r => (value r.payload).isSome) = records.length
  lastTs : s.lastTs = records.getLast?.map (·.tsMs)
  lastSeq : s.lastSeq = (sequences value records).getLast?
  seen : s.seen = occurrences (records.map (mark fingerprint))

/-- A difference of two timestamps of the range fits. -/
def Subtractable (records : List EventRecord) : Prop :=
  ∀ a ∈ records, ∀ b ∈ records, checkedSub a.tsMs b.tsMs = some (a.tsMs.toInt - b.tsMs.toInt)

/-- The clock of the loop sorts the new pair of neighbours into its class. -/
theorem Describes.time (h : Describes value fingerprint threshold records s)
    (hsub : Subtractable (records ++ [r])) :
    ∃ s', s.time threshold r.tsMs = some s' ∧
      s'.outOfOrderCount =
        (adjacent (records ++ [r])).countP (fun p => classify threshold p = .outOfOrder) ∧
      s'.timeGaps =
        ((adjacent (records ++ [r])).filter fun p => classify threshold p = .timeGap).map gapOf ∧
      s'.lastTs = some r.tsMs ∧ s'.parseErrors = s.parseErrors ∧ s'.lastSeq = s.lastSeq ∧
      s'.seen = s.seen := by
  rw [adjacent_concat, List.countP_append, List.filter_append, List.map_append, ← h.outOfOrder,
    ← h.timeGaps]
  rcases hlast : records.getLast? with _ | last
  · have hnone : s.lastTs = none := by rw [h.lastTs, hlast, Option.map_none]
    refine ⟨{ s with lastTs := some r.tsMs }, by rw [Loop.time, hnone], rfl, ?_, rfl, rfl, rfl, rfl⟩
    exact (List.append_nil _).symm
  · have hsome : s.lastTs = some last.tsMs := by rw [h.lastTs, hlast, Option.map_some]
    have hfits := hsub r (by simp) last (by simp [List.mem_of_getLast? hlast])
    simp only [Loop.time, hsome, hfits, Option.bind_eq_bind, Option.bind_some, Option.map_some,
      Option.toList_some, List.countP_singleton, List.filter_singleton]
    by_cases hback : r.tsMs.toInt < last.tsMs.toInt
    · have hclass : classify threshold (last, r) = .outOfOrder := if_pos hback
      rw [if_pos (sub_neg.mpr hback)]
      exact ⟨_, rfl, by simp [hclass], by simp [hclass], rfl, rfl, rfl, rfl⟩
    · rw [if_neg (mt sub_neg.mp hback)]
      by_cases hgap : threshold < r.tsMs.toInt - last.tsMs.toInt
      · have hclass : classify threshold (last, r) = .timeGap := by
          rw [classify, if_neg hback, if_pos hgap]
        rw [if_pos hgap]
        exact ⟨_, rfl, by simp [hclass], by simp [hclass, gapOf], rfl, rfl, rfl, rfl⟩
      · have hclass : classify threshold (last, r) = .neither := by
          rw [classify, if_neg hback, if_neg hgap]
        rw [if_neg hgap]
        exact ⟨_, rfl, by simp [hclass], by simp [hclass], rfl, rfl, rfl, rfl⟩

omit [DecidableEq H] in
/-- A sequence number overflows the one in front of it, or becomes the last one. -/
theorem Loop.sequence_spec (s : Loop H) (ts : Int64) (v : Option Json) :
    ((∃ prev, s.lastSeq = some prev ∧ ¬ prev < 18446744073709551615 ∧
        (v.bind extractSequence).isSome) ∧ s.sequence ts v = none) ∨
      (¬ (∃ prev, s.lastSeq = some prev ∧ ¬ prev < 18446744073709551615 ∧
        (v.bind extractSequence).isSome) ∧
        ∃ s', s.sequence ts v = some s' ∧
          s'.parseErrors = s.parseErrors + (if v.isSome then 0 else 1) ∧
          s'.lastSeq = (v.bind extractSequence).or s.lastSeq ∧
          s'.outOfOrderCount = s.outOfOrderCount ∧ s'.timeGaps = s.timeGaps ∧
          s'.lastTs = s.lastTs ∧ s'.seen = s.seen) := by
  rcases v with _ | v
  · exact .inr ⟨by simp, _, rfl, rfl, rfl, rfl, rfl, rfl, rfl⟩
  · rw [Loop.sequence, Option.bind_some]
    rcases hseq : extractSequence v with _ | seq
    · exact .inr ⟨by simp, _, rfl, rfl, rfl, rfl, rfl, rfl, rfl⟩
    · rcases hprev : s.lastSeq with _ | prev
      · exact .inr ⟨by simp, _, rfl, rfl, rfl, rfl, rfl, rfl, rfl⟩
      · by_cases hfull : prev < 18446744073709551615
        · refine .inr ⟨?_, ?_⟩
          · rintro ⟨prev', heq, hnot, -⟩
            obtain rfl := Option.some.inj heq
            exact hnot hfull
          · simp only [checkedSucc, if_pos hfull, Option.bind_eq_bind, Option.bind_some]
            by_cases hjump : prev + 1 < seq
            · rw [if_pos hjump]
              exact ⟨_, rfl, rfl, rfl, rfl, rfl, rfl, rfl⟩
            · rw [if_neg hjump]
              exact ⟨_, rfl, rfl, rfl, rfl, rfl, rfl, rfl⟩
        · refine .inl ⟨⟨prev, rfl, hfull, rfl⟩, ?_⟩
          simp only [checkedSucc, if_neg hfull]
          rfl

theorem sequences_concat (value : Bytes → Option Json) (records : List EventRecord)
    (r : EventRecord) : sequences value (records ++ [r]) =
      sequences value records ++ ((value r.payload).bind extractSequence).toList := by
  rw [sequences, List.filterMap_append, ← sequences]
  cases h : (value r.payload).bind extractSequence <;> simp [h]

/-- What one more record asks for. -/
theorem countable_concat (value : Bytes → Option Json) (fingerprint : Bytes → H)
    (records : List EventRecord) (r : EventRecord) :
    Countable value fingerprint (records ++ [r]) ↔ Countable value fingerprint records ∧
      ¬ (∃ prev, (sequences value records).getLast? = some prev ∧
        ¬ prev < 18446744073709551615 ∧ ((value r.payload).bind extractSequence).isSome) ∧
      timesIn (records.map (mark fingerprint)) (mark fingerprint r) < u32Max := by
  have hseq : (∀ p ∈ adjacent (sequences value (records ++ [r])), p.1 < 18446744073709551615) ↔
      (∀ p ∈ adjacent (sequences value records), p.1 < 18446744073709551615) ∧
        ¬ (∃ prev, (sequences value records).getLast? = some prev ∧
          ¬ prev < 18446744073709551615 ∧ ((value r.payload).bind extractSequence).isSome) := by
    rw [sequences_concat]
    rcases hnew : (value r.payload).bind extractSequence with _ | seq
    · simp
    · rw [Option.toList_some, adjacent_concat, List.forall_mem_append]
      apply and_congr_right
      intro _
      rcases (sequences value records).getLast? with _ | prev
      · simp
      · simp
  have hcount : (∀ a ∈ records ++ [r],
      timesIn ((records ++ [r]).map (mark fingerprint)) (mark fingerprint a) ≤ u32Max) ↔
      (∀ a ∈ records, timesIn (records.map (mark fingerprint)) (mark fingerprint a) ≤ u32Max) ∧
        timesIn (records.map (mark fingerprint)) (mark fingerprint r) < u32Max := by
    have hconcat : ∀ a, timesIn ((records ++ [r]).map (mark fingerprint)) (mark fingerprint a) =
        timesIn (records.map (mark fingerprint)) (mark fingerprint a) +
          if mark fingerprint r = mark fingerprint a then 1 else 0 := by
      intro a
      rw [List.map_append, List.map_singleton, timesIn_concat]
    rw [List.forall_mem_append, List.forall_mem_singleton]
    simp only [hconcat, if_true]
    constructor
    · rintro ⟨hold, hnew⟩
      refine ⟨fun a ha => (Nat.le_add_right _ _).trans (hold a ha), hnew⟩
    · rintro ⟨hold, hnew⟩
      refine ⟨fun a ha => ?_, hnew⟩
      by_cases heq : mark fingerprint r = mark fingerprint a
      · rw [if_pos heq, ← heq]
        exact hnew
      · rw [if_neg heq]
        exact hold a ha
  rw [Countable, Countable, hseq, hcount]
  tauto

/-- **Step lemma.** A record overflows a sequence number or a counter, or the loop describes
    the records with it. -/
theorem Describes.record (h : Describes value fingerprint threshold records s)
    (hsub : Subtractable (records ++ [r])) (hcount : Countable value fingerprint records) :
    (Countable value fingerprint (records ++ [r]) →
        ∃ s', s.record value fingerprint threshold r = some s' ∧
          Describes value fingerprint threshold (records ++ [r]) s') ∧
      (¬ Countable value fingerprint (records ++ [r]) →
        s.record value fingerprint threshold r = none) := by
  obtain ⟨s₁, htime, horder, hgaps, hlast, hparse, hseq, hseen⟩ := h.time hsub
  have hbump : bump u32Max (mark fingerprint r) s₁.seen =
      if timesIn (records.map (mark fingerprint)) (mark fingerprint r) < u32Max then
        some (occurrences ((records ++ [r]).map (mark fingerprint))) else none := by
    rw [hseen, h.seen, bump_occurrences (by decide), List.map_append, List.map_singleton]
  rw [countable_concat]
  simp only [Loop.record, htime, Option.bind_eq_bind, Option.bind_some, hbump]
  by_cases hroom : timesIn (records.map (mark fingerprint)) (mark fingerprint r) < u32Max
  · rw [if_pos hroom, Option.bind_some]
    have hlastSeq : s₁.lastSeq = (sequences value records).getLast? := hseq.trans h.lastSeq
    rcases Loop.sequence_spec
        { s₁ with seen := occurrences ((records ++ [r]).map (mark fingerprint)) } r.tsMs
        (value r.payload) with ⟨hfull, hnone⟩ | ⟨hfree, s₂, hsome, hparse₂, hseq₂, horder₂, hgaps₂,
          hlast₂, hseen₂⟩
    · rw [hlastSeq] at hfull
      exact ⟨fun hok => absurd hfull hok.2.1, fun _ => hnone⟩
    · rw [hlastSeq] at hfree hseq₂
      refine ⟨fun _ => ⟨s₂, hsome, horder₂.trans horder, hgaps₂.trans hgaps, ?_, ?_, ?_, hseen₂⟩,
        fun hnot => absurd ⟨hcount, hfree, hroom⟩ hnot⟩
      · have hparse₁ := h.parseErrors
        rw [hparse₂, List.countP_append, List.countP_singleton, List.length_append,
          List.length_singleton]
        simp only [hparse]
        cases (value r.payload).isSome <;> simp <;> omega
      · rw [hlast₂, List.getLast?_concat]
        exact hlast
      · rw [hseq₂, sequences_concat]
        cases (value r.payload).bind extractSequence with
        | none => simp
        | some seq => rw [Option.toList_some, List.getLast?_concat, Option.some_or]
  · rw [if_neg hroom]
    exact ⟨fun hok => absurd hok.2.2 hroom, fun _ => rfl⟩

theorem describes_nil : Describes value fingerprint threshold [] (Loop.init : Loop H) :=
  ⟨rfl, rfl, rfl, rfl, rfl, rfl⟩

/-- **Run lemma.** -/
theorem check_loop (value : Bytes → Option Json) (fingerprint : Bytes → H) (threshold : ℤ)
    {records : List EventRecord} (hsub : Subtractable records) :
    (Countable value fingerprint records →
        ∃ s, records.foldlM (Loop.record value fingerprint threshold) Loop.init = some s ∧
          Describes value fingerprint threshold records s) ∧
      (¬ Countable value fingerprint records →
        records.foldlM (Loop.record value fingerprint threshold) Loop.init = none) := by
  induction records using List.reverseRecOn with
  | nil => exact ⟨fun _ => ⟨_, rfl, describes_nil⟩, fun hnot => absurd ⟨nofun, nofun⟩ hnot⟩
  | append_singleton records r ih =>
    obtain ⟨hsome, hnone⟩ := ih fun a ha b hb =>
      hsub a (List.mem_append_left _ ha) b (List.mem_append_left _ hb)
    rw [List.foldlM_append]
    by_cases hcount : Countable value fingerprint records
    · obtain ⟨s, hs, hdesc⟩ := hsome hcount
      have hstep := hdesc.record hsub hcount
      rw [hs]
      simp only [List.foldlM_cons, List.foldlM_nil, Option.bind_eq_bind, Option.bind_some,
        Option.pure_def, Option.bind_fun_some]
      exact hstep
    · rw [hnone hcount]
      exact ⟨fun hok => absurd ((countable_concat value fingerprint records r).mp hok).1 hcount,
        fun _ => rfl⟩

end Step

/-! ## Duplicates -/

/-- `dedup` keeps one record for each mark that it has not seen. -/
theorem firsts_marks (fingerprint : Bytes → H) (seen : List (Int64 × H))
    (records : List EventRecord) :
    ((firsts fingerprint seen records).map (mark fingerprint)).Nodup ∧
      ∀ m, m ∈ (firsts fingerprint seen records).map (mark fingerprint) ↔
        m ∈ records.map (mark fingerprint) ∧ m ∉ seen := by
  induction records generalizing seen with
  | nil => simp [firsts]
  | cons r records ih =>
    by_cases hseen : mark fingerprint r ∉ seen
    · obtain ⟨hnodup, hmem⟩ := ih (mark fingerprint r :: seen)
      rw [firsts, if_pos hseen, List.map_cons, List.nodup_cons]
      refine ⟨⟨fun h => ((hmem _).mp h).2 List.mem_cons_self, hnodup⟩, fun m => ?_⟩
      rw [List.mem_cons, hmem, List.map_cons, List.mem_cons, List.mem_cons]
      by_cases hm : m = mark fingerprint r
      · rw [hm]
        exact iff_of_true (.inl rfl) ⟨.inl rfl, hseen⟩
      · simp [hm]
    · obtain ⟨hnodup, hmem⟩ := ih seen
      rw [firsts, if_neg hseen]
      refine ⟨hnodup, fun m => ?_⟩
      rw [hmem, List.map_cons, List.mem_cons]
      refine and_congr_left fun hm => ⟨.inr, fun h => h.resolve_left ?_⟩
      rintro rfl
      exact hseen hm

theorem length_firsts (fingerprint : Bytes → H) (records : List EventRecord) :
    (firsts fingerprint [] records).length =
      (records.map (mark fingerprint)).toFinset.card := by
  obtain ⟨hnodup, hmem⟩ := firsts_marks fingerprint [] records
  have hset : (records.map (mark fingerprint)).toFinset =
      ((firsts fingerprint [] records).map (mark fingerprint)).toFinset := by
    ext m
    rw [List.mem_toFinset, List.mem_toFinset, hmem]
    simp
  rw [hset, List.toFinset_card_of_nodup hnodup, List.length_map]

/-! ## The range -/

omit [DecidableEq Dir] in
/-- The bounds of a range read are clamped, so its timestamps are small. -/
theorem subtractable_scanned (resolve : List String → Dir) (storage : StorageManager Dir)
    (key : StreamKey) (fromMs toMs : ℤ) :
    Subtractable (clampedRecords (storage.dirs (streamDir resolve key)) fromMs toMs) := by
  have hsmall : ∀ r ∈ clampedRecords (storage.dirs (streamDir resolve key)) fromMs toMs,
      0 ≤ r.tsMs.toInt ∧ r.tsMs.toInt ≤ 253402300799999 := by
    intro r hr
    unfold clampedRecords at hr
    split_ifs at hr with hempty
    · cases hr
    · have hin := inRange_of_mem_rangeRecords hr
      have hsafe : max 0 (min toMs maxSafeMs) ≤ maxSafeMs := max_le (by decide) (min_le_right _ _)
      have hzero : 0 ≤ max fromMs 0 := le_max_right _ _
      unfold maxSafeMs at hsafe
      rw [EventRecord.inRange, decide_eq_true_iff] at hin
      exact ⟨hzero.trans hin.1, hin.2.trans hsafe⟩
  intro a ha b hb
  obtain ⟨ha₀, ha₁⟩ := hsmall a ha
  obtain ⟨hb₀, hb₁⟩ := hsmall b hb
  exact if_pos ⟨by omega, by omega⟩

theorem exists_avgInterval {records : List EventRecord} (hsub : Subtractable records) :
    ∃ avg, avgInterval records = some avg := by
  rw [avgInterval]
  rcases hfirst : records.head? with _ | first
  · exact ⟨none, rfl⟩
  · rcases hlast : records.getLast? with _ | last
    · exact ⟨none, rfl⟩
    · by_cases hmany : 1 < records.length
      · have hfits := hsub last (List.mem_of_getLast? hlast) first (List.mem_of_head? hfirst)
        simp only [if_pos hmany, hfits]
        exact ⟨_, rfl⟩
      · simp only [if_neg hmany]
        exact ⟨none, rfl⟩

section Check

variable (value : Bytes → Option Json) (fingerprint : Bytes → H) (threshold : ℤ)
  (resolve : List String → Dir) (storage : StorageManager Dir) (key : StreamKey) (fromMs toMs : ℤ)

/-- A report comes out only when nothing overflowed. -/
theorem Lawful.countable
    (h : Lawful value fingerprint threshold resolve storage key fromMs toMs) :
    Countable value fingerprint
      (clampedRecords (storage.dirs (streamDir resolve key)) fromMs toMs) := by
  obtain ⟨r, hcheck, -⟩ := h
  rw [check, readRange_eq_ok] at hcheck
  by_contra hnot
  have hnone := (check_loop value fingerprint threshold
    (subtractable_scanned resolve storage key fromMs toMs)).2 hnot
  simp only [report, hnone, Option.bind_eq_bind, Option.bind_none] at hcheck
  cases hcheck

/-- **Main theorem.** The analysis ends, and its numbers agree with the records and with
    `Deduper::dedup`, exactly when no sequence number follows `u64::MAX` and no record is there
    more than `u32::MAX` times. -/
theorem integrity_lawful_iff :
    Lawful value fingerprint threshold resolve storage key fromMs toMs ↔
      Countable value fingerprint
        (clampedRecords (storage.dirs (streamDir resolve key)) fromMs toMs) := by
  refine ⟨Lawful.countable value fingerprint threshold resolve storage key fromMs toMs,
    fun hcount => ?_⟩
  have hsub := subtractable_scanned resolve storage key fromMs toMs
  have hread := readRange_eq_ok resolve storage key fromMs toMs
  have hdedup : ∀ clock, (dedup resolve fingerprint storage key ⟨fromMs, toMs, clock⟩).2 = .ok _ :=
    fun clock => congrArg Prod.snd
      (dedup_eq resolve fingerprint storage key ⟨fromMs, toMs, clock⟩).1
  simp only [scanned] at hdedup
  revert hcount hsub hread hdedup
  generalize clampedRecords (storage.dirs (streamDir resolve key)) fromMs toMs = records
  intro hcount hsub hread hdedup
  obtain ⟨s, hs, hdesc⟩ := (check_loop value fingerprint threshold hsub).1 hcount
  obtain ⟨avg, havg⟩ := exists_avgInterval hsub
  have hduplicates := sum_duplicates (records.map (mark fingerprint))
  rw [← hdesc.seen, List.length_map] at hduplicates
  obtain ⟨r, hr⟩ : ∃ r : IntegrityReport, r =
      { stream := key, fromMs := fromMs, toMs := toMs, recordCount := records.length
        duplicateCount := ((s.seen.filter fun e => 1 < e.2).map fun e => e.2 - 1).sum
        outOfOrderCount := s.outOfOrderCount, parseErrors := s.parseErrors
        timeGaps := s.timeGaps, sequenceGaps := s.sequenceGaps
        firstTs := records.head?.map (·.tsMs), lastTs := records.getLast?.map (·.tsMs)
        avgIntervalMs := avg } := ⟨_, rfl⟩
  have hreport : report value fingerprint threshold key fromMs toMs records = some r := by
    rw [report, hs, hr]
    simp only [Option.bind_eq_bind, Option.bind_some, havg, Option.pure_def]
  refine ⟨r, ?_, records, hread, ?_⟩
  · rw [check, hread]
    exact congrArg Except.ok hreport
  subst hr
  refine ⟨rfl, hduplicates, fun clock => ?_, hdesc.outOfOrder, hdesc.timeGaps,
    hdesc.parseErrors⟩
  refine ⟨(firsts fingerprint [] records).length, (hdedup clock).trans ?_⟩
  rw [length_firsts, ← hduplicates, Nat.add_sub_cancel]

end Check

/-! ## A full sequence number -/

def fullText : String := "\x7b\"u\":18446744073709551615\x7d"

def restartText : String := "\x7b\"u\":1\x7d"

/-- What `from_slice` makes of the two texts. -/
def textValue (payload : Bytes) : Option Json :=
  if payload = utf8 fullText then some (.obj [("u", .int 18446744073709551615)])
  else if payload = utf8 restartText then some (.obj [("u", .int 1)])
  else none

/-- The calls that store the two texts, one after the other. -/
def restartCalls (key : StreamKey) : List Call :=
  [.append key 19675 19675 ⟨1700000000000, utf8 fullText, by decide⟩,
   .append key 19675 19675 ⟨1700000000001, utf8 restartText, by decide⟩]

/-- The update id restarts at `1` behind `u64::MAX`, and its successor overflows. -/
theorem not_lawful_of_full_sequence :
    let key : StreamKey := ⟨"binance", "spot", "BTCUSDT", "orderbook_delta"⟩
    let storage := (StorageManager.run id (restartCalls key)).flushAll id
    ¬ Lawful textValue id 60000 id storage key 1700000000000 1700000000001 := by
  intro key storage h
  have hfirst := (h.countable textValue id 60000 id storage key _ _).1
    (18446744073709551615, 1)
  have hmem : (18446744073709551615, 1) ∈ adjacent (sequences textValue
      (clampedRecords (storage.dirs (streamDir id key)) 1700000000000 1700000000001)) := by
    decide +kernel
  exact absurd (hfirst hmem) (by decide)

end IntegrityChecker

end Digdigdig3.Cure
