import Digdigdig3.Core.SymbolRecovery
import Digdigdig3.Cure.Gap
import Digdigdig3.Cure.Integrity

/-!
# `RepairPipeline`: integrity, deduplication and gaps in sequence

`RepairPipeline::run` (`crates/digdigdig3-station/src/cure/repair.rs` lines 46–82) analyses a range
of a stream, deduplicates it, or takes the counts from the analysis when nothing is to be written,
and looks for breaks in the update ids of order-book streams. An overflow in the analysis, `none`,
ends it before anything is written.

* `run_dry`, `run_real`: both kinds of a run.
* `report_spec`: what the analysis counts.
* `repair_reports`: a dry run says what a real one does, and what that leaves is clean.
-/

namespace Digdigdig3.Cure

open Storage Storage.StorageManager

/-- `RepairReport` (lines 16–25). -/
structure RepairReport where
  integrity : IntegrityReport
  dedupedKept : ℕ
  dedupedRemoved : ℕ
  orderbookGaps : List GapInfo

namespace RepairPipeline

variable {Dir H F D : Type} [DecidableEq Dir] [DecidableEq H] [LinearOrder D] [Zero D]
  (U : Unicode) (decoder : Decoder F) (tryFrom : F → Option D) (fingerprint : Bytes → H)
  (resolve : List String → Dir)

/-- `is_orderbook` (lines 65–66). -/
def isOrderbook (streamKind : String) : Bool :=
  let kindLower := U.toLowercase streamKind.toList
  decide ("orderbook".toList <:+: kindLower) || decide ("delta".toList <:+: kindLower)

/-- `RepairPipeline::run` (lines 46–82), with the checker's threshold of a minute. -/
def run (storage : StorageManager Dir) (key : StreamKey) (r : DedupRun) (dryRun : Bool) :
    StorageManager Dir × Except String (Option RepairReport) :=
  match IntegrityChecker.check decoder.value fingerprint 60000 resolve storage key r.fromMs
      r.toMs with
  | .error e => (storage, .error e)
  | .ok none => (storage, .ok none)
  | .ok (some integrity) =>
    let (storage, counts) :=
      if dryRun then (storage, .ok (integrity.recordCount, integrity.duplicateCount))
      else dedup resolve fingerprint storage key r
    match counts with
    | .error e => (storage, .error e)
    | .ok (kept, removed) =>
      let gaps :=
        if isOrderbook U key.streamKind then
          GapDetector.detect decoder tryFrom resolve storage key r.fromMs r.toMs
        else .ok []
      match gaps with
      | .error e => (storage, .error e)
      | .ok gaps =>
        (storage, .ok (some { integrity, dedupedKept := kept, dedupedRemoved := removed
                              orderbookGaps := gaps }))

/-! ## The analysis -/

section Report

variable {value : Bytes → Option Json} {fingerprint}

/-- What the analysis counts, where it ends. -/
theorem report_spec (key : StreamKey) (fromMs toMs : ℤ) {records : List EventRecord}
    (hsub : IntegrityChecker.Subtractable records) :
    (IntegrityChecker.Countable value fingerprint records → ∃ r,
      IntegrityChecker.report value fingerprint 60000 key fromMs toMs records = some r ∧
        r.recordCount = records.length ∧
        r.duplicateCount + (records.map (mark fingerprint)).toFinset.card = r.recordCount) ∧
    (¬ IntegrityChecker.Countable value fingerprint records →
      IntegrityChecker.report value fingerprint 60000 key fromMs toMs records = none) := by
  obtain ⟨hsome, hnone⟩ := IntegrityChecker.check_loop value fingerprint 60000 hsub
  constructor
  · intro hcount
    obtain ⟨s, hs, hdesc⟩ := hsome hcount
    obtain ⟨avg, havg⟩ := IntegrityChecker.exists_avgInterval hsub
    have hduplicates := sum_duplicates (records.map (mark fingerprint))
    rw [← hdesc.seen, List.length_map] at hduplicates
    refine ⟨{ stream := key, fromMs := fromMs, toMs := toMs, recordCount := records.length
              duplicateCount := ((s.seen.filter fun e => 1 < e.2).map fun e => e.2 - 1).sum
              outOfOrderCount := s.outOfOrderCount, parseErrors := s.parseErrors
              timeGaps := s.timeGaps, sequenceGaps := s.sequenceGaps
              firstTs := records.head?.map (·.tsMs), lastTs := records.getLast?.map (·.tsMs)
              avgIntervalMs := avg }, ?_, rfl, hduplicates⟩
    rw [IntegrityChecker.report, hs]
    simp only [Option.bind_eq_bind, Option.bind_some, havg, Option.pure_def]
  · intro hcount
    simp only [IntegrityChecker.report, hnone hcount, Option.bind_eq_bind, Option.bind_none]

theorem firsts_sublist (fingerprint : Bytes → H) (seen : List (Int64 × H))
    (records : List EventRecord) : (firsts fingerprint seen records).Sublist records := by
  induction records generalizing seen with
  | nil => exact List.Sublist.refl _
  | cons r records ih =>
    rw [firsts]
    by_cases hseen : mark fingerprint r ∉ seen
    · rw [if_pos hseen]
      exact (ih _).cons_cons r
    · rw [if_neg hseen]
      exact (ih _).cons r

/-- Records with marks of their own are all kept. -/
theorem firsts_of_nodup {records : List EventRecord} {seen : List (Int64 × H)}
    (hnodup : (records.map (mark fingerprint)).Nodup)
    (hnew : ∀ r ∈ records, mark fingerprint r ∉ seen) :
    firsts fingerprint seen records = records := by
  induction records generalizing seen with
  | nil => rfl
  | cons r records ih =>
    obtain ⟨hr, hnodup⟩ := List.nodup_cons.mp hnodup
    rw [firsts, if_pos (hnew r List.mem_cons_self), ih hnodup fun r' hr' hmem => ?_]
    rcases List.mem_cons.mp hmem with heq | hmem
    · exact hr (heq ▸ List.mem_map_of_mem hr')
    · exact hnew r' (List.mem_cons_of_mem r hr') hmem

/-- The first of two neighbours is in front of the last element. -/
theorem mem_dropLast_iff {α : Type} {l : List α} {a : α} :
    a ∈ l.dropLast ↔ ∃ p ∈ adjacent l, p.1 = a := by
  induction l with
  | nil => simp [adjacent]
  | cons b l ih =>
    cases l with
    | nil => simp [adjacent]
    | cons c l =>
      rw [List.dropLast_cons_cons, List.mem_cons, ih, adjacent]
      simp [eq_comm]

theorem dropLast_sublist_dropLast {α : Type} {l l' : List α} (h : l.Sublist l') :
    l.dropLast.Sublist l'.dropLast := by
  rw [List.dropLast_eq_take, List.dropLast_eq_take]
  induction h with
  | slnil => exact List.Sublist.refl _
  | @cons l₁ l₂ a h ih =>
    cases l₂ with
    | nil =>
      rw [List.sublist_nil.mp h]
      exact List.nil_sublist _
    | cons b l₂ => exact ih.trans (by simp)
  | @cons_cons l₁ l₂ a h ih =>
    cases l₁ with
    | nil => exact List.nil_sublist _
    | cons b l₁ =>
      cases l₂ with
      | nil => exact absurd (List.sublist_nil.mp h) (by simp)
      | cons c l₂ => simpa using ih

/-- What the analysis can count of a range, it can count of what deduplication keeps of it. -/
theorem countable_firsts {records : List EventRecord}
    (h : IntegrityChecker.Countable value fingerprint records) :
    IntegrityChecker.Countable value fingerprint (firsts fingerprint [] records) := by
  obtain ⟨hseq, -⟩ := h
  have hsub := firsts_sublist fingerprint [] records
  refine ⟨fun p hp => ?_, fun r hr => ?_⟩
  · have hmem : p.1 ∈ (IntegrityChecker.sequences value (firsts fingerprint [] records)).dropLast :=
      mem_dropLast_iff.mpr ⟨p, hp, rfl⟩
    have hsequences : (IntegrityChecker.sequences value (firsts fingerprint [] records)).Sublist
        (IntegrityChecker.sequences value records) := hsub.filterMap _
    obtain ⟨q, hq, heq⟩ := mem_dropLast_iff.mp ((dropLast_sublist_dropLast hsequences).subset hmem)
    exact heq ▸ hseq q hq
  · exact (timesIn_le_one (IntegrityChecker.firsts_marks fingerprint [] records).1 _).trans
      (show 1 ≤ 4294967295 by decide)

end Report

/-! ## Runs -/

variable {storage : StorageManager Dir} {key : StreamKey} {r : DedupRun}

/-- A run that overflows in the analysis writes nothing. -/
theorem run_of_not_countable (dryRun : Bool) (h : ¬ IntegrityChecker.Countable decoder.value
    fingerprint (scanned resolve storage key r)) :
    run U decoder tryFrom fingerprint resolve storage key r dryRun = (storage, .ok none) := by
  have hnone := (report_spec key r.fromMs r.toMs (IntegrityChecker.subtractable_scanned resolve
    storage key r.fromMs r.toMs)).2 h
  rw [run, IntegrityChecker.check, readRange_eq_ok]
  simp only [hnone]

/-- The gaps that a run reports, with the storage as it finds it then. -/
def gapsOf (storage : StorageManager Dir) (key : StreamKey) (r : DedupRun) : List GapInfo :=
  if isOrderbook U key.streamKind then
    (GapDetector.scan decoder tryFrom).emitted (OrderBookTracker.new "replay")
      (scanned resolve storage key r)
  else []

omit [DecidableEq Dir] in
theorem gaps_eq (storage : StorageManager Dir) (key : StreamKey) (r : DedupRun) :
    (if isOrderbook U key.streamKind then
      GapDetector.detect decoder tryFrom resolve storage key r.fromMs r.toMs else .ok []) =
      .ok (gapsOf U decoder tryFrom resolve storage key r) := by
  unfold gapsOf GapDetector.detect
  rw [readRange_eq_ok]
  split_ifs <;> rfl

/-- The sister stream leaves the original one alone, and so its gaps. -/
theorem gapsOf_dedup (hdir : streamDir resolve (outKey key) ≠ streamDir resolve key) :
    gapsOf U decoder tryFrom resolve (dedup resolve fingerprint storage key r).1 key r =
      gapsOf U decoder tryFrom resolve storage key r := by
  have hdirs := (appends_frame resolve (outKey key) r.clock 0
    (firsts fingerprint [] (scanned resolve storage key r)) storage).1 _ hdir
  unfold gapsOf
  rw [scanned, (dedup_eq resolve fingerprint storage key r).1, hdirs]
  rfl

/-- A dry run. -/
theorem run_dry {integrity : IntegrityReport}
    (hreport : IntegrityChecker.report decoder.value fingerprint 60000 key r.fromMs r.toMs
      (scanned resolve storage key r) = some integrity) :
    run U decoder tryFrom fingerprint resolve storage key r true =
      (storage, .ok (some ⟨integrity, integrity.recordCount, integrity.duplicateCount,
        gapsOf U decoder tryFrom resolve storage key r⟩)) := by
  rw [run, IntegrityChecker.check, readRange_eq_ok]
  rw [scanned] at hreport
  simp only [hreport, if_true]
  rw [gaps_eq]

/-- A real run. -/
theorem run_real {integrity : IntegrityReport}
    (hreport : IntegrityChecker.report decoder.value fingerprint 60000 key r.fromMs r.toMs
      (scanned resolve storage key r) = some integrity) :
    run U decoder tryFrom fingerprint resolve storage key r false =
      ((dedup resolve fingerprint storage key r).1, .ok (some ⟨integrity,
        (firsts fingerprint [] (scanned resolve storage key r)).length,
        (scanned resolve storage key r).length -
          (firsts fingerprint [] (scanned resolve storage key r)).length,
        gapsOf U decoder tryFrom resolve (dedup resolve fingerprint storage key r).1 key r⟩)) := by
  have hdedup := (dedup_eq resolve fingerprint storage key r).1
  rw [run, IntegrityChecker.check, readRange_eq_ok]
  rw [scanned] at hreport
  simp only [hreport, Bool.false_eq_true, if_false]
  rw [hdedup]
  simp only
  rw [gaps_eq]

/-! ## Dry and real runs -/

/-- A dry run writes nothing and says what the real one does: both end, or neither, with the same
    analysis and the same gaps, and as many removed; where the real one keeps the others, the dry
    one counts all as kept. The real one leaves all other directories as they are. -/
structure DryTellsReal (storage : StorageManager Dir) (key : StreamKey) (r : DedupRun) : Prop where
  writesNothing : (run U decoder tryFrom fingerprint resolve storage key r true).1 = storage
  elsewhere : ∀ d, streamDir resolve (outKey key) ≠ d →
    (run U decoder tryFrom fingerprint resolve storage key r false).1.dirs d = storage.dirs d
  overflows : ¬ IntegrityChecker.Countable decoder.value fingerprint
      (scanned resolve storage key r) → ∀ dryRun,
    run U decoder tryFrom fingerprint resolve storage key r dryRun = (storage, .ok none)
  reports : IntegrityChecker.Countable decoder.value fingerprint (scanned resolve storage key r) →
    ∃ dry real, (run U decoder tryFrom fingerprint resolve storage key r true).2 = .ok (some dry) ∧
      (run U decoder tryFrom fingerprint resolve storage key r false).2 = .ok (some real) ∧
      dry.integrity = real.integrity ∧ dry.orderbookGaps = real.orderbookGaps ∧
      dry.dedupedRemoved = real.dedupedRemoved ∧
      dry.dedupedKept = real.dedupedKept + real.dedupedRemoved ∧
      real.dedupedRemoved = real.integrity.duplicateCount

/-- Every later run over the same range of the sister stream ends and finds nothing to remove in
    what the real run has kept. -/
def LeavesClean (storage : StorageManager Dir) (key : StreamKey) (r : DedupRun) : Prop :=
  ∀ real, (run U decoder tryFrom fingerprint resolve storage key r false).2 = .ok (some real) →
    ∀ clock dryRun, ∃ again, (run U decoder tryFrom fingerprint resolve
        ((run U decoder tryFrom fingerprint resolve storage key r false).1.flushAll resolve)
        (outKey key) { r with clock } dryRun).2 = .ok (some again) ∧
      again.integrity.recordCount = real.dedupedKept ∧ again.integrity.duplicateCount = 0 ∧
      again.dedupedKept = real.dedupedKept ∧ again.dedupedRemoved = 0

theorem dryTellsReal (hdir : streamDir resolve (outKey key) ≠ streamDir resolve key)
    (storage : StorageManager Dir) (r : DedupRun) :
    DryTellsReal U decoder tryFrom fingerprint resolve storage key r := by
  by_cases hcount : IntegrityChecker.Countable decoder.value fingerprint
      (scanned resolve storage key r)
  · obtain ⟨integrity, hreport, hrecords, hduplicates⟩ := (report_spec key r.fromMs r.toMs
      (IntegrityChecker.subtractable_scanned resolve storage key r.fromMs r.toMs)).1 hcount
    have hdry := run_dry U decoder tryFrom fingerprint resolve hreport
    have hreal := run_real U decoder tryFrom fingerprint resolve hreport
    rw [gapsOf_dedup U decoder tryFrom fingerprint resolve hdir] at hreal
    have hkept := IntegrityChecker.length_firsts fingerprint (scanned resolve storage key r)
    have hle := (firsts_sublist fingerprint [] (scanned resolve storage key r)).length_le
    rw [← scanned] at hrecords hduplicates
    refine ⟨by rw [hdry], fun d hd => ?_, fun hnot => absurd hcount hnot, fun _ => ?_⟩
    · rw [hreal, (dedup_eq resolve fingerprint storage key r).1]
      exact (appends_frame resolve (outKey key) r.clock 0 _ storage).1 d hd
    · refine ⟨_, _, congrArg Prod.snd hdry, congrArg Prod.snd hreal, rfl, rfl, ?_, ?_, ?_⟩
      · show integrity.duplicateCount = (scanned resolve storage key r).length - _
        omega
      · show integrity.recordCount =
          (firsts fingerprint [] (scanned resolve storage key r)).length +
          ((scanned resolve storage key r).length - _)
        omega
      · show (scanned resolve storage key r).length - _ = integrity.duplicateCount
        omega
  · have hnone := fun dryRun =>
      run_of_not_countable U decoder tryFrom fingerprint resolve dryRun hcount
    refine ⟨by rw [hnone], fun d _ => by rw [hnone], fun _ => hnone, fun h => absurd h hcount⟩

/-- Before the first run nothing is in the sister stream. -/
theorem betweenRuns_init {calls : List Call} (hfresh : ∀ k ∈ key :: appendedKeys calls,
      streamDir resolve k ≠ streamDir resolve (outKey key)) :
    BetweenRuns resolve key ((StorageManager.run resolve calls).flushAll resolve)
      ((StorageManager.run resolve calls).flushAll resolve) calls := by
  have hnone : appended (outKey key) calls = [] := by
    apply List.filterMap_eq_nil_iff.mpr
    rintro (⟨k, openDay, day, r⟩ | ⟨k, n⟩ | _) hc
    · apply if_neg
      rintro rfl
      have hmem : outKey key ∈ appendedKeys calls := List.mem_filterMap.mpr ⟨_, hc, rfl⟩
      exact hfresh _ (List.mem_cons_of_mem _ hmem) rfl
    · rfl
    · rfl
  refine ⟨rfl, fun k hk heq => ?_, ?_, fun _ => rfl⟩
  · exact absurd heq (hfresh k (List.mem_cons_of_mem _ hk))
  · rw [hnone]
    exact List.nodup_nil

theorem leavesClean {storage₀ : StorageManager Dir} {calls : List Call}
    (hdir : streamDir resolve (outKey key) ≠ streamDir resolve key)
    (hcf : CollisionFree fingerprint (allRecords (storage₀.dirs (streamDir resolve key))))
    (h : BetweenRuns resolve key storage₀ storage calls)
    (hfiled : FilesInRange resolve key storage r) :
    LeavesClean U decoder tryFrom fingerprint resolve storage key r := by
  intro real hreal clock dryRun
  have hrecords : CollisionFree fingerprint (scanned resolve storage key r) := by
    have hmem : ∀ p ∈ scanned resolve storage key r,
        p ∈ allRecords (storage₀.dirs (streamDir resolve key)) := by
      intro p hp
      apply mem_allRecords_of_mem
      rw [← clampedRecords_congr h.bytes_eq]
      exact hp
    exact fun p hp q hq => hcf p (hmem p hp) q (hmem q hq)
  have hcount : IntegrityChecker.Countable decoder.value fingerprint
      (scanned resolve storage key r) := by
    by_contra hnot
    rw [run_of_not_countable U decoder tryFrom fingerprint resolve false hnot] at hreal
    cases hreal
  obtain ⟨integrity, hreport, -⟩ := (report_spec key r.fromMs r.toMs
    (IntegrityChecker.subtractable_scanned resolve storage key r.fromMs r.toMs)).1 hcount
  have hrun := run_real U decoder tryFrom fingerprint resolve hreport
  rw [hrun] at hreal
  cases hreal
  -- what the sister stream reads back
  obtain ⟨records, kept, removed, hread, -, -, hback⟩ :=
    ((deduplicated_iff hdir hcf h r).mpr hfiled).reads_back
  rw [readRange_eq_ok] at hread hback
  cases hread
  have hagain : ∀ clock, scanned resolve (dedupAndFlush resolve fingerprint key storage r)
      (outKey key) { r with clock } = firsts fingerprint [] (scanned resolve storage key r) :=
    fun clock => by
      rw [firsts_nil_eq hrecords]
      exact Except.ok.inj hback
  have hmarks := (IntegrityChecker.firsts_marks fingerprint [] (scanned resolve storage key r)).1
  obtain ⟨again, hreport', hlength, hduplicates⟩ := (report_spec (outKey key) r.fromMs r.toMs
    (IntegrityChecker.subtractable_scanned resolve (dedupAndFlush resolve fingerprint key storage r)
      (outKey key) r.fromMs r.toMs)).1 (by
        have hcountable := countable_firsts hcount
        rw [← hagain clock] at hcountable
        exact hcountable)
  have hscan : clampedRecords ((dedupAndFlush resolve fingerprint key storage r).dirs
      (streamDir resolve (outKey key))) r.fromMs r.toMs =
      firsts fingerprint [] (scanned resolve storage key r) := hagain clock
  rw [hscan] at hlength hduplicates
  rw [List.toFinset_card_of_nodup hmarks, List.length_map] at hduplicates
  have hzero : again.duplicateCount = 0 := by omega
  have hflush : (dedup resolve fingerprint storage key r).1.flushAll resolve =
      dedupAndFlush resolve fingerprint key storage r := rfl
  rw [hrun, hflush]
  cases dryRun with
  | true =>
    refine ⟨_, congrArg Prod.snd
      (run_dry U decoder tryFrom fingerprint resolve (r := { r with clock })
      hreport'), hlength, hzero, hlength, hzero⟩
  | false =>
    have hkept : firsts fingerprint []
        (scanned resolve (dedupAndFlush resolve fingerprint key storage r)
        (outKey key) { r with clock }) = firsts fingerprint [] (scanned resolve storage key r) := by
      rw [hagain clock]
      exact firsts_of_nodup hmarks fun _ _ => List.not_mem_nil
    have hrun' := run_real U decoder tryFrom fingerprint resolve (r := { r with clock }) hreport'
    rw [hkept, hagain clock] at hrun'
    exact ⟨_, congrArg Prod.snd hrun', hlength, hzero, rfl, Nat.sub_self _⟩

end RepairPipeline

end Digdigdig3.Cure
