import Digdigdig3.Storage.Manager
import Digdigdig3.Lib.Occurrences
import Digdigdig3.Lib.Runs

/-!
# `Deduper`: the unique records of a range, in a sister stream

`Deduper::dedup` (`crates/digdigdig3-station/src/cure/dedup.rs`) reads a range of a stream
and appends the first record of each `(ts_ms, fingerprint)` pair to the stream
`{stream_kind}_deduped`. What it has seen it forgets after the run, and the records it
keeps are filed by the wall-clock day on which the run takes place.

`fingerprint` stands for `sha256_first16`; every run is followed by `flush_all`.

Results:
* `dedup_eq`: a run reads, appends and counts.
* `deduped_runs_iff`: the sequences of runs after each of which the deduped stream holds no
  record twice and the range reads back as its first occurrences.
-/

namespace Digdigdig3.Cure

open Storage Storage.StorageManager

/-! ## The run -/

/-- The sister stream (lines 42–47). -/
def outKey (key : StreamKey) : StreamKey := { key with streamKind := key.streamKind ++ "_deduped" }

/-- What `append` meets: the days that `get_or_open` and `RotatingWriter::append` see on
    the clock, and how many bytes the `BufWriter` hands to its file afterwards. -/
structure Tick where
  openDay : ℤ
  day : ℤ
  spilled : ℕ

/-- A run over `[fromMs, toMs]`; `clock i` is what its `i`-th append meets. -/
structure DedupRun where
  fromMs : ℤ
  toMs : ℤ
  clock : ℕ → Tick

variable {Dir H : Type} [DecidableEq Dir] [DecidableEq H] (resolve : List String → Dir)
  (fingerprint : Bytes → H)

/-- What the run remembers of a record (lines 54–55). -/
def mark (r : EventRecord) : Int64 × H := (r.tsMs, fingerprint r.payload)

/-- The loop of `dedup` (lines 53–61), with the set `seen`. -/
def dedupLoop (out : StreamKey) (clock : ℕ → Tick) :
    StorageManager Dir → List (Int64 × H) → ℕ → ℕ → List EventRecord →
      StorageManager Dir × ℕ × ℕ
  | storage, _, kept, removed, [] => (storage, kept, removed)
  | storage, seen, kept, removed, r :: records =>
    if mark fingerprint r ∉ seen then
      let tick := clock kept
      let storage := storage.append resolve out tick.openDay tick.day r
      let storage := storage.call resolve (.spill out tick.spilled)
      dedupLoop out clock storage (mark fingerprint r :: seen) (kept + 1) removed records
    else dedupLoop out clock storage seen kept (removed + 1) records

/-- `Deduper::dedup` (lines 34–64): the storage after the run, and `(kept, removed)`. -/
def dedup (storage : StorageManager Dir) (key : StreamKey) (run : DedupRun) :
    StorageManager Dir × Except String (ℕ × ℕ) :=
  match storage.readRange resolve key run.fromMs run.toMs with
  | .error e => (storage, .error e)
  | .ok records =>
    let (storage, counts) :=
      dedupLoop resolve fingerprint (outKey key) run.clock storage [] 0 0 records
    (storage, .ok counts)

/-- A run and the `flush_all` after it. -/
def dedupAndFlush (key : StreamKey) (storage : StorageManager Dir) (run : DedupRun) :
    StorageManager Dir :=
  (dedup resolve fingerprint storage key run).1.flushAll resolve

/-- The storage after the runs `runs`. -/
def dedupAll (key : StreamKey) (storage : StorageManager Dir) (runs : List DedupRun) :
    StorageManager Dir :=
  runs.foldl (dedupAndFlush resolve fingerprint key) storage

/-! ## What a run appends -/

/-- The records that a run reads. -/
def scanned (storage : StorageManager Dir) (key : StreamKey) (run : DedupRun) : List EventRecord :=
  clampedRecords (storage.dirs (streamDir resolve key)) run.fromMs run.toMs

/-- The records whose mark is not in `seen` and new among those in front of them. -/
def firsts : List (Int64 × H) → List EventRecord → List EventRecord
  | _, [] => []
  | seen, r :: records =>
    if mark fingerprint r ∉ seen then r :: firsts (mark fingerprint r :: seen) records
    else firsts seen records

/-- The calls that append `records` to the stream `out`, from tick `i` on. -/
def appends (out : StreamKey) (clock : ℕ → Tick) (i : ℕ) (records : List EventRecord) : List Call :=
  (records.zipIdx i).flatMap fun r =>
    [.append out (clock r.2).openDay (clock r.2).day r.1, .spill out (clock r.2).spilled]

/-- The records with the days on which they are appended, from tick `i` on. -/
def stamped (clock : ℕ → Tick) (i : ℕ) (records : List EventRecord) : List (ℤ × EventRecord) :=
  (records.zipIdx i).map fun r => ((clock r.2).day, r.1)

theorem dedupLoop_eq (out : StreamKey) (clock : ℕ → Tick) (storage : StorageManager Dir)
    (seen : List (Int64 × H)) (kept removed : ℕ) (records : List EventRecord) :
    let kepts := firsts fingerprint seen records
    dedupLoop resolve fingerprint out clock storage seen kept removed records =
      ((appends out clock kept kepts).foldl (call resolve) storage, kept + kepts.length,
        removed + (records.length - kepts.length)) ∧ kepts.length ≤ records.length := by
  induction records generalizing storage seen kept removed with
  | nil => exact ⟨rfl, le_rfl⟩
  | cons r records ih =>
    intro kepts
    by_cases hseen : mark fingerprint r ∉ seen
    · have hkepts : kepts = r :: firsts fingerprint (mark fingerprint r :: seen) records :=
        if_pos hseen
      rw [dedupLoop, if_pos hseen, hkepts]
      obtain ⟨heq, hle⟩ := ih ((storage.append resolve out (clock kept).openDay (clock kept).day
        r).call resolve (.spill out (clock kept).spilled)) (mark fingerprint r :: seen)
        (kept + 1) removed
      rw [heq]
      refine ⟨?_, Nat.succ_le_succ hle⟩
      simp only [List.length_cons, Nat.add_sub_add_right]
      rw [Nat.add_right_comm kept 1, Nat.add_assoc kept]
      rfl
    · have hkepts : kepts = firsts fingerprint seen records := if_neg hseen
      rw [dedupLoop, if_neg hseen, hkepts]
      obtain ⟨heq, hle⟩ := ih storage seen kept (removed + 1)
      rw [heq]
      refine ⟨?_, hle.trans (Nat.le_succ _)⟩
      rw [List.length_cons, Nat.add_right_comm removed, Nat.add_assoc removed,
        ← Nat.sub_add_comm hle]

/-- A run reads, appends the first record of each mark, and counts the others. -/
theorem dedup_eq (storage : StorageManager Dir) (key : StreamKey) (run : DedupRun) :
    let records := scanned resolve storage key run
    let kepts := firsts fingerprint [] records
    dedup resolve fingerprint storage key run =
      ((appends (outKey key) run.clock 0 kepts).foldl (call resolve) storage,
        .ok (kepts.length, records.length - kepts.length)) ∧ kepts.length ≤ records.length := by
  intro records kepts
  have hloop := dedupLoop_eq resolve fingerprint (outKey key) run.clock storage [] 0 0 records
  simp only [Nat.zero_add] at hloop
  refine ⟨?_, hloop.2⟩
  have hread : storage.readRange resolve key run.fromMs run.toMs = .ok records :=
    readRange_eq_ok resolve storage key _ _
  simp only [dedup, hread, hloop.1]
  rfl

/-! ## First occurrences -/

variable {fingerprint}

/-- The fingerprints of different payloads among `records` differ. -/
def CollisionFree (fingerprint : Bytes → H) (records : List EventRecord) : Prop :=
  ∀ r ∈ records, ∀ r' ∈ records, fingerprint r.payload = fingerprint r'.payload →
    r.payload = r'.payload

/-- Without collisions a run keeps the first occurrences of the records it reads. -/
theorem firsts_eq {records : List EventRecord} (h : CollisionFree fingerprint records)
    (seen : List (Int64 × H)) : firsts fingerprint seen records =
      (records.filter fun r => decide (mark fingerprint r ∉ seen)).eraseDups := by
  induction records generalizing seen with
  | nil => rfl
  | cons r records ih =>
    have ih := ih fun a ha b hb => h a (List.mem_cons_of_mem r ha) b (List.mem_cons_of_mem r hb)
    by_cases hseen : mark fingerprint r ∉ seen
    · rw [firsts, if_pos hseen, List.filter_cons_of_pos (by simpa using hseen),
        List.eraseDups_cons, ih, List.filter_filter]
      congr 2
      apply List.filter_congr
      intro a ha
      have heq : mark fingerprint a = mark fingerprint r ↔ a = r := by
        constructor
        · intro hmark
          have hpay := h a (List.mem_cons_of_mem r ha) r List.mem_cons_self
            (congrArg Prod.snd hmark)
          exact EventRecord.ext (congrArg Prod.fst hmark) hpay
        · rintro rfl
          rfl
      by_cases har : a = r <;> simp [heq, har]
    · rw [firsts, if_neg hseen, List.filter_cons_of_neg (by simpa using hseen), ih]

theorem firsts_nil_eq {records : List EventRecord} (h : CollisionFree fingerprint records) :
    firsts fingerprint [] records = records.eraseDups := by
  rw [firsts_eq h []]
  simp

/-! ## What is read back -/

section Stamps

variable (out : StreamKey) (clock : ℕ → Tick) (i : ℕ) (records : List EventRecord)

theorem map_snd_stamped : (stamped clock i records).map Prod.snd = records := by
  rw [stamped, List.map_map]
  exact List.zipIdx_map_fst i records

/-- The days of stamped records are what the clock shows. -/
theorem forall_mem_stamped {p : ℤ → Prop} :
    (∀ w ∈ stamped clock 0 records, p w.1) ↔ ∀ i < records.length, p (clock i).day := by
  rw [List.forall_mem_iff_getElem]
  simp [stamped]

theorem pairwise_stamped :
    (stamped clock 0 records).Pairwise (fun a b => a.1 ≤ b.1) ↔
      ∀ j < records.length, ∀ i < j, (clock i).day ≤ (clock j).day := by
  rw [List.pairwise_iff_getElem]
  simp only [stamped, List.length_map, List.length_zipIdx, List.getElem_map, List.getElem_zipIdx,
    Nat.zero_add]
  constructor
  · intro h j hj i hij
    exact h i j (hij.trans hj) hj hij
  · intro h i j _ hj hij
    exact h j hj i hij

theorem appended_appends (out : StreamKey) :
    appended out (appends out clock i records) = stamped clock i records := by
  induction records generalizing i with
  | nil => rfl
  | cons r records ih =>
    have hcons : appends out clock i (r :: records) =
        .append out (clock i).openDay (clock i).day r :: .spill out (clock i).spilled ::
          appends out clock (i + 1) records := rfl
    have ih := ih (i + 1)
    unfold appended at ih
    simp only [hcons, appended, List.filterMap_cons, if_true, ih]
    rfl

theorem appendedKeys_appends {k : StreamKey} (h : k ∈ appendedKeys (appends out clock i records)) :
    k = out := by
  obtain ⟨c, hc, hk⟩ := List.mem_filterMap.mp h
  obtain ⟨r, -, hc⟩ := List.mem_flatMap.mp hc
  rcases List.mem_pair.mp hc with rfl | rfl
  · simpa using hk.symm
  · simp at hk

end Stamps

/-- All records in the files of a stream, oldest day first. -/
def allRecords (files : StreamDir) : List EventRecord :=
  files.toList.flatMap fun file => readRecords file.2

theorem allRecords_perm {files : StreamDir} {ws : List (ℤ × EventRecord)}
    (hfiles : ∀ day, files.bytes day = encodeRecords (bucket ws day)) :
    (allRecords files).Perm (ws.map Prod.snd) := by
  have hdays : allRecords files = (files.toList.map Prod.fst).flatMap (bucket ws) := by
    rw [List.flatMap_map]
    apply List.flatMap_congr
    rintro ⟨day, bs⟩ hmem
    have hbs : bs = encodeRecords (bucket ws day) := by
      rw [← hfiles day, StreamDir.bytes,
        Std.ExtTreeMap.mem_toList_iff_getElem?_eq_some.mp hmem]
      rfl
    rw [hbs]
    exact recordFraming.readAll_encodeAll _
  have hnodup : (files.toList.map Prod.fst).Nodup := by
    rw [List.Nodup, List.pairwise_map]
    exact Std.ExtTreeMap.distinct_keys_toList.imp fun h heq => by simp [heq] at h
  rw [hdays]
  refine (flatMap_bucket_perm hnodup ws).trans (List.Perm.of_eq ?_)
  rw [List.filter_eq_self.mpr]
  intro w hw
  rw [decide_eq_true_eq]
  have hday := (mem_days_iff hfiles hw w.1 w.1).mpr ⟨le_rfl, le_rfl⟩
  exact (List.filter_sublist.map Prod.fst).subset hday

/-- A range read finds records of the stream. -/
theorem mem_allRecords_of_mem {files : StreamDir} {fromMs toMs : ℤ} {r : EventRecord}
    (h : r ∈ clampedRecords files fromMs toMs) : r ∈ allRecords files := by
  unfold clampedRecords at h
  split_ifs at h with hempty
  · cases h
  · obtain ⟨file, hfile, hr⟩ := List.mem_flatMap.mp h
    rw [readFileRange_eq_filter] at hr
    exact List.mem_flatMap.mpr ⟨file, List.mem_of_mem_filter hfile, List.mem_of_mem_filter hr⟩

/-- After distinct records `new` are appended to the distinct records `ws`, a range read
    returns `new` exactly when it found none of `ws` before, and `new` was appended in the
    order of days, on days in range. -/
theorem rangeRecords_append_iff {files files' : StreamDir} {ws new : List (ℤ × EventRecord)}
    (hfiles : ∀ day, files.bytes day = encodeRecords (bucket ws day))
    (hfiles' : ∀ day, files'.bytes day = encodeRecords (bucket (ws ++ new) day))
    {fromMs toMs : ℤ} (hrange : ∀ w ∈ new, w.2.inRange fromMs toMs = true)
    (hnodup : ((ws ++ new).map Prod.snd).Nodup) :
    rangeRecords files' fromMs toMs = new.map Prod.snd ↔
      rangeRecords files fromMs toMs = [] ∧
        (∀ w ∈ new, dayOf fromMs ≤ w.1 ∧ w.1 ≤ dayOf toMs) ∧
          new.Pairwise fun a b => a.1 ≤ b.1 := by
  have hdays := sorted_filesBetween files' (dayOf fromMs) (dayOf toMs)
  have hdisj : ∀ w ∈ ws, w.2 ∉ new.map Prod.snd := by
    intro w hw hmem
    rw [List.map_append, List.nodup_append] at hnodup
    exact hnodup.2.2 _ (List.mem_map_of_mem hw) _ hmem rfl
  constructor
  · intro h
    have hread : ∀ {w}, w ∈ ws ++ new → w.2.inRange fromMs toMs = true →
        (dayOf fromMs ≤ w.1 ∧ w.1 ≤ dayOf toMs) → w.2 ∈ new.map Prod.snd := by
      intro w hw hts hday
      rw [← h, (rangeRecords_perm hfiles' fromMs toMs).mem_iff, List.mem_filter]
      exact ⟨List.mem_map_of_mem (List.mem_filter.mpr ⟨hw, decide_eq_true hday⟩), hts⟩
    refine ⟨?_, ?_, ?_⟩
    · apply List.eq_nil_iff_forall_not_mem.mpr
      intro r hr
      rw [(rangeRecords_perm hfiles fromMs toMs).mem_iff, List.mem_filter] at hr
      obtain ⟨hr, hts⟩ := hr
      obtain ⟨w, hw, rfl⟩ := List.mem_map.mp hr
      obtain ⟨hw, hday⟩ := List.mem_filter.mp hw
      exact hdisj w hw (hread (List.mem_append_left _ hw) hts (of_decide_eq_true hday))
    · intro w hw
      have hmem : w.2 ∈ rangeRecords files' fromMs toMs := by
        rw [h]
        exact List.mem_map_of_mem hw
      rw [(rangeRecords_perm hfiles' fromMs toMs).mem_iff, List.mem_filter] at hmem
      obtain ⟨v, hv, heq⟩ := List.mem_map.mp hmem.1
      obtain ⟨hv, hday⟩ := List.mem_filter.mp hv
      have hvw := List.inj_on_of_nodup_map hnodup hv (List.mem_append_right _ hw) heq
      rw [hvw] at hday
      exact of_decide_eq_true hday
    · rw [rangeRecords, flatMap_filesBetween hfiles'] at h
      exact sorted_of_flatMap_bucket hdays hnodup (fun w hw => List.mem_append_right _ hw) h
  · rintro ⟨hnone, hday, hsorted⟩
    have hold : ∀ day ∈ (filesBetween files' (dayOf fromMs) (dayOf toMs)).map Prod.fst,
        (bucket ws day).filter (·.inRange fromMs toMs) = [] := by
      intro day hmem
      apply List.eq_nil_iff_forall_not_mem.mpr
      intro r hr
      obtain ⟨hr, hts⟩ := List.mem_filter.mp hr
      obtain ⟨w, hw, rfl⟩ := List.mem_map.mp hr
      obtain ⟨hw, hkey⟩ := List.mem_filter.mp hw
      have hread : w.2 ∈ rangeRecords files fromMs toMs := by
        have hbetween : dayOf fromMs ≤ w.1 ∧ w.1 ≤ dayOf toMs := by
          obtain ⟨⟨_, bs⟩, hfile, rfl⟩ := List.mem_map.mp hmem
          rw [of_decide_eq_true hkey]
          exact (mem_filesBetween.mp hfile).2
        rw [(rangeRecords_perm hfiles fromMs toMs).mem_iff, List.mem_filter]
        exact ⟨List.mem_map_of_mem (List.mem_filter.mpr ⟨hw, decide_eq_true hbetween⟩), hts⟩
      rw [hnone] at hread
      cases hread
    have hnew : ∀ day, (bucket new day).filter (·.inRange fromMs toMs) = bucket new day := by
      intro day
      apply List.filter_eq_self.mpr
      intro r hr
      obtain ⟨w, hw, rfl⟩ := List.mem_map.mp hr
      exact hrange w (List.mem_of_mem_filter hw)
    rw [rangeRecords, flatMap_filesBetween hfiles', List.filter_flatMap]
    calc _ = ((filesBetween files' (dayOf fromMs) (dayOf toMs)).map Prod.fst).flatMap
          (bucket new) := by
          apply List.flatMap_congr
          intro day hmem
          rw [bucket_append, List.filter_append, hold day hmem, hnew, List.nil_append]
      _ = new.map Prod.snd := by
          apply flatMap_bucket_of_sorted hdays hsorted
          intro w hw
          exact (mem_days_iff hfiles' (List.mem_append_right _ hw) _ _).mpr (hday w hw)

/-! ## Sequences of runs -/

/-- What a run promises: the deduped stream holds no record twice and reads back, over the
    range of the run, as the first occurrences of what the run read; the original stream is
    unchanged; and every record read is counted as kept or removed. -/
structure Deduplicated (resolve : List String → Dir) (fingerprint : Bytes → H) (key : StreamKey)
    (storage : StorageManager Dir) (run : DedupRun) : Prop where
  no_duplicates : (allRecords ((dedupAndFlush resolve fingerprint key storage run).dirs
    (streamDir resolve (outKey key)))).Nodup
  reads_back : ∃ records kept removed,
    storage.readRange resolve key run.fromMs run.toMs = .ok records ∧
    (dedup resolve fingerprint storage key run).2 = .ok (kept, removed) ∧
    kept + removed = records.length ∧
    (dedupAndFlush resolve fingerprint key storage run).readRange resolve (outKey key)
      run.fromMs run.toMs = .ok records.eraseDups
  original_unchanged :
    (∀ day, ((dedupAndFlush resolve fingerprint key storage run).dirs
      (streamDir resolve key)).bytes day = (storage.dirs (streamDir resolve key)).bytes day) ∧
    ∀ fromMs toMs, (dedupAndFlush resolve fingerprint key storage run).readRange resolve key
      fromMs toMs = storage.readRange resolve key fromMs toMs

/-- The run reads no record that the deduped stream holds already; the deduped stream reads
    back empty over its range; and the days on which it appends the distinct records of the
    range do not decrease and lie between the days of its (clamped) bounds. -/
def FilesInRange (resolve : List String → Dir) (key : StreamKey) (storage : StorageManager Dir)
    (run : DedupRun) : Prop :=
  let records := scanned resolve storage key run
  let deduped := storage.dirs (streamDir resolve (outKey key))
  (∀ r ∈ records, r ∉ allRecords deduped) ∧
  clampedRecords deduped run.fromMs run.toMs = [] ∧
  (∀ i < records.eraseDups.length, dayOf (max run.fromMs 0) ≤ (run.clock i).day ∧
    (run.clock i).day ≤ dayOf (max 0 (min run.toMs maxSafeMs))) ∧
  ∀ j < records.eraseDups.length, ∀ i < j, (run.clock i).day ≤ (run.clock j).day

instance (resolve : List String → Dir) (key : StreamKey) (storage : StorageManager Dir)
    (run : DedupRun) : Decidable (FilesInRange resolve key storage run) :=
  inferInstanceAs (Decidable (_ ∧ _ ∧ _ ∧ _))

/-- The storage between runs, `storage₀` being the storage before the first one: everything is
    flushed, the original stream is as it was, the directory of the deduped stream is its own
    and holds no record twice. -/
structure BetweenRuns (resolve : List String → Dir) (key : StreamKey)
    (storage₀ storage : StorageManager Dir) (calls : List Call) : Prop where
  eq_run : storage = (StorageManager.run resolve calls).flushAll resolve
  own_dir : OwnDir resolve calls (outKey key)
  nodup : ((appended (outKey key) calls).map Prod.snd).Nodup
  bytes_eq : ∀ day, (storage.dirs (streamDir resolve key)).bytes day =
    (storage₀.dirs (streamDir resolve key)).bytes day

omit [DecidableEq H] in
/-- Appends to the deduped stream leave every other directory and writer alone. -/
theorem appends_frame (out : StreamKey) (clock : ℕ → Tick) (i : ℕ) (records : List EventRecord)
    (storage : StorageManager Dir) :
    let storage' := (appends out clock i records).foldl (call resolve) storage
    (∀ d, streamDir resolve out ≠ d → storage'.dirs d = storage.dirs d) ∧
      ∀ k, k ≠ out → storage'.openWriters.lookup k = storage.openWriters.lookup k := by
  induction records generalizing i storage with
  | nil => exact ⟨fun _ _ => rfl, fun _ _ => rfl⟩
  | cons r records ih =>
    obtain ⟨hdirs, hlookup⟩ := ih (i + 1)
      ((storage.append resolve out (clock i).openDay (clock i).day r).call resolve
        (.spill out (clock i).spilled))
    constructor
    · intro d hd
      refine (hdirs d hd).trans ?_
      rw [call, dirs_withWriter_of_ne resolve hd, dirs_append_of_ne resolve hd]
    · intro k hk
      refine (hlookup k hk).trans ?_
      rw [call, lookup_withWriter_of_ne resolve hk, lookup_append_of_ne resolve hk]

section Step

variable {resolve} {key : StreamKey} {storage₀ storage : StorageManager Dir} {calls : List Call}

/-- **Step lemma.** A run extends the calls by the appends of the distinct records it read. -/
theorem dedupAndFlush_spec (hdir : streamDir resolve (outKey key) ≠ streamDir resolve key)
    (hcf : CollisionFree fingerprint (allRecords (storage₀.dirs (streamDir resolve key))))
    (h : BetweenRuns resolve key storage₀ storage calls) (run : DedupRun) :
    let records := scanned resolve storage key run
    let calls' := calls ++ .flushAll :: appends (outKey key) run.clock 0 records.eraseDups
    (dedup resolve fingerprint storage key run).2 =
        .ok (records.eraseDups.length, records.length - records.eraseDups.length) ∧
      records.eraseDups.length ≤ records.length ∧
      dedupAndFlush resolve fingerprint key storage run =
        (StorageManager.run resolve calls').flushAll resolve ∧
      OwnDir resolve calls' (outKey key) ∧
      appended (outKey key) calls' =
        appended (outKey key) calls ++ stamped run.clock 0 records.eraseDups ∧
      ∀ day, ((dedupAndFlush resolve fingerprint key storage run).dirs
        (streamDir resolve key)).bytes day = (storage.dirs (streamDir resolve key)).bytes day := by
  intro records calls'
  have hrecords : CollisionFree fingerprint records := by
    have hmem : ∀ r ∈ records, r ∈ allRecords (storage₀.dirs (streamDir resolve key)) := by
      intro r hr
      apply mem_allRecords_of_mem
      rw [← clampedRecords_congr h.bytes_eq]
      exact hr
    intro r hr r' hr'
    exact hcf r (hmem r hr) r' (hmem r' hr')
  have hfirsts : firsts fingerprint [] (scanned resolve storage key run) = records.eraseDups :=
    firsts_nil_eq hrecords
  obtain ⟨hdedup, hle⟩ := dedup_eq resolve fingerprint storage key run
  rw [hfirsts] at hdedup hle
  have hrun : dedupAndFlush resolve fingerprint key storage run =
      (StorageManager.run resolve calls').flushAll resolve := by
    rw [dedupAndFlush, hdedup, StorageManager.run, List.foldl_append, List.foldl_cons, h.eq_run]
    rfl
  refine ⟨by rw [hdedup], hle, hrun, ?_, ?_, ?_⟩
  · intro k hk
    rw [appendedKeys, List.filterMap_append, List.mem_append] at hk
    rcases hk with hk | hk
    · exact h.own_dir k hk
    · exact fun _ => appendedKeys_appends (outKey key) run.clock 0 records.eraseDups hk
  · rw [← appended_appends run.clock 0 records.eraseDups (outKey key)]
    exact List.filterMap_append
  · intro day
    obtain ⟨hdirs, hlookup⟩ :=
      appends_frame resolve (outKey key) run.clock 0 records.eraseDups storage
    have hflushed : ∀ k, streamDir resolve k = streamDir resolve key →
        (StorageManager.Flushed (dedup resolve fingerprint storage key run).1 k) := by
      intro k hk w hw
      rw [hdedup, hlookup k (by rintro rfl; exact hdir hk), h.eq_run] at hw
      exact flushed_flushAll resolve _ k w hw
    rw [dedupAndFlush, bytes_flushAll_of_flushed resolve hflushed, hdedup, hdirs _ hdir]

theorem BetweenRuns.bytes (h : BetweenRuns resolve key storage₀ storage calls) (day : ℤ) :
    (storage.dirs (streamDir resolve (outKey key))).bytes day =
      encodeRecords (bucket (appended (outKey key) calls) day) := by
  rw [h.eq_run]
  exact bytes_flushAll_run resolve h.own_dir day

/-- The files of the deduped stream after a run. -/
theorem bytes_dedupAndFlush (hdir : streamDir resolve (outKey key) ≠ streamDir resolve key)
    (hcf : CollisionFree fingerprint (allRecords (storage₀.dirs (streamDir resolve key))))
    (h : BetweenRuns resolve key storage₀ storage calls) (run : DedupRun) (day : ℤ) :
    ((dedupAndFlush resolve fingerprint key storage run).dirs
        (streamDir resolve (outKey key))).bytes day =
      encodeRecords (bucket (appended (outKey key) calls ++
        stamped run.clock 0 (scanned resolve storage key run).eraseDups) day) := by
  obtain ⟨-, -, hrun, hown, happended, -⟩ := dedupAndFlush_spec hdir hcf h run
  rw [hrun, bytes_flushAll_run resolve hown, happended]

theorem nodup_dedupAndFlush_iff (hdir : streamDir resolve (outKey key) ≠ streamDir resolve key)
    (hcf : CollisionFree fingerprint (allRecords (storage₀.dirs (streamDir resolve key))))
    (h : BetweenRuns resolve key storage₀ storage calls) (run : DedupRun) :
    (allRecords ((dedupAndFlush resolve fingerprint key storage run).dirs
        (streamDir resolve (outKey key)))).Nodup ↔
      ∀ r ∈ scanned resolve storage key run,
        r ∉ allRecords (storage.dirs (streamDir resolve (outKey key))) := by
  rw [(allRecords_perm (bytes_dedupAndFlush hdir hcf h run)).nodup_iff, List.map_append,
    map_snd_stamped, List.nodup_append]
  simp only [(allRecords_perm h.bytes).mem_iff]
  constructor
  · rintro ⟨-, -, hdisj⟩ r hr hmem
    exact hdisj r hmem r (List.mem_eraseDups.mpr hr) rfl
  · intro hdisj
    refine ⟨h.nodup, nodup_eraseDups _, ?_⟩
    rintro r hmem _ hr rfl
    exact hdisj r (List.mem_eraseDups.mp hr) hmem

/-- Where the records a run kept are new, it reads them back exactly when the range was
    empty before and the clock files them on its days, in order. -/
theorem reads_back_iff (hdir : streamDir resolve (outKey key) ≠ streamDir resolve key)
    (hcf : CollisionFree fingerprint (allRecords (storage₀.dirs (streamDir resolve key))))
    (h : BetweenRuns resolve key storage₀ storage calls) (run : DedupRun)
    (hnodup : (allRecords ((dedupAndFlush resolve fingerprint key storage run).dirs
      (streamDir resolve (outKey key)))).Nodup) :
    let records := scanned resolve storage key run
    clampedRecords ((dedupAndFlush resolve fingerprint key storage run).dirs
        (streamDir resolve (outKey key))) run.fromMs run.toMs = records.eraseDups ↔
      clampedRecords (storage.dirs (streamDir resolve (outKey key))) run.fromMs run.toMs = [] ∧
      (∀ i < records.eraseDups.length, dayOf (max run.fromMs 0) ≤ (run.clock i).day ∧
        (run.clock i).day ≤ dayOf (max 0 (min run.toMs maxSafeMs))) ∧
      ∀ j < records.eraseDups.length, ∀ i < j, (run.clock i).day ≤ (run.clock j).day := by
  intro records
  have hbytes := bytes_dedupAndFlush hdir hcf h run
  rw [(allRecords_perm hbytes).nodup_iff] at hnodup
  by_cases hempty : max 0 (min run.toMs maxSafeMs) < max run.fromMs 0
  · have hnone : ∀ files, clampedRecords files run.fromMs run.toMs = [] :=
      fun files => if_pos hempty
    have hrecords : records = [] := hnone _
    simp [hnone, hrecords]
  · have hread : ∀ files, clampedRecords files run.fromMs run.toMs =
        rangeRecords files (max run.fromMs 0) (max 0 (min run.toMs maxSafeMs)) :=
      fun files => if_neg hempty
    have hrange : ∀ w ∈ stamped run.clock 0 records.eraseDups,
        w.2.inRange (max run.fromMs 0) (max 0 (min run.toMs maxSafeMs)) = true := by
      intro w hw
      have hmem : w.2 ∈ records := by
        rw [← List.mem_eraseDups, ← map_snd_stamped run.clock 0 records.eraseDups]
        exact List.mem_map_of_mem hw
      have hscan : records = _ := hread (storage.dirs (streamDir resolve key))
      rw [hscan] at hmem
      exact inRange_of_mem_rangeRecords hmem
    have happend := rangeRecords_append_iff h.bytes hbytes hrange hnodup
    rw [map_snd_stamped, pairwise_stamped, forall_mem_stamped run.clock records.eraseDups
      (p := fun day => dayOf (max run.fromMs 0) ≤ day ∧
        day ≤ dayOf (max 0 (min run.toMs maxSafeMs)))] at happend
    rw [hread, hread]
    exact happend

/-- A run keeps its promises exactly when what it keeps is new to the deduped stream and is
    filed where a read over its range finds it. -/
theorem deduplicated_iff (hdir : streamDir resolve (outKey key) ≠ streamDir resolve key)
    (hcf : CollisionFree fingerprint (allRecords (storage₀.dirs (streamDir resolve key))))
    (h : BetweenRuns resolve key storage₀ storage calls) (run : DedupRun) :
    Deduplicated resolve fingerprint key storage run ↔ FilesInRange resolve key storage run := by
  obtain ⟨hcounts, hle, -, -, -, hbytes⟩ := dedupAndFlush_spec hdir hcf h run
  have hnew := nodup_dedupAndFlush_iff hdir hcf h run
  constructor
  · intro hd
    obtain ⟨records, kept, removed, hrecords, -, -, hback⟩ := hd.reads_back
    rw [readRange_eq_ok] at hrecords hback
    cases hrecords
    refine ⟨hnew.mp hd.no_duplicates, ?_⟩
    exact (reads_back_iff hdir hcf h run hd.no_duplicates).mp (Except.ok.inj hback)
  · rintro ⟨hfresh, hfiled⟩
    have hnodup := hnew.mpr hfresh
    refine ⟨hnodup, ?_, hbytes, ?_⟩
    · refine ⟨scanned resolve storage key run, _, _, readRange_eq_ok resolve storage key _ _,
        hcounts, by omega, ?_⟩
      rw [readRange_eq_ok, (reads_back_iff hdir hcf h run hnodup).mpr hfiled]
    · intro fromMs toMs
      rw [readRange_eq_ok, readRange_eq_ok, clampedRecords_congr hbytes]

/-- After a run that found nothing it had kept before, the storage is as between runs. -/
theorem BetweenRuns.next (hdir : streamDir resolve (outKey key) ≠ streamDir resolve key)
    (hcf : CollisionFree fingerprint (allRecords (storage₀.dirs (streamDir resolve key))))
    (h : BetweenRuns resolve key storage₀ storage calls) {run : DedupRun}
    (hd : Deduplicated resolve fingerprint key storage run) :
    ∃ calls', BetweenRuns resolve key storage₀ (dedupAndFlush resolve fingerprint key storage run)
      calls' := by
  obtain ⟨-, -, hrun, hown, happended, hbytes⟩ := dedupAndFlush_spec hdir hcf h run
  refine ⟨_, hrun, hown, ?_, fun day => (hbytes day).trans (h.bytes_eq day)⟩
  have hnodup := hd.no_duplicates
  rwa [(allRecords_perm (bytes_dedupAndFlush hdir hcf h run)).nodup_iff, ← happended] at hnodup

end Step

/-- Two records of one day, the first of them stored twice, and one of the next day. -/
def sampleCalls (key : StreamKey) : List Call :=
  [.append key 19675 19675 ⟨1700000000000, [1], by decide⟩,
   .append key 19675 19675 ⟨1700000000000, [1], by decide⟩,
   .append key 19675 19675 ⟨1700000001000, [2], by decide⟩,
   .append key 19675 19676 ⟨1700006400000, [3], by decide⟩]

end Digdigdig3.Cure
