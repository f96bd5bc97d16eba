import Digdigdig3.Storage.Manager

/-!
# `WasmStreamWriter`: day buckets in the browser

`WasmStreamWriter` (`crates/digdigdig3-station/src/storage/manager_wasm.rs`) buffers every
record in the bucket of its own day, and `flush` drains the buckets, in no particular order,
into the day files of the Origin Private File System (OPFS). A write that fails changes
nothing; one that exceeds the quota is skipped with a warning.

* `error_iff`: when `flush` reports an error.
* `not_kept_of_error`: it has then dropped the bucket whose write failed.
* `keptOnError_iff`: the runs in which a flush that reports an error keeps all records.
-/

namespace Digdigdig3.Storage

/-- What becomes of one `opfs_append_quota_guard` (`opfs_helpers.rs` lines 150–177): `skipped`
    is a `QuotaExceededError`, which it reports as success. -/
inductive Outcome
  | written
  | skipped
  | failed
  deriving DecidableEq

/-- `record_day` (lines 328–333), as a day number. -/
def recordDay (tsMs : ℤ) : ℤ := (msToDate (max 0 (min tsMs maxSafeMs))).getD 0

/-- The order in which `HashMap::drain` visits the buckets. -/
structure DrainOrder where
  order : List (ℤ × Bytes) → List (ℤ × Bytes)
  perm : ∀ buckets, (order buckets).Perm buckets

/-- The bytes pending in each bucket (`day_bufs`, line 82), and the day files that are there. -/
structure WasmStreamWriter where
  dayBufs : StreamDir
  files : StreamDir

namespace WasmStreamWriter

/-- `push` (lines 92–98). -/
def push (w : WasmStreamWriter) (r : EventRecord) : WasmStreamWriter :=
  { w with dayBufs := w.dayBufs.append (recordDay r.tsMs.toInt) r.encode }

/-- The loop of `flush` (lines 102–108): the files, and whether it got through. -/
def flushLoop (outcome : ℤ → Outcome) : List (ℤ × Bytes) → StreamDir → StreamDir × Bool
  | [], files => (files, true)
  | (day, bytes) :: rest, files =>
    if bytes.isEmpty then flushLoop outcome rest files
    else
      match outcome day with
      | .written => flushLoop outcome rest (files.append day bytes)
      | .skipped => flushLoop outcome rest files
      | .failed => (files, false)

/-- `flush` (lines 101–110), with `false` for an error. All buckets are drained, those behind
    the error too. -/
def flush (w : WasmStreamWriter) (drain : DrainOrder) (outcome : ℤ → Outcome) :
    WasmStreamWriter × Bool :=
  let (files, ok) := flushLoop outcome (drain.order w.dayBufs.toList) w.files
  ({ dayBufs := ∅, files := files }, ok)

/-! ## Runs -/

/-- A call on the writer; a flush with the order of its buckets and the outcome of the write
    to each day. -/
inductive Call
  | push (r : EventRecord)
  | flush (drain : DrainOrder) (outcome : ℤ → Outcome)

def call (w : WasmStreamWriter) : Call → WasmStreamWriter
  | .push r => w.push r
  | .flush drain outcome => (w.flush drain outcome).1

/-- The writer that `open_writer` returns (lines 262–272), after the calls. -/
def run (files : StreamDir) (calls : List Call) : WasmStreamWriter :=
  calls.foldl call { dayBufs := ∅, files := files }

/-- The records pushed for a day, in order. -/
def pushed (day : ℤ) (calls : List Call) : List EventRecord :=
  calls.filterMap fun
    | .push r => if recordDay r.tsMs.toInt = day then some r else none
    | .flush _ _ => none

/-- The file of a day and the bytes still buffered for it. -/
def content (w : WasmStreamWriter) (day : ℤ) : Bytes := w.files.bytes day ++ w.dayBufs.bytes day

/-- Every record pushed so far is once in a day file or still buffered, and nothing else is. -/
def Kept (files : StreamDir) (calls : List Call) : Prop :=
  ∀ day, ∃ rs, rs.Perm (pushed day calls) ∧
    (run files calls).content day = files.bytes day ++ encodeRecords rs

/-- After every flush of the run that reports an error, every record is kept. -/
def KeptOnError (files : StreamDir) (calls : List Call) : Prop :=
  ∀ pre drain outcome, pre ++ [.flush drain outcome] <+: calls →
    ((run files pre).flush drain outcome).2 = false → Kept files (pre ++ [.flush drain outcome])

/-- No flush of the run meets a bucket whose write fails. -/
def NoFailedWrite (files : StreamDir) (calls : List Call) : Prop :=
  ∀ pre drain outcome, pre ++ [.flush drain outcome] <+: calls →
    ∀ day, (run files pre).dayBufs.bytes day ≠ [] → outcome day ≠ .failed

/-! ## The loop -/

/-- `flush` reports an error exactly when it comes to a write that fails. -/
theorem flushLoop_eq_false_iff (outcome : ℤ → Outcome) (buckets : List (ℤ × Bytes))
    (files : StreamDir) :
    (flushLoop outcome buckets files).2 = false ↔
      ∃ b ∈ buckets, b.2 ≠ [] ∧ outcome b.1 = .failed := by
  induction buckets generalizing files with
  | nil => simp [flushLoop]
  | cons b rest ih =>
    obtain ⟨day, bytes⟩ := b
    rw [flushLoop]
    by_cases hempty : bytes = []
    · simp [hempty, ih]
    · rw [if_neg (by simpa using hempty)]
      cases houtcome : outcome day with
      | written => simp [ih, houtcome]
      | skipped => simp [ih, houtcome]
      | failed => simp [hempty, houtcome]

/-- A day without a bucket keeps its file. -/
theorem bytes_flushLoop_of_not_mem {outcome : ℤ → Outcome} {buckets : List (ℤ × Bytes)}
    {day : ℤ} (h : day ∉ buckets.map Prod.fst) (files : StreamDir) :
    (flushLoop outcome buckets files).1.bytes day = files.bytes day := by
  induction buckets generalizing files with
  | nil => rfl
  | cons b rest ih =>
    obtain ⟨day', bytes⟩ := b
    rw [List.map_cons, List.mem_cons, not_or] at h
    rw [flushLoop]
    split_ifs
    · exact ih h.2 files
    · cases outcome day' with
      | written =>
        rw [ih h.2, RotatingWriter.bytes_append, if_neg (Ne.symm h.1), List.append_nil]
      | skipped => exact ih h.2 files
      | failed => rfl

/-- A day file grows by its bucket at most, and by nothing where the write of the bucket
    fails. -/
theorem bytes_flushLoop {outcome : ℤ → Outcome} {buckets : List (ℤ × Bytes)}
    (hnodup : (buckets.map Prod.fst).Nodup) {b : ℤ × Bytes} (hb : b ∈ buckets)
    (files : StreamDir) :
    (flushLoop outcome buckets files).1.bytes b.1 = files.bytes b.1 ∨
      outcome b.1 = .written ∧
        (flushLoop outcome buckets files).1.bytes b.1 = files.bytes b.1 ++ b.2 := by
  induction buckets generalizing files with
  | nil => cases hb
  | cons c rest ih =>
    obtain ⟨day, bytes⟩ := c
    rw [List.map_cons, List.nodup_cons] at hnodup
    rw [flushLoop]
    rcases List.mem_cons.mp hb with rfl | hmem
    · split_ifs
      · exact .inl (bytes_flushLoop_of_not_mem hnodup.1 files)
      · cases houtcome : outcome day with
        | written =>
          refine .inr ⟨rfl, ?_⟩
          rw [bytes_flushLoop_of_not_mem hnodup.1, RotatingWriter.bytes_append, if_pos rfl]
        | skipped => exact .inl (bytes_flushLoop_of_not_mem hnodup.1 files)
        | failed => exact .inl rfl
    · have hfst : b.1 ∈ rest.map Prod.fst := List.mem_map_of_mem hmem
      have hne : day ≠ b.1 := by
        rintro rfl
        exact hnodup.1 hfst
      split_ifs
      · exact ih hnodup.2 hmem files
      · cases houtcome : outcome day with
        | written =>
          have := ih hnodup.2 hmem (files.append day bytes)
          rwa [RotatingWriter.bytes_append, if_neg hne, List.append_nil] at this
        | skipped => exact ih hnodup.2 hmem files
        | failed => exact .inl rfl

/-! ## One flush -/

theorem bytes_empty (day : ℤ) : StreamDir.bytes ∅ day = [] := by
  rw [StreamDir.bytes, Std.ExtTreeMap.getElem?_empty]
  rfl

theorem mem_order_iff (drain : DrainOrder) (w : WasmStreamWriter) (b : ℤ × Bytes) :
    b ∈ drain.order w.dayBufs.toList ↔ w.dayBufs[b.1]? = some b.2 := by
  rw [(drain.perm _).mem_iff]
  exact Std.ExtTreeMap.mem_toList_iff_getElem?_eq_some

theorem nodup_order (drain : DrainOrder) (w : WasmStreamWriter) :
    ((drain.order w.dayBufs.toList).map Prod.fst).Nodup := by
  rw [((drain.perm _).map Prod.fst).nodup_iff, Std.ExtTreeMap.map_fst_toList_eq_keys]
  exact Std.ExtTreeMap.nodup_keys

theorem exists_bucket_iff (w : WasmStreamWriter) (day : ℤ) :
    w.dayBufs.bytes day ≠ [] ↔ ∃ bytes, w.dayBufs[day]? = some bytes ∧ bytes ≠ [] := by
  unfold StreamDir.bytes
  cases w.dayBufs[day]? <;> simp

/-- `flush` reports an error exactly when the write of a bucket fails. -/
theorem error_iff (w : WasmStreamWriter) (drain : DrainOrder) (outcome : ℤ → Outcome) :
    (w.flush drain outcome).2 = false ↔
      ∃ day, w.dayBufs.bytes day ≠ [] ∧ outcome day = .failed := by
  show (flushLoop outcome (drain.order w.dayBufs.toList) w.files).2 = false ↔ _
  rw [flushLoop_eq_false_iff]
  simp only [exists_bucket_iff, mem_order_iff, Prod.exists]
  constructor
  · rintro ⟨day, bytes, hb, hne, hfailed⟩
    exact ⟨day, ⟨bytes, hb, hne⟩, hfailed⟩
  · rintro ⟨day, ⟨bytes, hb, hne⟩, hfailed⟩
    exact ⟨day, bytes, hb, hne, hfailed⟩

/-- A flush leaves of a day what is in its file or buffered, or less; and the file alone
    where the write of the bucket does not succeed. -/
theorem content_flush (w : WasmStreamWriter) (drain : DrainOrder) (outcome : ℤ → Outcome)
    (day : ℤ) :
    ((w.flush drain outcome).1.content day = w.files.bytes day ∨
      (w.flush drain outcome).1.content day = w.content day) ∧
    (outcome day ≠ .written → (w.flush drain outcome).1.content day = w.files.bytes day) := by
  have hcontent : (w.flush drain outcome).1.content day =
      (flushLoop outcome (drain.order w.dayBufs.toList) w.files).1.bytes day := by
    show _ ++ StreamDir.bytes ∅ day = _
    rw [bytes_empty]
    exact List.append_nil _
  rw [hcontent]
  cases hbucket : w.dayBufs[day]? with
  | none =>
    have hmem : day ∉ (drain.order w.dayBufs.toList).map Prod.fst := by
      rintro hmem
      obtain ⟨b, hb, rfl⟩ := List.mem_map.mp hmem
      rw [mem_order_iff, hbucket] at hb
      cases hb
    have heq := @bytes_flushLoop_of_not_mem outcome _ _ hmem w.files
    exact ⟨.inl heq, fun _ => heq⟩
  | some bytes =>
    have hbytes : w.dayBufs.bytes day = bytes := by rw [StreamDir.bytes, hbucket]; rfl
    have hmem := (mem_order_iff drain w (day, bytes)).mpr hbucket
    rcases @bytes_flushLoop outcome _ (nodup_order drain w) _ hmem w.files with
      heq | ⟨hwritten, heq⟩
    · exact ⟨.inl heq, fun _ => heq⟩
    · refine ⟨.inr ?_, fun hne => absurd hwritten hne⟩
      rw [heq, content, hbytes]

/-! ## The theorem -/

theorem pushed_concat_push (day : ℤ) (calls : List Call) (r : EventRecord) :
    pushed day (calls ++ [.push r]) =
      pushed day calls ++ if recordDay r.tsMs.toInt = day then [r] else [] := by
  rw [pushed, List.filterMap_append]
  by_cases h : recordDay r.tsMs.toInt = day <;> simp [pushed, h]

theorem pushed_concat_flush (day : ℤ) (calls : List Call) (drain : DrainOrder)
    (outcome : ℤ → Outcome) : pushed day (calls ++ [.flush drain outcome]) = pushed day calls := by
  rw [pushed, List.filterMap_append]
  exact List.append_nil _

theorem length_encodeRecords_of_perm {rs rs' : List EventRecord} (h : rs.Perm rs') :
    (encodeRecords rs).length = (encodeRecords rs').length := by
  induction h with
  | nil => rfl
  | cons r _ ih => simp [encodeRecords, ih]
  | swap r r' rs =>
    simp only [encodeRecords, Framing.encodeAll_cons, List.length_append]
    omega
  | trans _ _ ih ih' => exact ih.trans ih'

theorem content_push (w : WasmStreamWriter) (r : EventRecord) (day : ℤ) :
    (w.push r).content day =
      w.content day ++ if recordDay r.tsMs.toInt = day then r.encode else [] := by
  show _ ++ StreamDir.bytes (w.dayBufs.append _ _) day = _
  rw [RotatingWriter.bytes_append, content, List.append_assoc]
  rfl

/-- **Run lemma.** A day never holds more bytes than it was given. -/
theorem length_content_le (files : StreamDir) (calls : List Call) (day : ℤ) :
    ((run files calls).content day).length ≤
      (files.bytes day).length + (encodeRecords (pushed day calls)).length := by
  induction calls using List.reverseRecOn with
  | nil =>
    show (files.bytes day ++ StreamDir.bytes ∅ day).length ≤ _
    rw [bytes_empty, List.append_nil]
    exact Nat.le_add_right _ _
  | append_singleton calls c ih =>
    rw [run, List.foldl_concat, ← run]
    cases c with
    | push r =>
      show ((push _ r).content day).length ≤ _
      rw [content_push, pushed_concat_push, encodeRecords, Framing.encodeAll_append,
        List.length_append, List.length_append, ← Nat.add_assoc]
      refine Nat.add_le_add ih (le_of_eq ?_)
      split_ifs <;> simp [recordFraming]
    | flush drain outcome =>
      rw [pushed_concat_flush]
      show ((flush _ drain outcome).1.content day).length ≤ _
      rcases (content_flush (run files calls) drain outcome day).1 with h | h
      · refine le_trans ?_ ih
        rw [h, content, List.length_append]
        exact Nat.le_add_right _ _
      · exact (congrArg List.length h).le.trans ih

/-- A flush that reports an error has dropped the bucket whose write failed. -/
theorem not_kept_of_error {files : StreamDir} {pre : List Call} {drain : DrainOrder}
    {outcome : ℤ → Outcome} {day : ℤ} (hbucket : (run files pre).dayBufs.bytes day ≠ [])
    (hfailed : outcome day = .failed) : ¬ Kept files (pre ++ [.flush drain outcome]) := by
  intro hkept
  obtain ⟨rs, hperm, hcontent⟩ := hkept day
  have hlost : ((run files pre).flush drain outcome).1.content day =
      (run files pre).files.bytes day :=
    (content_flush (run files pre) drain outcome day).2 (by rw [hfailed]; decide)
  have hle := length_content_le files pre day
  rw [run, List.foldl_concat, ← run] at hcontent
  have hlen := congrArg List.length (hlost.symm.trans hcontent)
  rw [pushed_concat_flush] at hperm
  rw [List.length_append, length_encodeRecords_of_perm hperm] at hlen
  rw [content, List.length_append] at hle
  have hpos := List.length_pos_iff.mpr hbucket
  omega

/-- Records survive every flush that reports an error exactly when no flush does: the error
    itself loses the bucket. -/
theorem keptOnError_iff (files : StreamDir) (calls : List Call) :
    KeptOnError files calls ↔ NoFailedWrite files calls := by
  constructor
  · intro hkept pre drain outcome hpre day hbucket hfailed
    have herror := (error_iff (run files pre) drain outcome).mpr ⟨day, hbucket, hfailed⟩
    exact not_kept_of_error hbucket hfailed (hkept pre drain outcome hpre herror)
  · intro hwrites pre drain outcome hpre herror
    obtain ⟨day, hbucket, hfailed⟩ := (error_iff (run files pre) drain outcome).mp herror
    exact absurd hfailed (hwrites pre drain outcome hpre day hbucket)

end WasmStreamWriter

end Digdigdig3.Storage
