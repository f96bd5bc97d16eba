import Digdigdig3.Storage.EventLog

/-!
# `RotatingWriter`: one file per UTC day

`RotatingWriter` (`crates/digdigdig3-station/src/storage/rotation.rs`) appends to the
file of the wall-clock day through a `BufWriter` and moves to the next file when the day
changes. Days are numbered from the epoch. The buffer may reach the file at any time
and in any piece (`spill`), which covers every buffer size.

Results:
* `content_append`, `content_spill`, `content_flush`: the file of a day and the bytes
  buffered for it grow by the records appended on that day, and by nothing else.
* `log_reads_back_after_crash_iff`: for `EventLog` and `RotatingWriter`, the crashes
  after which the log still reads back what is appended to it.
-/

namespace Digdigdig3.Storage

/-- The `{YYYY-MM-DD}.bin` files of one stream directory, by day. -/
abbrev StreamDir := Std.ExtTreeMap ℤ Bytes

/-- The bytes of a day file, none where there is no file. -/
def StreamDir.bytes (dir : StreamDir) (day : ℤ) : Bytes := dir[day]?.getD []

/-- Open a day file with `create(true).append(true)` and write `bs` to it. -/
def StreamDir.append (dir : StreamDir) (day : ℤ) (bs : Bytes) : StreamDir :=
  dir.insert day (dir.bytes day ++ bs)

/-- `RotatingWriter` (lines 52–56); `dir` and the open file are the stream directory and
    its file of `currentDay`, `buf` is what the `BufWriter` holds. -/
structure RotatingWriter where
  currentDay : ℤ
  buf : Bytes
  deriving DecidableEq

namespace RotatingWriter

/-- `RotatingWriter::new` (lines 60–74). -/
def new (dir : StreamDir) (today : ℤ) : RotatingWriter × StreamDir :=
  ({ currentDay := today, buf := [] }, dir.append today [])

/-- The `BufWriter` hands its first `n` bytes to the file. -/
def spill (w : RotatingWriter) (dir : StreamDir) (n : ℕ) : RotatingWriter × StreamDir :=
  ({ w with buf := w.buf.drop n }, dir.append w.currentDay (w.buf.take n))

/-- `flush` (lines 89–91). -/
def flush (w : RotatingWriter) (dir : StreamDir) : RotatingWriter × StreamDir :=
  ({ w with buf := [] }, dir.append w.currentDay w.buf)

/-- `rotate` (lines 93–103). -/
def rotate (w : RotatingWriter) (dir : StreamDir) (newDay : ℤ) : RotatingWriter × StreamDir :=
  let (_, dir) := w.flush dir
  ({ currentDay := newDay, buf := [] }, dir.append newDay [])

/-- `append` (lines 77–86), called on the day `today`. -/
def append (w : RotatingWriter) (dir : StreamDir) (today : ℤ) (r : EventRecord) :
    RotatingWriter × StreamDir :=
  let (w, dir) := if today ≠ w.currentDay then w.rotate dir today else (w, dir)
  ({ w with buf := w.buf ++ r.encode }, dir)

/-- What the writer still has to write to the file of `day`. -/
def pending (w : RotatingWriter) (day : ℤ) : Bytes := if w.currentDay = day then w.buf else []

/-- The file of `day` as it will be once the writer is flushed. -/
def content (w : RotatingWriter) (dir : StreamDir) (day : ℤ) : Bytes :=
  dir.bytes day ++ w.pending day

theorem bytes_append (dir : StreamDir) (day day' : ℤ) (bs : Bytes) :
    (dir.append day bs).bytes day' = dir.bytes day' ++ if day = day' then bs else [] := by
  unfold StreamDir.append StreamDir.bytes
  rw [Std.ExtTreeMap.getElem?_insert]
  by_cases h : day = day'
  · subst h
    simp
  · simp [h]

theorem bytes_append_nil (dir : StreamDir) (day day' : ℤ) :
    (dir.append day []).bytes day' = dir.bytes day' := by
  rw [bytes_append, ite_self, List.append_nil]

variable (w : RotatingWriter) (dir : StreamDir)

theorem pending_self {day : ℤ} (h : w.currentDay = day) : w.pending day = w.buf := if_pos h

theorem pending_of_ne {day : ℤ} (h : w.currentDay ≠ day) : w.pending day = [] := if_neg h

@[simp] theorem pending_of_empty (today day : ℤ) :
    pending { currentDay := today, buf := [] } day = [] := ite_self _

theorem content_new (today day : ℤ) :
    (new dir today).1.content (new dir today).2 day = dir.bytes day := by
  simp only [new, content, pending_of_empty, bytes_append_nil, List.append_nil]

theorem content_spill (n : ℕ) (day : ℤ) :
    (w.spill dir n).1.content (w.spill dir n).2 day = w.content dir day := by
  simp only [spill, content, bytes_append]
  by_cases h : w.currentDay = day
  · rw [if_pos h, pending_self w h, pending_self { w with buf := w.buf.drop n } h,
      List.append_assoc, List.take_append_drop]
  · rw [if_neg h, pending_of_ne w h, pending_of_ne { w with buf := w.buf.drop n } h,
      List.append_nil]

theorem bytes_flush (day : ℤ) : (w.flush dir).2.bytes day = w.content dir day := by
  simp only [flush, content, pending, bytes_append]

theorem content_flush (day : ℤ) :
    (w.flush dir).1.content (w.flush dir).2 day = w.content dir day := by
  rw [content, bytes_flush]
  simp only [flush, pending_of_empty, List.append_nil]

theorem content_rotate (newDay day : ℤ) :
    (w.rotate dir newDay).1.content (w.rotate dir newDay).2 day = w.content dir day := by
  simp only [rotate, content, pending_of_empty, bytes_append_nil, List.append_nil]
  exact bytes_flush w dir day

/-- A record goes to the file of the writer's day. -/
theorem content_push (day : ℤ) (r : EventRecord) :
    content { w with buf := w.buf ++ r.encode } dir day =
      w.content dir day ++ if w.currentDay = day then r.encode else [] := by
  unfold content
  by_cases h : w.currentDay = day
  · rw [if_pos h, pending_self w h, pending_self { w with buf := w.buf ++ r.encode } h,
      List.append_assoc]
  · rw [if_neg h, pending_of_ne w h, pending_of_ne { w with buf := w.buf ++ r.encode } h,
      List.append_nil, List.append_nil]

/-- A record goes to the file of the day it is appended on. -/
theorem content_append (today day : ℤ) (r : EventRecord) :
    (w.append dir today r).1.content (w.append dir today r).2 day =
      w.content dir day ++ if today = day then r.encode else [] := by
  unfold append
  by_cases h : today = w.currentDay
  · subst h
    rw [if_neg (not_not_intro rfl)]
    exact content_push w dir day r
  · rw [if_pos h]
    refine (content_push _ _ day r).trans ?_
    rw [content_rotate]
    rfl

/-! ## Crashes -/

/-- One `append` per record, all on the same day. -/
def appendAll (w : RotatingWriter) (dir : StreamDir) (today : ℤ) (rs : List EventRecord) :
    RotatingWriter × StreamDir :=
  rs.foldl (fun s r => s.1.append s.2 today r) (w, dir)

/-- A crash loses the buffer and leaves the first `n` bytes of the open file. -/
def crash (w : RotatingWriter) (dir : StreamDir) (n : ℕ) : StreamDir :=
  dir.insert w.currentDay ((dir.bytes w.currentDay).take n)

/-- Within a day, `append` only fills the buffer. -/
theorem appendAll_of_currentDay {today : ℤ} (h : today = w.currentDay) (rs : List EventRecord) :
    w.appendAll dir today rs = ({ w with buf := w.buf ++ encodeRecords rs }, dir) := by
  subst h
  unfold appendAll
  induction rs generalizing w with
  | nil => simp [encodeRecords]
  | cons r rs ih =>
    have hstep : w.append dir w.currentDay r = ({ w with buf := w.buf ++ r.encode }, dir) := by
      unfold append
      rw [if_neg (not_not_intro rfl)]
    rw [List.foldl_cons, hstep]
    refine (ih { w with buf := w.buf ++ r.encode }).trans ?_
    simp only [List.append_assoc]
    rfl

theorem bytes_crash (n : ℕ) :
    StreamDir.bytes (w.crash dir n) w.currentDay = (dir.bytes w.currentDay).take n := by
  rw [StreamDir.bytes, crash, Std.ExtTreeMap.getElem?_insert_self]
  rfl

/-- A writer opened on `today` that has appended `rs` holds them all in its buffer. -/
theorem new_appendAll (today : ℤ) (rs : List EventRecord) :
    (new dir today).1.appendAll (new dir today).2 today rs =
      ({ currentDay := today, buf := encodeRecords rs }, dir.append today []) :=
  appendAll_of_currentDay _ _ rfl rs

/-- A run with one crash on the day `today`, on a fresh directory: append `rs`, let `k`
    bytes reach the file, crash with `n` bytes of it left, reopen, append `rs'` and
    flush. What `read_file_range` then reads over all timestamps. -/
def readAfterCrash (today : ℤ) (rs rs' : List EventRecord) (k n : ℕ) : List EventRecord :=
  let (w, dir) := new ∅ today
  let (w, dir) := w.appendAll dir today rs
  let (w, dir) := w.spill dir k
  let (w, dir) := new (w.crash dir n) today
  let (w, dir) := w.appendAll dir today rs'
  let (_, dir) := w.flush dir
  readFileRange (dir.bytes today) Int64.minValue.toInt Int64.maxValue.toInt

/-- The file that `readAfterCrash` reads: a cut through the first records, and the
    records appended behind it. -/
theorem readAfterCrash_eq (today : ℤ) (rs rs' : List EventRecord) (k n : ℕ) :
    readAfterCrash today rs rs' k n =
      readRecords ((encodeRecords rs).take (min n k) ++ encodeRecords rs') := by
  have hempty : StreamDir.bytes ∅ today = [] := rfl
  unfold readAfterCrash
  simp only [new_appendAll, readFileRange_full, bytes_flush, content, bytes_append_nil, spill]
  have hcut := bytes_crash ⟨today, (encodeRecords rs).drop k⟩
    (((∅ : StreamDir).append today []).append today ((encodeRecords rs).take k)) n
  simp only at hcut
  rw [hcut, pending_self _ rfl, bytes_append, if_pos rfl, bytes_append_nil, hempty,
    List.nil_append, List.take_take]

end RotatingWriter

/-! ## Truncated logs -/

/-- **Main theorem.** A crash that keeps `n` bytes of a log file is followed by a log that
    reads back every whole record in front of the cut and every record appended after it
    exactly when the cut is between two records, or nothing is appended, or the torn
    fragment and the new bytes happen to begin with the new bytes again. This holds for
    both readers of `EventLog`, and for `RotatingWriter` whatever part of its buffer had
    reached the file. -/
theorem log_reads_back_after_crash_iff {Path : Type} [DecidableEq Path]
    (resolve : String → String → Path) (symbol streamKind : String) (today : ℤ)
    (rs rs' : List EventRecord) (n k : ℕ) :
    let log := ((EventLog.new.appendAll resolve symbol streamKind rs).crash resolve symbol
      streamKind n).appendAll resolve symbol streamKind rs'
    ((log.readAll resolve symbol streamKind = recordFraming.whole n rs ++ rs' ∧
        log.collect resolve symbol streamKind = recordFraming.whole n rs ++ rs') ↔
      recordFraming.torn n rs = [] ∨ rs' = [] ∨
        recordFraming.Resyncs (recordFraming.torn n rs) (encodeRecords rs')) ∧
    (RotatingWriter.readAfterCrash today rs rs' k n =
        recordFraming.whole (min n k) rs ++ rs' ↔
      recordFraming.torn (min n k) rs = [] ∨ rs' = [] ∨
        recordFraming.Resyncs (recordFraming.torn (min n k) rs) (encodeRecords rs')) := by
  intro log
  constructor
  · rw [EventLog.collect_eq_readAll, and_self]
    exact EventLog.readAll_after_crash_iff resolve symbol streamKind rs rs' n
  · rw [RotatingWriter.readAfterCrash_eq]
    exact recordFraming.readAll_take_append_iff (min n k) rs rs'

/-- A record of 13 bytes cut after 5, then one more record: the reader takes the bytes of
    the second record for the rest of the first, and returns nothing. -/
theorem not_reads_back_after_torn_record :
    let first : EventRecord := ⟨1, [7], by decide⟩
    let second : EventRecord := ⟨2, [8], by decide⟩
    let log := ((EventLog.new.appendAll Prod.mk "BTCUSDT" "trade" [first]).crash Prod.mk
      "BTCUSDT" "trade" 5).appendAll Prod.mk "BTCUSDT" "trade" [second]
    recordFraming.whole 5 [first] ++ [second] = [second] ∧
      log.readAll Prod.mk "BTCUSDT" "trade" ≠ [second] ∧
      log.collect Prod.mk "BTCUSDT" "trade" ≠ [second] ∧
      RotatingWriter.readAfterCrash 19675 [first] [second] 13 5 ≠ [second] := by
  decide +kernel

end Digdigdig3.Storage
