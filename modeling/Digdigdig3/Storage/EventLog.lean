import Digdigdig3.Storage.Record

/-!
# `EventLog`: one append-only file per symbol and stream kind

`EventLog` (`crates/digdigdig3-station/src/storage/event_log.rs`) opens the file anew
for every record and writes the record in one piece. Which file a symbol and a stream
kind name is up to the file system: `resolve` stands for
`root.join(symbol).join("{stream_kind}.bin")`.

Results:
* `readAll_appendAll`, `collect_iter_eq_readAll`: a log without crashes reads back what
  was appended, by either reader.
* `readAll_after_crash_iff`: when a log that lost its tail reads back what is appended
  to it afterwards.
-/

namespace Digdigdig3.Storage

/-- `EventLog` (lines 17–19): the files under `root`, `none` where there is no file. -/
structure EventLog (Path : Type) where
  files : Path → Option Bytes

namespace EventLog

variable {Path : Type} [DecidableEq Path] (resolve : String → String → Path)

/-- `EventLog::new` on a fresh directory (lines 31–35). -/
def new : EventLog Path := { files := fun _ => none }

/-- `EventLog::append` (lines 40–61): create the file if needed, write one record. -/
def append (log : EventLog Path) (symbol streamKind : String) (record : EventRecord) :
    EventLog Path :=
  let path := resolve symbol streamKind
  { files := Function.update log.files path (some ((log.files path).getD [] ++ record.encode)) }

/-- `EventLog::read_all` (lines 67–97). -/
def readAll (log : EventLog Path) (symbol streamKind : String) : List EventRecord :=
  match log.files (resolve symbol streamKind) with
  | none => []
  | some bs => readRecords bs

/-- `EventLog::read_range` (lines 100–112). -/
def readRange (log : EventLog Path) (symbol streamKind : String) (fromMs toMs : ℤ) :
    List EventRecord :=
  (log.readAll resolve symbol streamKind).filter (·.inRange fromMs toMs)

/-- `EventLog::iter` (lines 118–130). -/
def iter (log : EventLog Path) (symbol streamKind : String) : EventLogIter :=
  { reader := log.files (resolve symbol streamKind) }

/-- One `append` per record. -/
def appendAll (log : EventLog Path) (symbol streamKind : String) (rs : List EventRecord) :
    EventLog Path :=
  rs.foldl (fun log r => log.append resolve symbol streamKind r) log

/-- A crash leaves the first `n` bytes of the file. -/
def crash (log : EventLog Path) (symbol streamKind : String) (n : ℕ) : EventLog Path :=
  let path := resolve symbol streamKind
  { files := Function.update log.files path ((log.files path).map (List.take n)) }

/-- The bytes of a file, none where there is no file. -/
def bytes (log : EventLog Path) (symbol streamKind : String) : Bytes :=
  (log.files (resolve symbol streamKind)).getD []

/-- All items of the iterator. Each takes a byte of the file at least, so the length of
    the file bounds the calls. -/
def collect (log : EventLog Path) (symbol streamKind : String) : List EventRecord :=
  EventLogIter.collect (log.bytes resolve symbol streamKind).length
    (log.iter resolve symbol streamKind)

variable (log : EventLog Path) (symbol streamKind : String)

theorem bytes_append (r : EventRecord) :
    (log.append resolve symbol streamKind r).bytes resolve symbol streamKind =
      log.bytes resolve symbol streamKind ++ r.encode := by
  simp [append, bytes]

theorem bytes_appendAll (rs : List EventRecord) :
    (log.appendAll resolve symbol streamKind rs).bytes resolve symbol streamKind =
      log.bytes resolve symbol streamKind ++ encodeRecords rs := by
  unfold appendAll
  induction rs generalizing log with
  | nil => simp [encodeRecords]
  | cons r rs ih =>
    rw [List.foldl_cons, ih, bytes_append, List.append_assoc]
    rfl

theorem bytes_crash (n : ℕ) :
    (log.crash resolve symbol streamKind n).bytes resolve symbol streamKind =
      (log.bytes resolve symbol streamKind).take n := by
  simp only [crash, bytes, Function.update_self]
  cases log.files (resolve symbol streamKind) with
  | none => simp
  | some bs => rfl

omit [DecidableEq Path] in
/-- A missing file reads as an empty one. -/
theorem readAll_eq : log.readAll resolve symbol streamKind =
    readRecords (log.bytes resolve symbol streamKind) := by
  unfold readAll bytes
  cases log.files (resolve symbol streamKind) with
  | none => rfl
  | some bs => rfl

omit [DecidableEq Path] in
/-- The iterator and `read_all` see the same records. -/
theorem collect_eq_readAll : log.collect resolve symbol streamKind =
    log.readAll resolve symbol streamKind := by
  unfold collect iter readAll bytes
  cases log.files (resolve symbol streamKind) with
  | none => rfl
  | some bs => exact collect_iter bs.length bs

omit [DecidableEq Path] in
/-- `read_range` over all timestamps is `read_all`. -/
theorem readRange_full : log.readRange resolve symbol streamKind
    Int64.minValue.toInt Int64.maxValue.toInt = log.readAll resolve symbol streamKind := by
  rw [readRange, readAll_eq, ← readFileRange_eq_filter, readFileRange_full]

/-- A log that never lost a byte reads back what was appended. -/
theorem readAll_appendAll (rs : List EventRecord) :
    (new.appendAll resolve symbol streamKind rs).readAll resolve symbol streamKind = rs := by
  rw [readAll_eq, bytes_appendAll]
  exact recordFraming.readAll_encodeAll rs

/-- Appending behind a cut through the log. -/
theorem readAll_after_crash_iff (rs rs' : List EventRecord) (n : ℕ) :
    (((new.appendAll resolve symbol streamKind rs).crash resolve symbol streamKind n).appendAll
        resolve symbol streamKind rs').readAll resolve symbol streamKind =
      recordFraming.whole n rs ++ rs' ↔
    recordFraming.torn n rs = [] ∨ rs' = [] ∨
      recordFraming.Resyncs (recordFraming.torn n rs) (encodeRecords rs') := by
  rw [readAll_eq, bytes_appendAll, bytes_crash, bytes_appendAll]
  exact recordFraming.readAll_take_append_iff n rs rs'

end EventLog

end Digdigdig3.Storage
