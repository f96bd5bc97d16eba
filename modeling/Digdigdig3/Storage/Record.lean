import Digdigdig3.Lib.Framing

/-!
# The `[i64 ts_ms][u32 len][payload]` record

The record format shared by `EventLog` and `RotatingWriter`
(`crates/digdigdig3-station/src/storage/`), and the three loops that read it:
`EventLog::read_all`, `EventLogIter::next` and `read_file_range`.

* `recordFraming`: the format is a `Framing`.
* `collect_iter`, `readFileRange_eq_filter`: all three readers see the records
  that `Framing.readAll` sees.
-/

namespace Digdigdig3.Storage

/-- A record (`event_log.rs` lines 23–28, and the `(ts_ms, payload)` pair the
    readers return). Payloads are shorter than `2^32` bytes, the range of the
    `u32` length field. -/
@[ext]
structure EventRecord where
  tsMs : Int64
  payload : Bytes
  payload_lt : payload.length < 256 ^ 4
  deriving DecidableEq

/-- The bytes of one record (`event_log.rs` lines 53–57, `rotation.rs` lines 82–84). -/
def EventRecord.encode (r : EventRecord) : Bytes :=
  i64ToLe r.tsMs ++ (toLe 4 r.payload.length ++ r.payload)

/-- One round of the reading loops (`event_log.rs` lines 77–92 and 139–157,
    `rotation.rs` lines 27–46): `ts`, `len`, then `len` payload bytes; `none` when
    any of the three reads ends with `UnexpectedEof`. -/
def readRecord (bs : Bytes) : Option (EventRecord × Bytes) :=
  match readExact 8 bs with
  | none => none
  | some (ts, bs₁) =>
    match h₂ : readExact 4 bs₁ with
    | none => none
    | some (len, bs₂) =>
      match h₃ : readExact (ofLe len) bs₂ with
      | none => none
      | some (payload, rest) =>
        some (⟨i64OfLe ts, payload, by
          rw [(readExact_eq_some h₃).2, ← (readExact_eq_some h₂).2]
          exact ofLe_lt len⟩, rest)

theorem readRecord_encode_append (r : EventRecord) (rest : Bytes) :
    readRecord (r.encode ++ rest) = some (r, rest) := by
  have hlen : ofLe (toLe 4 r.payload.length) = r.payload.length := ofLe_toLe_of_lt r.payload_lt
  unfold readRecord EventRecord.encode
  rw [List.append_assoc, readExact_append (length_i64ToLe _), List.append_assoc]
  simp only
  split
  · next h => rw [readExact_append (length_toLe _ _)] at h; cases h
  · next len bs₂ h =>
    rw [readExact_append (length_toLe _ _)] at h
    cases h
    split
    · next h => rw [readExact_append hlen.symm] at h; cases h
    · next payload tail h =>
      rw [readExact_append hlen.symm] at h
      cases h
      simp

theorem encode_of_readRecord {bs rest : Bytes} {r : EventRecord}
    (h : readRecord bs = some (r, rest)) : bs = r.encode ++ rest := by
  unfold readRecord at h
  split at h
  · cases h
  · next ts bs₁ h₁ =>
    split at h
    · cases h
    · next len bs₂ h₂ =>
      split at h
      · cases h
      · next payload tail h₃ =>
        cases h
        obtain ⟨rfl, hts⟩ := readExact_eq_some h₁
        obtain ⟨rfl, hlen⟩ := readExact_eq_some h₂
        obtain ⟨rfl, hpay⟩ := readExact_eq_some h₃
        simp only [EventRecord.encode]
        rw [i64ToLe_i64OfLe hts, hpay, toLe_ofLe hlen]
        simp only [List.append_assoc]

/-- The record format of the event log and of the rotating writer. -/
def recordFraming : Framing EventRecord where
  encode := EventRecord.encode
  decode := readRecord
  encode_ne_nil r := by
    intro h
    have := congrArg List.length h
    simp [EventRecord.encode] at this
  decode_encode_append := readRecord_encode_append
  encode_of_decode := encode_of_readRecord

/-- The bytes `append` writes for the records `rs`. -/
abbrev encodeRecords (rs : List EventRecord) : Bytes := recordFraming.encodeAll rs

/-! ## The readers -/

/-- The loop of `EventLog::read_all` (`event_log.rs` lines 76–95). -/
def readRecords (bs : Bytes) : List EventRecord := recordFraming.readAll bs

/-- `EventLogIter` (`event_log.rs` lines 128–131): the open file, or `None` when
    there was none. The unread bytes stand for the `BufReader`. -/
structure EventLogIter where
  reader : Option Bytes

/-- `EventLogIter::next` (`event_log.rs` lines 136–158). -/
def EventLogIter.next (it : EventLogIter) : Option (EventRecord × EventLogIter) :=
  match it.reader with
  | none => none
  | some bs =>
    match readRecord bs with
    | none => none
    | some (r, rest) => some (r, ⟨some rest⟩)

/-- The items the iterator yields before its first `None`, `fuel` calls at most. -/
def EventLogIter.collect : ℕ → EventLogIter → List EventRecord
  | 0, _ => []
  | fuel + 1, it =>
    match it.next with
    | none => []
    | some (r, it') => r :: collect fuel it'

theorem collect_iter (fuel : ℕ) (bs : Bytes) :
    EventLogIter.collect fuel ⟨some bs⟩ = recordFraming.readFuel fuel bs := by
  induction fuel generalizing bs with
  | zero => rfl
  | succ fuel ih =>
    rw [EventLogIter.collect, EventLogIter.next, Framing.readFuel]
    simp only [recordFraming]
    cases h : readRecord bs with
    | none => rfl
    | some p => simp only; rw [ih]; rfl

/-- The filter of `read_file_range` (`rotation.rs` line 41). -/
def EventRecord.inRange (fromMs toMs : ℤ) (r : EventRecord) : Bool :=
  decide (fromMs ≤ r.tsMs.toInt ∧ r.tsMs.toInt ≤ toMs)

/-- The loop of `read_file_range` (`rotation.rs` lines 26–47), `fuel` rounds at
    most: a record outside the range is read and dropped. -/
def readFileRangeFuel (fromMs toMs : ℤ) : ℕ → Bytes → List EventRecord
  | 0, _ => []
  | fuel + 1, bs =>
    match readRecord bs with
    | none => []
    | some (r, rest) =>
      if r.inRange fromMs toMs then r :: readFileRangeFuel fromMs toMs fuel rest
      else readFileRangeFuel fromMs toMs fuel rest

/-- `read_file_range` on the bytes of one day file. -/
def readFileRange (bs : Bytes) (fromMs toMs : ℤ) : List EventRecord :=
  readFileRangeFuel fromMs toMs bs.length bs

/-- `read_file_range` is `read_all` filtered to the range. -/
theorem readFileRange_eq_filter (bs : Bytes) (fromMs toMs : ℤ) :
    readFileRange bs fromMs toMs = (readRecords bs).filter (·.inRange fromMs toMs) := by
  unfold readFileRange readRecords Framing.readAll
  generalize bs.length = fuel
  induction fuel generalizing bs with
  | zero => rfl
  | succ fuel ih =>
    rw [readFileRangeFuel, Framing.readFuel]
    simp only [recordFraming]
    cases h : readRecord bs with
    | none => rfl
    | some p =>
      simp only
      by_cases hr : p.1.inRange fromMs toMs
      · rw [if_pos hr, ih, List.filter_cons_of_pos hr]; rfl
      · rw [if_neg hr, ih, List.filter_cons_of_neg hr]; rfl

/-- The full range `[i64::MIN, i64::MAX]` drops nothing. -/
theorem readFileRange_full (bs : Bytes) :
    readFileRange bs Int64.minValue.toInt Int64.maxValue.toInt = readRecords bs := by
  rw [readFileRange_eq_filter]
  apply List.filter_eq_self.mpr
  intro r _
  simp only [EventRecord.inRange, decide_eq_true_eq]
  exact ⟨Int64.minValue_le_toInt r.tsMs, Int64.toInt_le r.tsMs⟩

end Digdigdig3.Storage
