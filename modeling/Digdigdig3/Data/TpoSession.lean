import Digdigdig3.Data.Header
import Digdigdig3.Lib.Utf8

/-!
# `TpoSessionPoint`

The codec of `TpoSessionPoint` (`crates/digdigdig3-station/src/data/tpo_session.rs`): the
blob is a `u32` count of rows, each a price and letters behind their number `as u16`, one
byte a letter.

* `decodeRows_encodeRows_iff`: the rows read back that have fewer than `2^16` letters, all of
  them below 256.
* `tpoSession_readsBack_iff`: when the session does.
-/

namespace Digdigdig3.Data

/-! ## Rows -/

/-- A row: its price and the letters of the periods that touched it. -/
abbrev TpoRow := F64 × List Char

/-- A row of the blob (lines 73–77). -/
def encodeRow (row : TpoRow) : Bytes :=
  f64ToLe row.1 ++ (toLe 2 row.2.length ++ row.2.map fun c => byteOf c.toNat)

/-- The loop of `decode_blob` (lines 86–96), for `n` rows from `cursor` on. -/
def decodeRows (blob : Bytes) : ℕ → ℕ → List TpoRow
  | 0, _ => []
  | n + 1, cursor =>
    if cursor + 10 > blob.length then []
    else
      let price := f64OfLe (slice blob cursor 8)
      let lettersLen := ofLe (slice blob (cursor + 8) 2)
      let cursor := cursor + 10
      if cursor + lettersLen > blob.length then []
      else
        (price, (slice blob cursor lettersLen).map fun b => Char.ofNat b.val) ::
          decodeRows blob n (cursor + lettersLen)

/-- The rows that survive. -/
def KeptRow (row : TpoRow) : Prop := row.2.length < 256 ^ 2 ∧ ∀ c ∈ row.2, c.toNat < 256

theorem charOfByte_eq_iff (c : Char) : Char.ofNat (c.toNat % 256) = c ↔ c.toNat < 256 := by
  constructor
  · intro h
    have hlt : c.toNat % 256 < 256 := Nat.mod_lt _ (by decide)
    have hnat := congrArg Char.toNat h
    rw [toNat_ofNat (.inl (by omega))] at hnat
    omega
  · intro h
    rw [Nat.mod_eq_of_lt h, Char.ofNat_toNat]

/-- One row reads back up to its number of letters modulo `2^16`, and each letter up to its
    low byte. -/
theorem decodeRows_append (row : TpoRow) (n : ℕ) (pre rest : Bytes) :
    decodeRows (pre ++ (encodeRow row ++ rest)) (n + 1) pre.length =
      (row.1, (row.2.take (row.2.length % 256 ^ 2)).map fun c => Char.ofNat (c.toNat % 256)) ::
        decodeRows (pre ++ (encodeRow row ++ rest)) n
          (pre.length + 10 + row.2.length % 256 ^ 2) := by
  have hle : row.2.length % 256 ^ 2 ≤ row.2.length := Nat.mod_le _ _
  have hprice := slice_append_mid pre (f64ToLe row.1)
    (toLe 2 row.2.length ++ ((row.2.map fun c => byteOf c.toNat) ++ rest))
  have hcount := slice_append_mid (pre ++ f64ToLe row.1) (toLe 2 row.2.length)
    ((row.2.map fun c => byteOf c.toNat) ++ rest)
  have hletters := slice_append_take (pre ++ f64ToLe row.1 ++ toLe 2 row.2.length) rest
    (x := row.2.map fun c => byteOf c.toNat) (n := row.2.length % 256 ^ 2)
    (by rw [List.length_map]; exact hle)
  rw [length_f64ToLe] at hprice
  rw [List.length_append, length_f64ToLe, length_toLe, List.append_assoc] at hcount
  rw [List.length_append, List.length_append, length_f64ToLe, length_toLe, List.append_assoc,
    List.append_assoc, Nat.add_assoc] at hletters
  have hlen : (pre ++ (encodeRow row ++ rest)).length =
      pre.length + 10 + row.2.length + rest.length := by
    simp only [encodeRow, List.length_append, length_f64ToLe, length_toLe, List.length_map]
    omega
  rw [decodeRows, if_neg (by omega)]
  have hblob : pre ++ (encodeRow row ++ rest) = pre ++ (f64ToLe row.1 ++
      (toLe 2 row.2.length ++ ((row.2.map fun c => byteOf c.toNat) ++ rest))) := by
    simp only [encodeRow, List.append_assoc]
  rw [hblob, hprice, hcount, ofLe_toLe, f64OfLe_f64ToLe, ← hblob]
  simp only
  rw [if_neg (by omega), hblob, hletters, ← List.map_take, List.map_map]
  rfl

theorem decodeRows_encodeRows_iff (rows : List TpoRow) (pre : Bytes) :
    decodeRows (pre ++ rows.flatMap encodeRow) rows.length pre.length = rows ↔
      ∀ row ∈ rows, KeptRow row := by
  induction rows generalizing pre with
  | nil => simp [decodeRows]
  | cons row rows ih =>
    rw [List.flatMap_cons, List.length_cons, decodeRows_append, List.cons.injEq,
      List.forall_mem_cons]
    by_cases hlen : row.2.length < 256 ^ 2
    · have hend : pre.length + 10 + row.2.length = (pre ++ encodeRow row).length := by
        simp only [encodeRow, List.length_append, length_f64ToLe, length_toLe, List.length_map]
        omega
      have hrow : (row.1, row.2.map fun c => Char.ofNat (c.toNat % 256)) = row ↔ KeptRow row := by
        rw [Prod.ext_iff, KeptRow]
        simp only [true_and, hlen, ← charOfByte_eq_iff]
        nth_rewrite 2 [← List.map_id row.2]
        exact List.map_inj_left
      rw [Nat.mod_eq_of_lt hlen, List.take_length, hend, ← List.append_assoc, ih, hrow]
    · have hne : ¬ KeptRow row := fun h => hlen h.1
      have hcut : (row.1, (row.2.take (row.2.length % 256 ^ 2)).map
          fun c => Char.ofNat (c.toNat % 256)) ≠ row := by
        intro h
        have hl := congrArg (fun r : TpoRow => r.2.length) h
        simp only [List.length_map, List.length_take] at hl
        omega
      simp only [hne, hcut, false_and]

/-! ## The session -/

/-- `TpoSessionPoint` (lines 22–33). -/
structure TpoSessionPoint where
  openTime : Int64
  tickSize : F64
  sessionHigh : F64
  sessionLow : F64
  pocPrice : F64
  vahPrice : F64
  valPrice : F64
  rows : List TpoRow
  deriving DecidableEq

/-- `TpoSessionPoint::decode` (lines 53–65). -/
def TpoSessionPoint.decode (bytes : Bytes) : Option TpoSessionPoint :=
  if bytes.length ≠ 72 then none
  else some { openTime := i64OfLe (slice bytes 0 8), tickSize := f64OfLe (slice bytes 8 8),
              sessionHigh := f64OfLe (slice bytes 16 8), sessionLow := f64OfLe (slice bytes 24 8),
              pocPrice := f64OfLe (slice bytes 32 8), vahPrice := f64OfLe (slice bytes 40 8),
              valPrice := f64OfLe (slice bytes 48 8), rows := [] }

/-- `TpoSessionPoint::encode_blob` (lines 71–80). -/
def TpoSessionPoint.encodeBlob (p : TpoSessionPoint) : Bytes :=
  toLe 4 p.rows.length ++ p.rows.flatMap encodeRow

/-- `TpoSessionPoint::decode_blob` (lines 82–98). -/
def TpoSessionPoint.decodeBlob (header blob : Bytes) : Option TpoSessionPoint :=
  (TpoSessionPoint.decode header).map fun p =>
    if blob.length < 4 then p
    else { p with rows := p.rows ++ decodeRows blob (ofLe (slice blob 0 4)) 4 }

/-- `impl DataPoint for TpoSessionPoint` (lines 38–101). -/
def tpoSession : BlobCodec TpoSessionPoint where
  size := 72
  tailOff := 60
  fields p := [(0, i64ToLe p.openTime), (8, f64ToLe p.tickSize), (16, f64ToLe p.sessionHigh),
    (24, f64ToLe p.sessionLow), (32, f64ToLe p.pocPrice), (40, f64ToLe p.vahPrice),
    (48, f64ToLe p.valPrice)]
  inOrder p := by simp [InOrder]
  tail_le := by decide
  decode := TpoSessionPoint.decode
  timestampMs p := p.openTime
  encodeBlob := TpoSessionPoint.encodeBlob
  decodeBlob := TpoSessionPoint.decodeBlob

theorem decode_tpoSession (p : TpoSessionPoint) (off len : ℕ) :
    TpoSessionPoint.decode (tpoSession.header p off len) = some { p with rows := [] } := by
  have hlen : (tpoSession.header p off len).length = 72 := tpoSession.length_header p off len
  have hfields : tpoSession.fields p = [(0, i64ToLe p.openTime), (8, f64ToLe p.tickSize),
    (16, f64ToLe p.sessionHigh), (24, f64ToLe p.sessionLow), (32, f64ToLe p.pocPrice),
    (40, f64ToLe p.vahPrice), (48, f64ToLe p.valPrice)] := rfl
  have hts := tpoSession.i64OfLe_header (p := p) (a := 0) (x := p.openTime) (by simp [hfields])
    off len
  have hf : ∀ {a : ℕ} {x : F64}, (a, f64ToLe x) ∈ tpoSession.fields p →
      f64OfLe (slice (tpoSession.header p off len) a 8) = x :=
    fun hmem => tpoSession.f64OfLe_header hmem off len
  rw [TpoSessionPoint.decode, if_neg (not_not_intro hlen), hts,
    hf (x := p.tickSize) (by simp [hfields]), hf (x := p.sessionHigh) (by simp [hfields]),
    hf (x := p.sessionLow) (by simp [hfields]), hf (x := p.pocPrice) (by simp [hfields]),
    hf (x := p.vahPrice) (by simp [hfields]), hf (x := p.valPrice) (by simp [hfields])]

/-- A session reads back when each of its rows has fewer than `2^16` letters, all of them
    below 256. -/
theorem tpoSession_readsBack_iff {p : TpoSessionPoint} (h : p.rows.length < 256 ^ 4) :
    tpoSession.ReadsBack p ↔ ∀ row ∈ p.rows, KeptRow row := by
  have hcount : ofLe (slice p.encodeBlob 0 4) = p.rows.length := by
    have hmid := slice_append_mid [] (toLe 4 p.rows.length) (p.rows.flatMap encodeRow)
    rw [List.length_nil, length_toLe, List.nil_append] at hmid
    rw [TpoSessionPoint.encodeBlob, hmid, ofLe_toLe_of_lt h]
  have hrows := decodeRows_encodeRows_iff p.rows (toLe 4 p.rows.length)
  rw [length_toLe, ← TpoSessionPoint.encodeBlob] at hrows
  have hlong : ¬ p.encodeBlob.length < 4 := by
    rw [TpoSessionPoint.encodeBlob, List.length_append, length_toLe]
    omega
  have hread : ∀ off len, tpoSession.decodeBlob (tpoSession.header p off len)
      (tpoSession.encodeBlob p) =
        some { p with rows := decodeRows p.encodeBlob p.rows.length 4 } := by
    intro off len
    rw [show tpoSession.decodeBlob = TpoSessionPoint.decodeBlob from rfl,
      show tpoSession.encodeBlob p = p.encodeBlob from rfl, TpoSessionPoint.decodeBlob,
      decode_tpoSession, Option.map_some, if_neg hlong, hcount, List.nil_append]
  rw [← hrows]
  simp only [BlobCodec.ReadsBack, hread, Option.some.injEq, forall_const]
  constructor
  · exact congrArg TpoSessionPoint.rows
  · intro heq
    rw [heq]

end Digdigdig3.Data
