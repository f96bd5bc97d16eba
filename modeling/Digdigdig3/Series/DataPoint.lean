import Digdigdig3.Lib.Bytes

/-!
# `DataPoint`: the record codec of a series

The part of the trait `DataPoint` (`crates/digdigdig3-station/src/series/data_point.rs`)
that `DiskStore` uses: a record of fixed size and, for types with strings or level lists,
a pointer `(blob_offset: u64, blob_len: u32)` inside the record into a companion file.

* `blobOff_pointed`, `blobLen_pointed`: the pointer that `append` writes is the one that
  is read.
* `scalarBar_roundTrips`: a scalar bar reads back from its record.
-/

namespace Digdigdig3.Series

/-- The trait `DataPoint` (lines 19–71) for the type `P`. `encode` fills a buffer of
    `RECORD_SIZE` bytes, in which the pointer pair has its place. -/
structure DataPoint (P : Type) where
  recordSize : ℕ
  encode : P → Bytes
  decode : Bytes → Option P
  timestampMs : P → Int64
  encodeBlob : P → Option Bytes
  decodeBlob : Bytes → Bytes → Option P
  blobPointerOffset : Option ℕ
  recordSize_pos : 0 < recordSize
  length_encode : ∀ p, (encode p).length = recordSize
  pointer_le : ∀ tailOff ∈ blobPointerOffset, tailOff + 12 ≤ recordSize

variable {P : Type} (T : DataPoint P)

/-- The header of a record whose blob bytes are `len` bytes at `off` (`store.rs`
    lines 146–147). -/
def pointed (buf : Bytes) (tailOff off len : ℕ) : Bytes :=
  patch (patch buf tailOff (toLe 8 off)) (tailOff + 8) (toLe 4 len)

/-- The blob offset that a header carries (`store.rs` lines 460–462). -/
def blobOff (chunk : Bytes) (tailOff : ℕ) : ℕ := ofLe (slice chunk tailOff 8)

/-- The blob length that a header carries (`store.rs` lines 463–467). -/
def blobLen (chunk : Bytes) (tailOff : ℕ) : ℕ := ofLe (slice chunk (tailOff + 8) 4)

theorem length_pointed {buf : Bytes} {tailOff : ℕ} (h : tailOff + 12 ≤ buf.length)
    (off len : ℕ) : (pointed buf tailOff off len).length = buf.length := by
  have hfirst : (patch buf tailOff (toLe 8 off)).length = buf.length :=
    length_patch (by rw [length_toLe]; omega)
  rw [pointed, length_patch (by rw [length_toLe, hfirst]; omega), hfirst]

theorem blobLen_pointed {buf : Bytes} {tailOff len : ℕ} (h : tailOff + 12 ≤ buf.length)
    (off : ℕ) (hlen : len < 256 ^ 4) : blobLen (pointed buf tailOff off len) tailOff = len := by
  have hfirst : (patch buf tailOff (toLe 8 off)).length = buf.length :=
    length_patch (by rw [length_toLe]; omega)
  have hslice : slice (pointed buf tailOff off len) (tailOff + 8) (toLe 4 len).length =
      toLe 4 len := slice_patch (by rw [length_toLe, hfirst]; omega)
  rw [length_toLe] at hslice
  rw [blobLen, hslice, ofLe_toLe_of_lt hlen]

theorem blobOff_pointed {buf : Bytes} {tailOff off : ℕ} (h : tailOff + 12 ≤ buf.length)
    (hoff : off < 256 ^ 8) (len : ℕ) : blobOff (pointed buf tailOff off len) tailOff = off := by
  have hfirst : (patch buf tailOff (toLe 8 off)).length = buf.length :=
    length_patch (by rw [length_toLe]; omega)
  have hslice : slice (patch buf tailOff (toLe 8 off)) tailOff (toLe 8 off).length =
      toLe 8 off := slice_patch (by rw [length_toLe]; omega)
  rw [length_toLe] at hslice
  have hkeep : slice (pointed buf tailOff off len) tailOff 8 =
      slice (patch buf tailOff (toLe 8 off)) tailOff 8 := by
    unfold pointed
    rw [patch, List.append_assoc, slice_append_left (by rw [List.length_take, hfirst]; omega)]
    conv_rhs => rw [← List.take_append_drop (tailOff + 8) (patch buf tailOff (toLe 8 off))]
    rw [slice_append_left (by rw [List.length_take, hfirst]; omega)]
  rw [blobOff, hkeep, hslice, ofLe_toLe_of_lt hoff]

/-- The point reads back from its own record, wherever its blob bytes are put. -/
def DataPoint.RoundTrips (p : P) : Prop :=
  match T.blobPointerOffset with
  | none => T.decode (T.encode p) = some p
  | some tailOff =>
    match T.encodeBlob p with
    | none => blobLen (T.encode p) tailOff = 0 ∧ T.decodeBlob (T.encode p) [] = some p
    | some blob => blob.length < 256 ^ 4 ∧
        ∀ off < 256 ^ 8, T.decodeBlob (pointed (T.encode p) tailOff off blob.length) blob = some p

/-! ## `ScalarBarPoint` -/

/-- `ScalarBarPoint` (`data/scalar_bar.rs` lines 13–17); the `f64` is its bit pattern. -/
structure ScalarBarPoint where
  tsMs : Int64
  value : BitVec 64
  deriving DecidableEq

/-- `ScalarBarPoint::decode` (`data/scalar_bar.rs` lines 29–35). -/
def ScalarBarPoint.decode (bytes : Bytes) : Option ScalarBarPoint :=
  if bytes.length ≠ 16 then none
  else some { tsMs := i64OfLe (slice bytes 0 8),
              value := BitVec.ofNat 64 (ofLe (slice bytes 8 8)) }

/-- `impl DataPoint for ScalarBarPoint` (`data/scalar_bar.rs` lines 21–40). -/
def scalarBar : DataPoint ScalarBarPoint where
  recordSize := 16
  encode p := i64ToLe p.tsMs ++ toLe 8 p.value.toNat
  decode := ScalarBarPoint.decode
  timestampMs p := p.tsMs
  encodeBlob _ := none
  decodeBlob header _ := ScalarBarPoint.decode header
  blobPointerOffset := none
  recordSize_pos := by decide
  length_encode p := by simp
  pointer_le := by simp

/-- Every scalar bar reads back. -/
theorem scalarBar_roundTrips (p : ScalarBarPoint) : scalarBar.RoundTrips p := by
  have hts : slice (i64ToLe p.tsMs ++ toLe 8 p.value.toNat) 0 8 = i64ToLe p.tsMs := by
    rw [slice_append_left (by simp)]
    simp [slice]
  have hvalue : slice (i64ToLe p.tsMs ++ toLe 8 p.value.toNat) 8 8 = toLe 8 p.value.toNat := by
    have h := slice_append_mid (i64ToLe p.tsMs) (toLe 8 p.value.toNat) []
    rwa [List.append_nil, length_i64ToLe, length_toLe] at h
  have hbits : ofLe (toLe 8 p.value.toNat) = p.value.toNat := ofLe_toLe_of_lt p.value.isLt
  show scalarBar.decode (scalarBar.encode p) = some p
  simp only [scalarBar, ScalarBarPoint.decode]
  rw [if_neg (by simp), hts, hvalue, hbits, i64OfLe_i64ToLe, BitVec.ofNat_toNat,
    BitVec.setWidth_eq]

end Digdigdig3.Series
