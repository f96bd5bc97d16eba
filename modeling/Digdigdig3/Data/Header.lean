import Digdigdig3.Series.DataPoint
import Digdigdig3.Lib.Layout

/-!
# Records with a companion blob

A `DataPoint` with strings or level lists (`crates/digdigdig3-station/src/data/`) has a
header of fixed size, into which `encode` copies fields at fixed offsets and `DiskStore` the
pointer to the blob, and the blob that `encode_blob` makes of the rest.

* `slice_header`: every field of a header reads back, whatever the pointer is.
* `BlobCodec.pointer_untouched`: `encode` writes nothing where the pointer goes.
* `optI64Dec_optI64Enc_iff`: which optional integers survive their sentinel.
-/

namespace Digdigdig3.Data

open Series

/-! ## Numbers -/

/-- An `f64`, as its bit pattern. -/
abbrev F64 := BitVec 64

/-- `x.to_le_bytes()` for an `f64`. -/
def f64ToLe (x : F64) : Bytes := toLe 8 x.toNat

/-- `f64::from_le_bytes(bs)`. -/
def f64OfLe (bs : Bytes) : F64 := BitVec.ofNat 64 (ofLe bs)

@[simp] theorem length_f64ToLe (x : F64) : (f64ToLe x).length = 8 := length_toLe _ _

@[simp] theorem f64OfLe_f64ToLe (x : F64) : f64OfLe (f64ToLe x) = x := by
  have h : x.toNat < 256 ^ 8 := x.isLt
  rw [f64OfLe, f64ToLe, ofLe_toLe_of_lt h, BitVec.ofNat_toNat, BitVec.setWidth_eq]

/-- `opt_i64_enc` (`data/ob_snapshot_ext.rs` lines 23–28, `data/funding_rate_ext.rs`
    lines 15–20). -/
def optI64Enc (v : Option Int64) : Int64 := v.getD Int64.minValue

/-- `opt_i64_dec` (`data/ob_snapshot_ext.rs` lines 31–34, `data/funding_rate_ext.rs`
    lines 23–26). -/
def optI64Dec (v : Int64) : Option Int64 := if v = Int64.minValue then none else some v

/-- The sentinel for `None` is `i64::MIN`, which is lost when it is a value. -/
theorem optI64Dec_optI64Enc_iff (v : Option Int64) :
    optI64Dec (optI64Enc v) = v ↔ v ≠ some Int64.minValue := by
  cases v with
  | none => simp [optI64Dec, optI64Enc]
  | some x =>
    by_cases h : x = Int64.minValue
    · simp [optI64Dec, optI64Enc, h]
    · simp [optI64Dec, optI64Enc, h]

/-! ## Headers -/

/-- The header of a record: `encode` copies `fields` in front of the pointer at `tailOff`. -/
structure HeaderLayout (P : Type) where
  size : ℕ
  tailOff : ℕ
  fields : P → List (ℕ × Bytes)
  inOrder : ∀ p, InOrder 0 (fields p) tailOff
  tail_le : tailOff + 12 ≤ size

namespace HeaderLayout

variable {P : Type} (L : HeaderLayout P) (p : P)

/-- `encode`, into the buffer `out`. -/
def encodeInto (out : Bytes) : Bytes := writeFields out (L.fields p)

/-- `encode`, into the zeroed buffer that `append` hands it. -/
def encode : Bytes := L.encodeInto p (zeros L.size)

/-- The header with its blob pointer patched in. -/
def header (off len : ℕ) : Bytes := pointed (L.encode p) L.tailOff off len

variable {p}

theorem mem_le {f : ℕ × Bytes} (hf : f ∈ L.fields p) : f.1 + f.2.length ≤ L.tailOff :=
  ((L.inOrder p).mem_le hf).2

theorem length_encode (p : P) : (L.encode p).length = L.size := by
  have hle := L.tail_le
  rw [encode, encodeInto, length_writeFields, length_zeros]
  intro f hf
  have := L.mem_le hf
  rw [length_zeros]
  omega

theorem length_header (p : P) (off len : ℕ) : (L.header p off len).length = L.size := by
  rw [header, length_pointed, L.length_encode]
  rw [L.length_encode]
  exact L.tail_le

/-- `encode` leaves the 12 bytes of the pointer as it finds them. -/
theorem pointer_untouched (p : P) {out : Bytes} (h : out.length = L.size) :
    slice (L.encodeInto p out) L.tailOff 12 = slice out L.tailOff 12 := by
  have hle := L.tail_le
  apply slice_writeFields_of_disjoint
  · intro f hf
    have := L.mem_le hf
    omega
  · exact fun f hf => .inr (L.mem_le hf)

/-- Every field reads back from the header, whatever the pointer is. -/
theorem slice_header {f : ℕ × Bytes} (hf : f ∈ L.fields p) (off len : ℕ) :
    slice (L.header p off len) f.1 f.2.length = f.2 := by
  have hle := L.tail_le
  have hlen := L.length_encode p
  have hmem := L.mem_le hf
  have hfirst : (patch (L.encode p) L.tailOff (toLe 8 off)).length = L.size := by
    rw [length_patch (by rw [length_toLe]; omega), hlen]
  rw [header, pointed,
    slice_patch_of_disjoint (by rw [length_toLe]; omega) (.inl (by omega)),
    slice_patch_of_disjoint (by rw [length_toLe]; omega) (.inl hmem)]
  exact slice_writeFields (L.inOrder p) (by rw [length_zeros]; omega) hf

theorem i64OfLe_header {a : ℕ} {x : Int64} (hf : (a, i64ToLe x) ∈ L.fields p) (off len : ℕ) :
    i64OfLe (slice (L.header p off len) a 8) = x := by
  have hslice := L.slice_header hf off len
  rw [length_i64ToLe] at hslice
  rw [hslice, i64OfLe_i64ToLe]

theorem f64OfLe_header {a : ℕ} {x : F64} (hf : (a, f64ToLe x) ∈ L.fields p) (off len : ℕ) :
    f64OfLe (slice (L.header p off len) a 8) = x := by
  have hslice := L.slice_header hf off len
  rw [length_f64ToLe] at hslice
  rw [hslice, f64OfLe_f64ToLe]

end HeaderLayout

/-- The codec of a type with a blob: the header, and the hooks of `DataPoint`. The
    `debug_assert`s of `encode` and `decode`, where there are any, are about offsets alone;
    `debugAsserts` says whether they hold. -/
structure BlobCodec (P : Type) extends HeaderLayout P where
  decode : Bytes → Option P
  timestampMs : P → Int64
  encodeBlob : P → Bytes
  decodeBlob : Bytes → Bytes → Option P
  debugAsserts : Bool := true

/-- The `DataPoint` of a codec. -/
def BlobCodec.dataPoint {P : Type} (C : BlobCodec P) : DataPoint P where
  recordSize := C.size
  encode := C.encode
  decode := C.decode
  timestampMs := C.timestampMs
  encodeBlob p := some (C.encodeBlob p)
  decodeBlob := C.decodeBlob
  blobPointerOffset := some C.tailOff
  recordSize_pos := by
    have := C.tail_le
    omega
  length_encode := C.length_encode
  pointer_le tailOff h := by
    cases h
    exact C.tail_le

/-- The point reads back from its header and its blob. -/
def BlobCodec.ReadsBack {P : Type} (C : BlobCodec P) (p : P) : Prop :=
  ∀ off len, C.decodeBlob (C.header p off len) (C.encodeBlob p) = some p

/-- What becomes of a point that is encoded and decoded, in a build with or without
    `debug_assert`s; `none` is a panic. -/
def BlobCodec.roundTrip {P : Type} (C : BlobCodec P) (debug : Bool) (p : P) (off len : ℕ) :
    Option (Option P) :=
  if debug && !C.debugAsserts then none
  else some (C.decodeBlob (C.header p off len) (C.encodeBlob p))

theorem BlobCodec.roundTrip_eq_iff {P : Type} (C : BlobCodec P) (debug : Bool) (p : P) :
    (∀ off len, C.roundTrip debug p off len = some (some p)) ↔
      (debug = true → C.debugAsserts = true) ∧ C.ReadsBack p := by
  unfold BlobCodec.roundTrip BlobCodec.ReadsBack
  cases debug <;> cases C.debugAsserts <;> simp

end Digdigdig3.Data
