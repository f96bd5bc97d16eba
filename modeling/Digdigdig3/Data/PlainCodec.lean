import Digdigdig3.Data.Header
import Digdigdig3.Lib.Utf8
import Digdigdig3.Series.ReadTail

/-!
# Records without a blob

A `DataPoint` of numbers and flags (`crates/digdigdig3-station/src/data/`) has a record of a fixed
size: `encode` copies each field to its offset of the zeroed buffer, and `decode` reads each from
there, if the buffer has that size. So the table of the fields is the codec.

* `read_bytes_iff`: which values of a field read back.
* `decode_encode_iff`: which points do.
* `dayStep_reread`: a store cannot tell a point from the one that comes back.
* `readDayTail_run`: what a run of a store leaves to be read.
-/

namespace Digdigdig3.Data

open Series Series.DiskStore

/-! ## Fields -/

theorem ofNat_ofLe_toLe_u64 (x : UInt64) : UInt64.ofNat (ofLe (toLe 8 x.toNat)) = x := by
  have hx : x.toNat < 256 ^ 8 := x.toNat_lt
  rw [ofLe_toLe_of_lt hx, UInt64.ofNat_toNat]

theorem ofNat_ofLe_toLe_u32 (x : UInt32) : UInt32.ofNat (ofLe (toLe 4 x.toNat)) = x := by
  have hx : x.toNat < 256 ^ 4 := x.toNat_lt
  rw [ofLe_toLe_of_lt hx, UInt32.ofNat_toNat]

/-- What stands in a field. For `padF64` and `padU32`, `encode` writes an `f64::NAN` and a zero that
    `decode` does not read. -/
inductive FieldType
  | i64
  | f64
  | u64
  | u32
  | u8
  | bool
  | optI64
  | padF64
  | padU32

namespace FieldType

def Value : FieldType → Type
  | .i64 => Int64
  | .f64 => F64
  | .u64 => UInt64
  | .u32 => UInt32
  | .u8 => Byte
  | .bool => Bool
  | .optI64 => Option Int64
  | .padF64 | .padU32 => Unit

def width : FieldType → ℕ
  | .u8 | .bool => 1
  | .u32 | .padU32 => 4
  | _ => 8

/-- What `encode` copies: `to_le_bytes`, and `as u8` for a flag. -/
def bytes : (t : FieldType) → t.Value → Bytes
  | .i64, x => i64ToLe x
  | .f64, x => f64ToLe x
  | .u64, x => toLe 8 (UInt64.toNat x)
  | .u32, x => toLe 4 (UInt32.toNat x)
  | .u8, x => [x]
  | .bool, x => [byteOf x.toNat]
  | .optI64, x => i64ToLe (optI64Enc x)
  | .padF64, _ => f64ToLe 0x7FF8000000000000#64
  | .padU32, _ => toLe 4 0

/-- What `decode` makes of the bytes there. -/
def read : (t : FieldType) → Bytes → t.Value
  | .i64, bs => i64OfLe bs
  | .f64, bs => f64OfLe bs
  | .u64, bs => UInt64.ofNat (ofLe bs)
  | .u32, bs => UInt32.ofNat (ofLe bs)
  | .u8, bs => bs.headD (byteOf 0)
  | .bool, bs => bs.headD (byteOf 0) != byteOf 0
  | .optI64, bs => optI64Dec (i64OfLe bs)
  | .padF64, _ => ()
  | .padU32, _ => ()

/-- The value is not the sentinel of a missing one. -/
def Kept : (t : FieldType) → t.Value → Prop
  | .optI64, x => x ≠ some Int64.minValue
  | _, _ => True

variable (t : FieldType) (x : t.Value)

@[simp] theorem length_bytes : (t.bytes x).length = t.width := by
  cases t <;> first | exact length_toLe _ _ | rfl

theorem read_bytes_iff : t.read (t.bytes x) = x ↔ t.Kept x := by
  cases t with
  | i64 => exact iff_of_true (i64OfLe_i64ToLe x) trivial
  | f64 => exact iff_of_true (f64OfLe_f64ToLe x) trivial
  | u64 => exact iff_of_true (ofNat_ofLe_toLe_u64 x) trivial
  | u32 => exact iff_of_true (ofNat_ofLe_toLe_u32 x) trivial
  | u8 => exact iff_of_true rfl trivial
  | bool => exact iff_of_true (by cases x <;> rfl) trivial
  | optI64 =>
    refine Iff.trans ?_ (optI64Dec_optI64Enc_iff x)
    show optI64Dec (i64OfLe (i64ToLe (optI64Enc x))) = x ↔ _
    rw [i64OfLe_i64ToLe]
  | padF64 => exact iff_of_true rfl trivial
  | padU32 => exact iff_of_true rfl trivial

/-- A value and the one that comes back have the same bytes. -/
theorem bytes_read_bytes : t.bytes (t.read (t.bytes x)) = t.bytes x := by
  by_cases h : t.Kept x
  · rw [(t.read_bytes_iff x).mpr h]
  · cases t with
    | optI64 =>
      obtain rfl : x = some Int64.minValue := not_not.mp h
      rfl
    | _ => exact absurd trivial h

end FieldType

/-- A field of a point: its name, its offset in the record, and what it is. -/
structure Field where
  name : String
  off : ℕ
  type : FieldType

/-- The values of fields. -/
def Values : List Field → Type
  | [] => Unit
  | f :: fs => f.type.Value × Values fs

/-- What `encode` copies, and where to. -/
def places : (fs : List Field) → Values fs → List (ℕ × Bytes)
  | [], _ => []
  | f :: fs, xs => (f.off, f.type.bytes xs.1) :: places fs xs.2

/-- What `decode` reads. -/
def readAll : (fs : List Field) → Bytes → Values fs
  | [], _ => ()
  | f :: fs, buf => (f.type.read (slice buf f.off f.type.width), readAll fs buf)

/-- No value is the sentinel of a missing one. -/
def AllKept : (fs : List Field) → Values fs → Prop
  | [], _ => True
  | f :: fs, xs => f.type.Kept xs.1 ∧ AllKept fs xs.2

/-- The fields lie one behind the other, between `start` and `stop`. -/
def fitsIn (start : ℕ) : List Field → ℕ → Bool
  | [], stop => start ≤ stop
  | f :: fs, stop => start ≤ f.off && fitsIn (f.off + f.type.width) fs stop

theorem inOrder_places {start stop : ℕ} {fs : List Field} (h : fitsIn start fs stop)
    (xs : Values fs) : InOrder start (places fs xs) stop := by
  induction fs generalizing start with
  | nil => exact of_decide_eq_true (p := start ≤ stop) h
  | cons f fs ih =>
    obtain ⟨hstart, hrest⟩ := Bool.and_eq_true_iff.mp h
    refine ⟨of_decide_eq_true hstart, ?_⟩
    rw [FieldType.length_bytes]
    exact ih hrest xs.2

variable {fs : List Field}

theorem readAll_eq_iff {buf : Bytes} {xs : Values fs}
    (h : ∀ f ∈ places fs xs, slice buf f.1 f.2.length = f.2) :
    readAll fs buf = xs ↔ AllKept fs xs := by
  induction fs with
  | nil => exact iff_of_true rfl trivial
  | cons f fs ih =>
    obtain ⟨x, xs⟩ := xs
    obtain ⟨hf, hfs⟩ := List.forall_mem_cons.mp h
    rw [FieldType.length_bytes] at hf
    have hcons : readAll (f :: fs) buf = (x, xs) ↔
        f.type.read (slice buf f.off f.type.width) = x ∧ readAll fs buf = xs := Prod.mk_inj
    rw [hcons, hf, ih hfs, FieldType.read_bytes_iff]
    rfl

theorem places_readAll {buf : Bytes} {xs : Values fs}
    (h : ∀ f ∈ places fs xs, slice buf f.1 f.2.length = f.2) :
    places fs (readAll fs buf) = places fs xs := by
  induction fs with
  | nil => rfl
  | cons f fs ih =>
    obtain ⟨x, xs⟩ := xs
    obtain ⟨hf, hfs⟩ := List.forall_mem_cons.mp h
    rw [FieldType.length_bytes] at hf
    show (f.off, f.type.bytes (f.type.read (slice buf f.off f.type.width))) ::
      places fs (readAll fs buf) = _
    rw [hf, ih hfs, FieldType.bytes_read_bytes]
    rfl

/-! ## Codecs -/

/-- The record of a type of points: the time, under the name `stamp`, and the fields behind it. -/
structure PlainCodec where
  size : ℕ
  stamp : String
  fields : List Field
  fits : fitsIn 8 fields size = true := by rfl

namespace PlainCodec

variable (C : PlainCodec)

structure Point where
  timestampMs : Int64
  values : Values C.fields

variable (p : C.Point)

def layout : List (ℕ × Bytes) := (0, i64ToLe p.timestampMs) :: places C.fields p.values

/-- `encode`, into the zeroed buffer that `append` hands it. -/
def encode : Bytes := writeFields (zeros C.size) (C.layout p)

/-- What `decode` makes of a buffer of the right size. -/
def read (bytes : Bytes) : C.Point := ⟨i64OfLe (slice bytes 0 8), readAll C.fields bytes⟩

/-- `decode`. -/
def decode (bytes : Bytes) : Option C.Point :=
  if bytes.length ≠ C.size then none else some (C.read bytes)

theorem inOrder_layout : InOrder 0 (C.layout p) C.size := by
  refine ⟨le_rfl, ?_⟩
  rw [length_i64ToLe]
  exact inOrder_places C.fits p.values

theorem length_encode : (C.encode p).length = C.size := by
  rw [encode, length_writeFields, length_zeros]
  intro f hf
  rw [length_zeros]
  exact ((C.inOrder_layout p).mem_le hf).2

theorem size_pos : 0 < C.size := by
  have hrest := (inOrder_places C.fits (readAll C.fields [])).le
  omega

/-- The `DataPoint` of a type. -/
def dataPoint : DataPoint C.Point where
  recordSize := C.size
  encode := C.encode
  decode := C.decode
  timestampMs := Point.timestampMs
  encodeBlob _ := none
  decodeBlob header _ := C.decode header
  blobPointerOffset := none
  recordSize_pos := C.size_pos
  length_encode := C.length_encode
  pointer_le := by simp

/-- The point that comes back from the record of a point. -/
def reread : C.Point := C.read (C.encode p)

theorem decode_encode : C.decode (C.encode p) = some (C.reread p) := by
  rw [decode, if_neg (not_not_intro (C.length_encode p))]
  rfl

theorem slice_encode {f : ℕ × Bytes} (hf : f ∈ C.layout p) :
    slice (C.encode p) f.1 f.2.length = f.2 :=
  slice_writeFields (C.inOrder_layout p) (by rw [length_zeros]) hf

theorem timestampMs_reread : (C.reread p).timestampMs = p.timestampMs := by
  have hslice := C.slice_encode p List.mem_cons_self
  rw [length_i64ToLe] at hslice
  show i64OfLe (slice (C.encode p) 0 8) = p.timestampMs
  rw [hslice, i64OfLe_i64ToLe]

theorem slice_places : ∀ f ∈ places C.fields p.values,
    slice (C.encode p) f.1 f.2.length = f.2 :=
  fun _ hf => C.slice_encode p (List.mem_cons_of_mem _ hf)

/-- No optional integer of the point is `i64::MIN`. -/
def Kept : Prop := AllKept C.fields p.values

theorem reread_eq_iff : C.reread p = p ↔ C.Kept p := by
  have hvalues := readAll_eq_iff (C.slice_places p)
  constructor
  · intro h
    exact hvalues.mp (congrArg (fun q : C.Point => q.values) h)
  · intro h
    show Point.mk (C.reread p).timestampMs (readAll C.fields (C.encode p)) = p
    rw [C.timestampMs_reread, hvalues.mpr h]

theorem decode_encode_iff : C.decode (C.encode p) = some p ↔ C.Kept p := by
  rw [decode_encode, Option.some_inj, reread_eq_iff]

theorem encode_reread : C.encode (C.reread p) = C.encode p := by
  have hlayout : C.layout (C.reread p) = C.layout p := by
    rw [layout, layout, timestampMs_reread]
    exact congrArg _ (places_readAll (C.slice_places p))
  rw [encode, encode, hlayout]

/-! ## Stores -/

theorem roundTrips_reread : C.dataPoint.RoundTrips (C.reread p) := by
  show C.decode (C.encode (C.reread p)) = some (C.reread p)
  rw [C.decode_encode, reread, C.encode_reread]
  rfl

/-- A run with the points that come back. -/
def rereadOp : DayOp C.Point → DayOp C.Point
  | .append p => .append (C.reread p)
  | .flush => .flush
  | .reopen => .reopen

theorem appended_reread (ops : List (DayOp C.Point)) :
    appended (ops.map C.rereadOp) = (appended ops).map C.reread := by
  induction ops with
  | nil => rfl
  | cons op ops ih =>
    rw [appended, appended] at ih
    cases op <;> simp [appended, rereadOp, ih]

/-- A store cannot tell a point from the one that comes back. -/
theorem dayStep_reread (s : DiskStore) (op : DayOp C.Point) :
    dayStep C.dataPoint s (C.rereadOp op) = dayStep C.dataPoint s op := by
  cases op with
  | append p =>
    have hencode : C.dataPoint.encode (C.reread p) = C.dataPoint.encode p := C.encode_reread p
    have htime : C.dataPoint.timestampMs (C.reread p) = C.dataPoint.timestampMs p :=
      C.timestampMs_reread p
    have hheader : s.header C.dataPoint (C.reread p) = s.header C.dataPoint p := by
      simp only [header, hencode]
      rfl
    show s.append C.dataPoint (C.reread p) = s.append C.dataPoint p
    rw [append, append, hheader, htime]
  | flush => rfl
  | reopen => rfl

theorem foldl_reread (ops : List (DayOp C.Point)) (s : DiskStore) :
    (ops.map C.rereadOp).foldl (dayStep C.dataPoint) s = ops.foldl (dayStep C.dataPoint) s := by
  induction ops generalizing s with
  | nil => rfl
  | cons op ops ih => rw [List.map_cons, List.foldl_cons, List.foldl_cons, dayStep_reread, ih]

/-- `read_tail` of the day of a fresh store, after the operations. -/
def tailAfter (idxEvery : ℕ) (ops : List (DayOp C.Point)) (limit : ℕ) : List C.Point :=
  readDayTail C.dataPoint
    (ops.foldl (dayStep C.dataPoint) (create C.dataPoint idxEvery)).files limit

/-- A store returns the last of the points that it was given, as they come back. -/
theorem readDayTail_run (idxEvery : ℕ) (ops : List (DayOp C.Point)) (limit : ℕ) :
    C.tailAfter idxEvery ops limit = ((appended ops).map C.reread).rtake limit := by
  have hround : ∀ p ∈ appended (ops.map C.rereadOp), C.dataPoint.RoundTrips p := by
    intro p hp
    rw [appended_reread] at hp
    obtain ⟨q, -, rfl⟩ := List.mem_map.mp hp
    exact C.roundTrips_reread q
  have hblob : ∀ points : List C.Point, blobBytes C.dataPoint points = 0 := by
    intro points
    rw [blobBytes]
    simp [dataPoint]
  have hintact := (intact_create idxEvery).run hround (by rw [hblob]; decide)
  rw [foldl_reread, List.nil_append, appended_reread] at hintact
  exact hintact.holds.readDayTail_eq limit

theorem map_reread_eq_self_iff (points : List C.Point) :
    points.map C.reread = points ↔ ∀ p ∈ points, C.Kept p := by
  have hself : points.map C.reread = points ↔ points.map C.reread = points.map id := by
    rw [List.map_id]
  rw [hself, List.map_inj_left]
  exact forall₂_congr fun p _ => C.reread_eq_iff p

end PlainCodec

end Digdigdig3.Data
