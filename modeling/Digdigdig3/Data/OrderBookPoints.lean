import Digdigdig3.Data.Header
import Digdigdig3.Lib.Counted

/-!
# Points with level lists in their blob

The codecs of `ObSnapshotPoint`, `ObDeltaPoint`, `ObSnapshotIndicatorsPoint` and
`FootprintPoint` (`crates/digdigdig3-station/src/data/`). A list of levels is a `u32` count
and the levels, each a few `f64`s; a list of `2^32` levels or more would lose its count.

* `obSnapshot_readsBack`, `obDelta_readsBack`, `footprint_readsBack`: these read back.
* `obSnapshotIndicators_readsBack_iff`: so does this, unless an optional integer is the
  sentinel.
-/

namespace Digdigdig3.Data

/-- A level `(price, size)` (16 bytes). -/
def levelItem : ItemCodec (F64 × F64) where
  width := 16
  enc l := f64ToLe l.1 ++ f64ToLe l.2
  dec bs := (f64OfLe (slice bs 0 8), f64OfLe (slice bs 8 8))
  length_enc l := by simp
  dec_enc l := by
    have h0 := slice_append_mid [] (f64ToLe l.1) (f64ToLe l.2)
    have h1 := slice_append_mid (f64ToLe l.1) (f64ToLe l.2) []
    simp only [List.nil_append, List.append_nil, List.length_nil, length_f64ToLe] at h0 h1
    rw [h0, h1, f64OfLe_f64ToLe, f64OfLe_f64ToLe]

/-- A footprint level `(price, buy_vol, sell_vol)` (24 bytes). -/
def footprintItem : ItemCodec (F64 × F64 × F64) where
  width := 24
  enc l := f64ToLe l.1 ++ (f64ToLe l.2.1 ++ f64ToLe l.2.2)
  dec bs := (f64OfLe (slice bs 0 8), f64OfLe (slice bs 8 8), f64OfLe (slice bs 16 8))
  length_enc l := by simp
  dec_enc l := by
    have h0 := slice_append_mid [] (f64ToLe l.1) (f64ToLe l.2.1 ++ f64ToLe l.2.2)
    have h1 := slice_append_mid (f64ToLe l.1) (f64ToLe l.2.1) (f64ToLe l.2.2)
    have h2 := slice_append_mid (f64ToLe l.1 ++ f64ToLe l.2.1) (f64ToLe l.2.2) []
    simp only [List.nil_append, List.append_nil, List.append_assoc, List.length_nil,
      List.length_append, length_f64ToLe] at h0 h1 h2
    rw [h0, h1, h2, f64OfLe_f64ToLe, f64OfLe_f64ToLe, f64OfLe_f64ToLe]

/-- `encode_side_blob` (`ob_snapshot.rs` lines 41–47; the same in `ob_delta.rs` and
    `ob_snapshot_ext.rs`). -/
def encodeSideBlob (levels : List (F64 × F64)) : Bytes := encodeCounted levelItem levels

/-- `decode_side_blob` (`ob_snapshot.rs` lines 50–69; the same in `ob_delta.rs` and
    `ob_snapshot_ext.rs`): the levels and the bytes used. -/
def decodeSideBlob (blob : Bytes) : Option (List (F64 × F64) × ℕ) := decodeCounted levelItem blob

/-- The blob of both sides. -/
def encodeSides (bids asks : List (F64 × F64)) : Bytes := encodeSideBlob bids ++ encodeSideBlob asks

/-- The body of `decode_blob` shared by the three book points: what it makes of the sides of
    the header-only point, `bids` and `asks` (`ob_snapshot.rs` lines 113–122). -/
def decodeSides (bids asks : List (F64 × F64)) (blob : Bytes) :
    List (F64 × F64) × List (F64 × F64) :=
  match decodeSideBlob blob with
  | none => (bids, asks)
  | some (bids, consumed) =>
    match decodeSideBlob (blob.drop consumed) with
    | none => (bids, asks)
    | some (asks, _) => (bids, asks)

theorem decodeSides_encodeSides {bids asks : List (F64 × F64)} (hb : bids.length < 256 ^ 4)
    (ha : asks.length < 256 ^ 4) (bids₀ asks₀ : List (F64 × F64)) :
    decodeSides bids₀ asks₀ (encodeSides bids asks) = (bids, asks) := by
  have hasks := decodeCounted_encodeCounted_append levelItem ha []
  rw [List.append_nil] at hasks
  simp only [decodeSides, decodeSideBlob, encodeSides, encodeSideBlob,
    decodeCounted_encodeCounted_append levelItem hb, List.drop_left, hasks]

/-! ## `ObSnapshotPoint` -/

/-- `ObSnapshotPoint` (`ob_snapshot.rs` lines 19–23). -/
structure ObSnapshotPoint where
  tsMs : Int64
  bids : List (F64 × F64)
  asks : List (F64 × F64)
  deriving DecidableEq

/-- `ObSnapshotPoint::decode` (`ob_snapshot.rs` lines 80–91). -/
def ObSnapshotPoint.decode (bytes : Bytes) : Option ObSnapshotPoint :=
  if bytes.length ≠ 20 then none
  else some { tsMs := i64OfLe (slice bytes 0 8), bids := [], asks := [] }

/-- `ObSnapshotPoint::decode_blob` (`ob_snapshot.rs` lines 113–122). -/
def ObSnapshotPoint.decodeBlob (header blob : Bytes) : Option ObSnapshotPoint :=
  (ObSnapshotPoint.decode header).map fun p =>
    let sides := decodeSides p.bids p.asks blob
    { p with bids := sides.1, asks := sides.2 }

/-- `impl DataPoint for ObSnapshotPoint` (`ob_snapshot.rs` lines 71–126). -/
def obSnapshot : BlobCodec ObSnapshotPoint where
  size := 20
  tailOff := 8
  fields p := [(0, i64ToLe p.tsMs)]
  inOrder p := by simp [InOrder]
  tail_le := by decide
  decode := ObSnapshotPoint.decode
  timestampMs p := p.tsMs
  encodeBlob p := encodeSides p.bids p.asks
  decodeBlob := ObSnapshotPoint.decodeBlob

theorem obSnapshot_readsBack {p : ObSnapshotPoint} (hb : p.bids.length < 256 ^ 4)
    (ha : p.asks.length < 256 ^ 4) : obSnapshot.ReadsBack p := by
  intro off len
  have hlen : (obSnapshot.header p off len).length = 20 := obSnapshot.length_header p off len
  have hts := obSnapshot.i64OfLe_header (x := p.tsMs) (List.mem_singleton.mpr rfl) off len
  have hdecode : ObSnapshotPoint.decode (obSnapshot.header p off len) =
      some { p with bids := [], asks := [] } := by
    rw [ObSnapshotPoint.decode, if_neg (not_not_intro hlen), hts]
  rw [show obSnapshot.decodeBlob = ObSnapshotPoint.decodeBlob from rfl,
    show obSnapshot.encodeBlob p = encodeSides p.bids p.asks from rfl, ObSnapshotPoint.decodeBlob,
    hdecode, Option.map_some, decodeSides_encodeSides hb ha]

/-! ## `ObDeltaPoint` -/

/-- `ObDeltaPoint` (`ob_delta.rs` lines 22–29). -/
structure ObDeltaPoint where
  tsMs : Int64
  bidChanges : List (F64 × F64)
  askChanges : List (F64 × F64)
  deriving DecidableEq

/-- `ObDeltaPoint::decode` (`ob_delta.rs` lines 88–99). -/
def ObDeltaPoint.decode (bytes : Bytes) : Option ObDeltaPoint :=
  if bytes.length ≠ 20 then none
  else some { tsMs := i64OfLe (slice bytes 0 8), bidChanges := [], askChanges := [] }

/-- `ObDeltaPoint::decode_blob` (`ob_delta.rs` lines 123–132). -/
def ObDeltaPoint.decodeBlob (header blob : Bytes) : Option ObDeltaPoint :=
  (ObDeltaPoint.decode header).map fun p =>
    let sides := decodeSides p.bidChanges p.askChanges blob
    { p with bidChanges := sides.1, askChanges := sides.2 }

/-- `impl DataPoint for ObDeltaPoint` (`ob_delta.rs` lines 79–136). -/
def obDelta : BlobCodec ObDeltaPoint where
  size := 20
  tailOff := 8
  fields p := [(0, i64ToLe p.tsMs)]
  inOrder p := by simp [InOrder]
  tail_le := by decide
  decode := ObDeltaPoint.decode
  timestampMs p := p.tsMs
  encodeBlob p := encodeSides p.bidChanges p.askChanges
  decodeBlob := ObDeltaPoint.decodeBlob

theorem obDelta_readsBack {p : ObDeltaPoint} (hb : p.bidChanges.length < 256 ^ 4)
    (ha : p.askChanges.length < 256 ^ 4) : obDelta.ReadsBack p := by
  intro off len
  have hlen : (obDelta.header p off len).length = 20 := obDelta.length_header p off len
  have hts := obDelta.i64OfLe_header (x := p.tsMs) (List.mem_singleton.mpr rfl) off len
  have hdecode : ObDeltaPoint.decode (obDelta.header p off len) =
      some { p with bidChanges := [], askChanges := [] } := by
    rw [ObDeltaPoint.decode, if_neg (not_not_intro hlen), hts]
  rw [show obDelta.decodeBlob = ObDeltaPoint.decodeBlob from rfl,
    show obDelta.encodeBlob p = encodeSides p.bidChanges p.askChanges from rfl,
    ObDeltaPoint.decodeBlob,
    hdecode, Option.map_some, decodeSides_encodeSides hb ha]

/-! ## `ObSnapshotIndicatorsPoint` -/

/-- `ObSnapshotIndicatorsPoint` (`ob_snapshot_ext.rs` lines 76–83). -/
structure ObSnapshotIndicatorsPoint where
  tsMs : Int64
  cts : Option Int64
  prevChangeId : Option Int64
  bids : List (F64 × F64)
  asks : List (F64 × F64)
  deriving DecidableEq

/-- `ObSnapshotIndicatorsPoint::decode` (`ob_snapshot_ext.rs` lines 110–121). -/
def ObSnapshotIndicatorsPoint.decode (bytes : Bytes) : Option ObSnapshotIndicatorsPoint :=
  if bytes.length ≠ 36 then none
  else some { tsMs := i64OfLe (slice bytes 0 8), cts := optI64Dec (i64OfLe (slice bytes 8 8)),
              prevChangeId := optI64Dec (i64OfLe (slice bytes 16 8)), bids := [], asks := [] }

/-- `ObSnapshotIndicatorsPoint::decode_blob` (`ob_snapshot_ext.rs` lines 141–150). -/
def ObSnapshotIndicatorsPoint.decodeBlob (header blob : Bytes) : Option ObSnapshotIndicatorsPoint :=
  (ObSnapshotIndicatorsPoint.decode header).map fun p =>
    let sides := decodeSides p.bids p.asks blob
    { p with bids := sides.1, asks := sides.2 }

/-- `impl DataPoint for ObSnapshotIndicatorsPoint` (`ob_snapshot_ext.rs` lines 100–153). -/
def obSnapshotIndicators : BlobCodec ObSnapshotIndicatorsPoint where
  size := 36
  tailOff := 24
  fields p := [(0, i64ToLe p.tsMs), (8, i64ToLe (optI64Enc p.cts)),
    (16, i64ToLe (optI64Enc p.prevChangeId))]
  inOrder p := by simp [InOrder]
  tail_le := by decide
  decode := ObSnapshotIndicatorsPoint.decode
  timestampMs p := p.tsMs
  encodeBlob p := encodeSides p.bids p.asks
  decodeBlob := ObSnapshotIndicatorsPoint.decodeBlob

theorem decodeBlob_obSnapshotIndicators {p : ObSnapshotIndicatorsPoint}
    (hb : p.bids.length < 256 ^ 4) (ha : p.asks.length < 256 ^ 4) (off len : ℕ) :
    obSnapshotIndicators.decodeBlob (obSnapshotIndicators.header p off len)
        (obSnapshotIndicators.encodeBlob p) =
      some { p with cts := optI64Dec (optI64Enc p.cts),
                    prevChangeId := optI64Dec (optI64Enc p.prevChangeId) } := by
  have hlen : (obSnapshotIndicators.header p off len).length = 36 :=
    obSnapshotIndicators.length_header p off len
  have hfields : obSnapshotIndicators.fields p = [(0, i64ToLe p.tsMs),
    (8, i64ToLe (optI64Enc p.cts)), (16, i64ToLe (optI64Enc p.prevChangeId))] := rfl
  have hts := obSnapshotIndicators.i64OfLe_header (p := p) (a := 0) (x := p.tsMs)
    (by simp [hfields]) off len
  have hcts := obSnapshotIndicators.i64OfLe_header (p := p) (a := 8) (x := optI64Enc p.cts)
    (by simp [hfields]) off len
  have hprev := obSnapshotIndicators.i64OfLe_header (p := p) (a := 16)
    (x := optI64Enc p.prevChangeId) (by simp [hfields]) off len
  have hdecode : ObSnapshotIndicatorsPoint.decode (obSnapshotIndicators.header p off len) =
      some { p with cts := optI64Dec (optI64Enc p.cts),
                    prevChangeId := optI64Dec (optI64Enc p.prevChangeId),
                    bids := [], asks := [] } := by
    rw [ObSnapshotIndicatorsPoint.decode, if_neg (not_not_intro hlen), hts, hcts, hprev]
  rw [show obSnapshotIndicators.decodeBlob = ObSnapshotIndicatorsPoint.decodeBlob from rfl,
    show obSnapshotIndicators.encodeBlob p = encodeSides p.bids p.asks from rfl,
    ObSnapshotIndicatorsPoint.decodeBlob, hdecode, Option.map_some, decodeSides_encodeSides hb ha]

/-- An indicators point reads back unless an optional integer is `i64::MIN`. -/
theorem obSnapshotIndicators_readsBack_iff {p : ObSnapshotIndicatorsPoint}
    (hb : p.bids.length < 256 ^ 4) (ha : p.asks.length < 256 ^ 4) :
    obSnapshotIndicators.ReadsBack p ↔
      p.cts ≠ some Int64.minValue ∧ p.prevChangeId ≠ some Int64.minValue := by
  rw [← optI64Dec_optI64Enc_iff, ← optI64Dec_optI64Enc_iff]
  constructor
  · intro h
    have hp := h 0 0
    rw [decodeBlob_obSnapshotIndicators hb ha, Option.some.injEq] at hp
    exact ⟨congrArg ObSnapshotIndicatorsPoint.cts hp,
      congrArg ObSnapshotIndicatorsPoint.prevChangeId hp⟩
  · rintro ⟨hcts, hprev⟩ off len
    rw [decodeBlob_obSnapshotIndicators hb ha, hcts, hprev]

/-! ## `FootprintPoint` -/

/-- `FootprintPoint` (`footprint.rs` lines 29–43). -/
structure FootprintPoint where
  openTime : Int64
  open_ : F64
  high : F64
  low : F64
  close : F64
  volume : F64
  levels : List (F64 × F64 × F64)
  deriving DecidableEq

/-- `FootprintPoint::decode` (`footprint.rs` lines 65–80). -/
def FootprintPoint.decode (bytes : Bytes) : Option FootprintPoint :=
  if bytes.length ≠ 60 then none
  else some { openTime := i64OfLe (slice bytes 0 8), open_ := f64OfLe (slice bytes 8 8),
              high := f64OfLe (slice bytes 16 8), low := f64OfLe (slice bytes 24 8),
              close := f64OfLe (slice bytes 32 8), volume := f64OfLe (slice bytes 40 8),
              levels := [] }

/-- `FootprintPoint::decode_blob` (`footprint.rs` lines 99–122). -/
def FootprintPoint.decodeBlob (header blob : Bytes) : Option FootprintPoint :=
  (FootprintPoint.decode header).map fun p =>
    match decodeCounted footprintItem blob with
    | none => p
    | some (levels, _) => { p with levels := levels }

/-- `impl DataPoint for FootprintPoint` (`footprint.rs` lines 53–126). -/
def footprint : BlobCodec FootprintPoint where
  size := 60
  tailOff := 48
  fields p := [(0, i64ToLe p.openTime), (8, f64ToLe p.open_), (16, f64ToLe p.high),
    (24, f64ToLe p.low), (32, f64ToLe p.close), (40, f64ToLe p.volume)]
  inOrder p := by simp [InOrder]
  tail_le := by decide
  decode := FootprintPoint.decode
  timestampMs p := p.openTime
  encodeBlob p := encodeCounted footprintItem p.levels
  decodeBlob := FootprintPoint.decodeBlob

theorem footprint_readsBack {p : FootprintPoint} (h : p.levels.length < 256 ^ 4) :
    footprint.ReadsBack p := by
  intro off len
  have hlen : (footprint.header p off len).length = 60 := footprint.length_header p off len
  have hfields : footprint.fields p = [(0, i64ToLe p.openTime), (8, f64ToLe p.open_),
    (16, f64ToLe p.high), (24, f64ToLe p.low), (32, f64ToLe p.close), (40, f64ToLe p.volume)] :=
    rfl
  have hts := footprint.i64OfLe_header (p := p) (a := 0) (x := p.openTime) (by simp [hfields])
    off len
  have hf : ∀ {a : ℕ} {x : F64}, (a, f64ToLe x) ∈ footprint.fields p →
      f64OfLe (slice (footprint.header p off len) a 8) = x :=
    fun hmem => footprint.f64OfLe_header hmem off len
  have hblob := decodeCounted_encodeCounted_append footprintItem h []
  rw [List.append_nil] at hblob
  have hdecode : FootprintPoint.decode (footprint.header p off len) =
      some { p with levels := [] } := by
    rw [FootprintPoint.decode, if_neg (not_not_intro hlen), hts,
      hf (x := p.open_) (by simp [hfields]), hf (x := p.high) (by simp [hfields]),
      hf (x := p.low) (by simp [hfields]), hf (x := p.close) (by simp [hfields]),
      hf (x := p.volume) (by simp [hfields])]
  rw [show footprint.decodeBlob = FootprintPoint.decodeBlob from rfl,
    show footprint.encodeBlob p = encodeCounted footprintItem p.levels from rfl,
    FootprintPoint.decodeBlob, hdecode, Option.map_some, hblob]

end Digdigdig3.Data
