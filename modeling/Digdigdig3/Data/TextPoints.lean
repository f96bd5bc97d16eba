import Digdigdig3.Data.Header
import Digdigdig3.Lib.Utf8

/-!
# Points with two strings in their blob

The codecs of `OrderbookL3Point` and `MarketWarningPoint`
(`crates/digdigdig3-station/src/data/`). A string is written in full behind its length
`as u16`, and read back as far as that length goes.

* `decodeTexts_encodeTexts_iff`: the strings read back when both are shorter than 64 KiB.
* `orderbookL3_readsBack_iff`, `marketWarning_readsBack_iff`: so do the points.
-/

namespace Digdigdig3.Data

/-! ## The two strings -/

/-- A string behind its length (`orderbook_l3.rs` lines 80–81, `market_warning.rs`
    lines 58–59). -/
def encodeText (s : String) : Bytes := toLe 2 (utf8 s).length ++ utf8 s

/-- The blob of two strings (`orderbook_l3.rs` lines 76–85, `market_warning.rs`
    lines 54–63). -/
def encodeTexts (s t : String) : Bytes := encodeText s ++ encodeText t

/-- Read the string at `cur`, if it is there in full, in place of `s`, and go on behind it
    (`orderbook_l3.rs` lines 90–97, `market_warning.rs` lines 68–75). -/
def decodeText (s : String) (blob : Bytes) (cur : ℕ) : String × ℕ :=
  if blob.length ≥ cur + 2 then
    let l := ofLe (slice blob cur 2)
    let cur := cur + 2
    if blob.length ≥ cur + l then (fromUtf8Lossy (slice blob cur l), cur + l) else (s, cur)
  else (s, cur)

/-- Read both strings, in place of `s` and `t` (`orderbook_l3.rs` lines 89–104,
    `market_warning.rs` lines 67–82). -/
def decodeTexts (s t : String) (blob : Bytes) : String × String :=
  let r := decodeText s blob 0
  (r.1, (decodeText t blob r.2).1)

/-- A string reads back up to its length modulo `2^16`. -/
theorem decodeText_append (s₀ s : String) (pre rest : Bytes) :
    decodeText s₀ (pre ++ (encodeText s ++ rest)) pre.length =
      (fromUtf8Lossy ((utf8 s).take ((utf8 s).length % 256 ^ 2)),
        pre.length + 2 + (utf8 s).length % 256 ^ 2) := by
  have hle : (utf8 s).length % 256 ^ 2 ≤ (utf8 s).length := Nat.mod_le _ _
  have hlen := slice_append_mid pre (toLe 2 (utf8 s).length) (utf8 s ++ rest)
  have hbody := slice_append_take (pre ++ toLe 2 (utf8 s).length) rest hle
  rw [length_toLe] at hlen
  rw [List.length_append, length_toLe, List.append_assoc] at hbody
  rw [encodeText, List.append_assoc, decodeText, if_pos (by simp), hlen, ofLe_toLe]
  simp only
  rw [if_pos (by simp only [List.length_append, length_toLe]; omega), hbody]

theorem decodeText_encodeText {s : String} (h : (utf8 s).length < 256 ^ 2) (s₀ : String)
    (pre rest : Bytes) :
    decodeText s₀ (pre ++ (encodeText s ++ rest)) pre.length =
      (s, (pre ++ encodeText s).length) := by
  rw [decodeText_append, Nat.mod_eq_of_lt h, List.take_length, fromUtf8Lossy_utf8,
    List.length_append, encodeText, List.length_append, length_toLe, Nat.add_assoc]

/-- A string of `2^16` bytes or more does not read back: its length is cut by a multiple of
    `2^16`. -/
theorem decodeText_ne {s : String} (h : 256 ^ 2 ≤ (utf8 s).length) (s₀ : String)
    (pre rest : Bytes) :
    (decodeText s₀ (pre ++ (encodeText s ++ rest)) pre.length).1 ≠ s := by
  rw [decodeText_append]
  apply fromUtf8Lossy_take_ne
  omega

theorem decodeTexts_encodeTexts_iff (s₀ t₀ s t : String) :
    decodeTexts s₀ t₀ (encodeTexts s t) = (s, t) ↔
      (utf8 s).length < 256 ^ 2 ∧ (utf8 t).length < 256 ^ 2 := by
  by_cases hs : (utf8 s).length < 256 ^ 2
  · have hfirst : decodeText s₀ (encodeTexts s t) 0 = (s, (encodeText s).length) :=
      decodeText_encodeText hs s₀ [] (encodeText t)
    have hblob : encodeTexts s t = encodeText s ++ (encodeText t ++ []) := by
      rw [encodeTexts, List.append_nil]
    rw [decodeTexts, hfirst]
    simp only [Prod.mk.injEq, true_and, hs]
    constructor
    · intro h
      by_contra ht
      rw [hblob] at h
      exact decodeText_ne (not_lt.mp ht) _ _ _ h
    · intro ht
      rw [hblob, decodeText_encodeText ht]
  · have hfirst : (decodeText s₀ (encodeTexts s t) 0).1 ≠ s :=
      decodeText_ne (not_lt.mp hs) s₀ [] (encodeText t)
    constructor
    · intro h
      exact absurd (congrArg Prod.fst h) hfirst
    · exact fun h => absurd h.1 hs

/-! ## `OrderbookL3Point` -/

/-- `OrderSide` (`core/types/trading.rs` lines 30–33). -/
inductive OrderSide
  | buy
  | sell
  deriving DecidableEq

/-- `OrderbookL3Point` (`orderbook_l3.rs` lines 12–20). -/
structure OrderbookL3Point where
  tsMs : Int64
  side : OrderSide
  orderId : String
  price : F64
  quantity : F64
  action : String
  deriving DecidableEq

/-- The byte of a side (`orderbook_l3.rs` lines 31–34). -/
def sideByte : OrderSide → Byte
  | .buy => byteOf 0
  | .sell => byteOf 1

/-- The side of a byte (`orderbook_l3.rs` line 41). -/
def sideOfByte (b : Byte) : OrderSide := if b.val = 0 then .buy else .sell

theorem sideOfByte_sideByte (s : OrderSide) : sideOfByte (sideByte s) = s := by
  cases s <;> rfl

/-- `OrderbookL3Point::decode` (`orderbook_l3.rs` lines 37–47). -/
def OrderbookL3Point.decode (bytes : Bytes) : Option OrderbookL3Point :=
  if bytes.length ≠ 44 then none
  else some { tsMs := i64OfLe (slice bytes 0 8), side := sideOfByte (bytes.getD 24 (byteOf 0)),
              orderId := "", price := f64OfLe (slice bytes 8 8),
              quantity := f64OfLe (slice bytes 16 8), action := "" }

/-- `OrderbookL3Point::decode_blob` (`orderbook_l3.rs` lines 87–106). -/
def OrderbookL3Point.decodeBlob (header blob : Bytes) : Option OrderbookL3Point :=
  (OrderbookL3Point.decode header).map fun p =>
    let texts := decodeTexts p.orderId p.action blob
    { p with orderId := texts.1, action := texts.2 }

/-- `impl DataPoint for OrderbookL3Point` (`orderbook_l3.rs` lines 24–109). -/
def orderbookL3 : BlobCodec OrderbookL3Point where
  size := 44
  tailOff := 32
  fields p := [(0, i64ToLe p.tsMs), (8, f64ToLe p.price), (16, f64ToLe p.quantity),
    (24, [sideByte p.side])]
  inOrder p := by simp [InOrder]
  tail_le := by decide
  decode := OrderbookL3Point.decode
  timestampMs p := p.tsMs
  encodeBlob p := encodeTexts p.orderId p.action
  decodeBlob := OrderbookL3Point.decodeBlob

theorem decodeBlob_orderbookL3 (p : OrderbookL3Point) (off len : ℕ) :
    orderbookL3.decodeBlob (orderbookL3.header p off len) (orderbookL3.encodeBlob p) =
      some { p with
        orderId := (decodeTexts "" "" (encodeTexts p.orderId p.action)).1,
        action := (decodeTexts "" "" (encodeTexts p.orderId p.action)).2 } := by
  have hlen : (orderbookL3.header p off len).length = 44 := orderbookL3.length_header p off len
  have hfields : orderbookL3.fields p = [(0, i64ToLe p.tsMs), (8, f64ToLe p.price),
    (16, f64ToLe p.quantity), (24, [sideByte p.side])] := rfl
  have hts := orderbookL3.i64OfLe_header (p := p) (a := 0) (x := p.tsMs) (by simp [hfields])
    off len
  have hprice := orderbookL3.f64OfLe_header (p := p) (a := 8) (x := p.price) (by simp [hfields])
    off len
  have hquantity := orderbookL3.f64OfLe_header (p := p) (a := 16) (x := p.quantity)
    (by simp [hfields]) off len
  have hside : (orderbookL3.header p off len).getD 24 (byteOf 0) = sideByte p.side := by
    have hslice := orderbookL3.slice_header (p := p) (f := (24, [sideByte p.side]))
      (by simp [hfields]) off len
    have hget : (orderbookL3.header p off len)[24]? = some (sideByte p.side) := by
      have hfirst := congrArg (fun l : Bytes => l[0]?) hslice
      simp only [getElem?_slice] at hfirst
      exact hfirst
    rw [List.getD_eq_getElem?_getD, hget]
    rfl
  have hdecode : OrderbookL3Point.decode (orderbookL3.header p off len) =
      some { p with orderId := "", action := "" } := by
    rw [OrderbookL3Point.decode, if_neg (not_not_intro hlen), hts, hprice, hquantity, hside,
      sideOfByte_sideByte]
  rw [show orderbookL3.decodeBlob = OrderbookL3Point.decodeBlob from rfl,
    show orderbookL3.encodeBlob p = encodeTexts p.orderId p.action from rfl,
    OrderbookL3Point.decodeBlob, hdecode, Option.map_some]

/-- An L3 update reads back when both of its strings are shorter than 64 KiB. -/
theorem orderbookL3_readsBack_iff (p : OrderbookL3Point) :
    orderbookL3.ReadsBack p ↔
      (utf8 p.orderId).length < 256 ^ 2 ∧ (utf8 p.action).length < 256 ^ 2 := by
  rw [← decodeTexts_encodeTexts_iff "" "" p.orderId p.action]
  constructor
  · intro h
    have hp := h 0 0
    rw [decodeBlob_orderbookL3, Option.some.injEq] at hp
    exact Prod.ext (congrArg OrderbookL3Point.orderId hp) (congrArg OrderbookL3Point.action hp)
  · intro h off len
    rw [decodeBlob_orderbookL3, h]

/-! ## `MarketWarningPoint` -/

/-- `MarketWarningPoint` (`market_warning.rs` lines 16–20). -/
structure MarketWarningPoint where
  tsMs : Int64
  warningKind : String
  message : String
  deriving DecidableEq

/-- `TAIL_OFFSET` (`market_warning.rs` line 22). -/
def MarketWarningPoint.tailOffset : ℕ := 8

/-- `MarketWarningPoint::decode` (`market_warning.rs` lines 31–38). -/
def MarketWarningPoint.decode (bytes : Bytes) : Option MarketWarningPoint :=
  if bytes.length ≠ 20 then none
  else some { tsMs := i64OfLe (slice bytes 0 8), warningKind := "", message := "" }

/-- `MarketWarningPoint::decode_blob` (`market_warning.rs` lines 65–84). -/
def MarketWarningPoint.decodeBlob (header blob : Bytes) : Option MarketWarningPoint :=
  (MarketWarningPoint.decode header).map fun p =>
    let texts := decodeTexts p.warningKind p.message blob
    { p with warningKind := texts.1, message := texts.2 }

/-- `impl DataPoint for MarketWarningPoint` (`market_warning.rs` lines 24–87). -/
def marketWarning : BlobCodec MarketWarningPoint where
  size := 20
  tailOff := MarketWarningPoint.tailOffset
  fields p := [(0, i64ToLe p.tsMs)]
  inOrder p := by simp [InOrder, MarketWarningPoint.tailOffset]
  tail_le := by decide
  decode := MarketWarningPoint.decode
  timestampMs p := p.tsMs
  encodeBlob p := encodeTexts p.warningKind p.message
  decodeBlob := MarketWarningPoint.decodeBlob

theorem decodeBlob_marketWarning (p : MarketWarningPoint) (off len : ℕ) :
    marketWarning.decodeBlob (marketWarning.header p off len) (marketWarning.encodeBlob p) =
      some { p with
        warningKind := (decodeTexts "" "" (encodeTexts p.warningKind p.message)).1,
        message := (decodeTexts "" "" (encodeTexts p.warningKind p.message)).2 } := by
  have hlen : (marketWarning.header p off len).length = 20 :=
    marketWarning.length_header p off len
  have hts := marketWarning.i64OfLe_header (x := p.tsMs) (List.mem_singleton.mpr rfl) off len
  have hdecode : MarketWarningPoint.decode (marketWarning.header p off len) =
      some { p with warningKind := "", message := "" } := by
    rw [MarketWarningPoint.decode, if_neg (not_not_intro hlen), hts]
  rw [show marketWarning.decodeBlob = MarketWarningPoint.decodeBlob from rfl,
    show marketWarning.encodeBlob p = encodeTexts p.warningKind p.message from rfl,
    MarketWarningPoint.decodeBlob, hdecode, Option.map_some]

/-- A warning reads back when both of its strings are shorter than 64 KiB. -/
theorem marketWarning_readsBack_iff (p : MarketWarningPoint) :
    marketWarning.ReadsBack p ↔
      (utf8 p.warningKind).length < 256 ^ 2 ∧ (utf8 p.message).length < 256 ^ 2 := by
  rw [← decodeTexts_encodeTexts_iff "" "" p.warningKind p.message]
  constructor
  · intro h
    have hp := h 0 0
    rw [decodeBlob_marketWarning, Option.some.injEq] at hp
    exact Prod.ext (congrArg MarketWarningPoint.warningKind hp)
      (congrArg MarketWarningPoint.message hp)
  · intro h off len
    rw [decodeBlob_marketWarning, h]

end Digdigdig3.Data
