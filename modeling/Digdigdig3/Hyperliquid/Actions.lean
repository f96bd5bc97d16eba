import Digdigdig3.Lib.Msgpack

/-!
# Signed actions of Hyperliquid

The msgpack encoders of the L1 actions, whose bytes are hashed for the signature
(`crates/digdigdig3/src/l3/open/crypto/dex/hyperliquid/auth.rs`).

* `msgpackAction_eq`: what is written is the encoding of a value.
-/

namespace Digdigdig3.Hyperliquid

open Msgpack (Value toBe)

/-! ## `MsgpackEncoder` -/

/-- `MsgpackEncoder` (lines 41–54). -/
structure MsgpackEncoder where
  buf : Bytes

namespace MsgpackEncoder

def new : MsgpackEncoder := ⟨[]⟩

def finish (enc : MsgpackEncoder) : Bytes := enc.buf

/-- `buf.extend_from_slice`. -/
def extend (enc : MsgpackEncoder) (bs : Bytes) : MsgpackEncoder := ⟨enc.buf ++ bs⟩

/-- Lines 56–58. -/
def writeNil (enc : MsgpackEncoder) : MsgpackEncoder := enc.extend [byteOf 0xc0]

/-- Lines 60–62. -/
def writeBool (enc : MsgpackEncoder) (v : Bool) : MsgpackEncoder :=
  enc.extend [byteOf (if v then 0xc3 else 0xc2)]

/-- Lines 64–80. -/
def writeUint (enc : MsgpackEncoder) (v : UInt64) : MsgpackEncoder :=
  if v ≤ 0x7f then enc.extend (toBe 1 v.toNat)
  else if v ≤ 0xff then enc.extend (byteOf 0xcc :: toBe 1 v.toNat)
  else if v ≤ 0xffff then enc.extend (byteOf 0xcd :: toBe 2 v.toNat)
  else if v ≤ 0xffffffff then enc.extend (byteOf 0xce :: toBe 4 v.toNat)
  else enc.extend (byteOf 0xcf :: toBe 8 v.toNat)

/-- Lines 82–100: `v as u8` and its like keep the low bytes. -/
def writeInt (enc : MsgpackEncoder) (v : Int64) : MsgpackEncoder :=
  if 0 ≤ v then enc.writeUint v.toUInt64
  else if -32 ≤ v then enc.extend (toBe 1 v.toBitVec.toNat)
  else if -128 ≤ v then enc.extend (byteOf 0xd0 :: toBe 1 v.toBitVec.toNat)
  else if -32768 ≤ v then enc.extend (byteOf 0xd1 :: toBe 2 v.toBitVec.toNat)
  else if -2147483648 ≤ v then enc.extend (byteOf 0xd2 :: toBe 4 v.toBitVec.toNat)
  else enc.extend (byteOf 0xd3 :: toBe 8 v.toBitVec.toNat)

/-- Lines 102–118. -/
def writeStr (enc : MsgpackEncoder) (s : String) : MsgpackEncoder :=
  let bytes := utf8 s
  let len := bytes.length
  let enc :=
    if len ≤ 31 then enc.extend [byteOf (0xa0 ||| len)]
    else if len ≤ 0xff then enc.extend (byteOf 0xd9 :: toBe 1 len)
    else if len ≤ 0xffff then enc.extend (byteOf 0xda :: toBe 2 len)
    else enc.extend (byteOf 0xdb :: toBe 4 len)
  enc.extend bytes

/-- Lines 120–133. -/
def writeBin (enc : MsgpackEncoder) (data : Bytes) : MsgpackEncoder :=
  let len := data.length
  let enc :=
    if len ≤ 0xff then enc.extend (byteOf 0xc4 :: toBe 1 len)
    else if len ≤ 0xffff then enc.extend (byteOf 0xc5 :: toBe 2 len)
    else enc.extend (byteOf 0xc6 :: toBe 4 len)
  enc.extend data

/-- Lines 135–145. -/
def beginMap (enc : MsgpackEncoder) (n : ℕ) : MsgpackEncoder :=
  if n ≤ 15 then enc.extend [byteOf (0x80 ||| n)]
  else if n ≤ 0xffff then enc.extend (byteOf 0xde :: toBe 2 n)
  else enc.extend (byteOf 0xdf :: toBe 4 n)

/-- Lines 147–157. -/
def beginArray (enc : MsgpackEncoder) (n : ℕ) : MsgpackEncoder :=
  if n ≤ 15 then enc.extend [byteOf (0x90 ||| n)]
  else if n ≤ 0xffff then enc.extend (byteOf 0xdc :: toBe 2 n)
  else enc.extend (byteOf 0xdd :: toBe 4 n)

end MsgpackEncoder

/-! ## Actions -/

/-- `HlTif` (lines 191–209). -/
inductive HlTif
  | gtc
  | alo
  | ioc
  | fok

def HlTif.asStr : HlTif → String
  | .gtc => "Gtc"
  | .alo => "Alo"
  | .ioc => "Ioc"
  | .fok => "Fok"

/-- `HlOrderType` (lines 184–189). -/
inductive HlOrderType
  | limit (tif : HlTif)
  | trigger (triggerPx : String) (isMarket : Bool) (tpsl : String)

/-- `HlOrder` (lines 164–182), with its client order id as a `Cloid`. -/
structure HlOrder (Cloid : Type) where
  a : UInt32
  b : Bool
  p : String
  s : String
  r : Bool
  t : HlOrderType
  c : Option Cloid

/-- The L1 actions with the arguments of their signers (lines 657–862). -/
inductive L1Action (Cloid : Type)
  | order (orders : List (HlOrder Cloid)) (grouping : String)
  | cancel (cancels : List (UInt32 × UInt64))
  | modify (oid : UInt64) (order : HlOrder Cloid)
  | batchModify (modifies : List (UInt64 × HlOrder Cloid))
  | updateLeverage (asset : UInt32) (isCross : Bool) (leverage : UInt32)
  | updateIsolatedMargin (asset : UInt32) (isBuy : Bool) (ntli : Int64)
  | twapOrder (asset : UInt32) (isBuy : Bool) (size : String) (reduceOnly : Bool)
      (durationMinutes : UInt64)
  | usdClassTransfer (amount : String) (toPerp : Bool)

/-! ## Client order ids -/

/-- `trim_start_matches("0x")`. -/
def trimStart0x : List Char → List Char
  | '0' :: 'x' :: cs => trimStart0x cs
  | cs => cs

/-- A digit of `hex::decode`. -/
def hexDigit (c : Char) : Option ℕ :=
  if '0' ≤ c ∧ c ≤ '9' then some (c.toNat - '0'.toNat)
  else if 'a' ≤ c ∧ c ≤ 'f' then some (c.toNat - 'a'.toNat + 10)
  else if 'A' ≤ c ∧ c ≤ 'F' then some (c.toNat - 'A'.toNat + 10)
  else none

/-- `hex::decode`; an error is `none`. -/
def hexDecode : List Char → Option Bytes
  | [] => some []
  | [_] => none
  | c :: d :: cs => do
    let high ← hexDigit c
    let low ← hexDigit d
    let rest ← hexDecode cs
    return byteOf (16 * high + low) :: rest

/-- The bytes of a client order id, or `none` where it is not hexadecimal (lines 250–255). -/
def cloidBytes (cloid : String) : Option Bytes := hexDecode (trimStart0x cloid.toList)

/-! ## The msgpack encoders -/

/-- `msgpack_order_type` (lines 270–292). -/
def msgpackOrderType (enc : MsgpackEncoder) : HlOrderType → MsgpackEncoder
  | .limit tif =>
    ((((enc.beginMap 1).writeStr "limit").beginMap 1).writeStr "tif").writeStr tif.asStr
  | .trigger triggerPx isMarket tpsl =>
    (((((((enc.beginMap 1).writeStr "trigger").beginMap 3).writeStr "isMarket").writeBool
      isMarket).writeStr "tpsl").writeStr tpsl).writeStr "triggerPx" |>.writeStr triggerPx

/-- The field `c` of an order (lines 248–256). -/
def msgpackCloid (enc : MsgpackEncoder) : Option String → MsgpackEncoder
  | none => enc
  | some cloid =>
    match cloidBytes cloid with
    | some bytes => (enc.writeStr "c").writeBin bytes
    | none => (enc.writeStr "c").writeNil

/-- `msgpack_order` (lines 237–268). -/
def msgpackOrder (enc : MsgpackEncoder) (order : HlOrder String) : MsgpackEncoder :=
  let n := if order.c.isSome then 7 else 6
  let enc := (((enc.beginMap n).writeStr "a").writeUint order.a.toUInt64).writeStr "b"
  let enc := msgpackCloid (enc.writeBool order.b) order.c
  let enc := ((enc.writeStr "p").writeStr order.p).writeStr "r"
  let enc := ((enc.writeBool order.r).writeStr "s").writeStr order.s
  msgpackOrderType (enc.writeStr "t") order.t

/-- `msgpack_order_action` (lines 217–235). -/
def msgpackOrderAction (orders : List (HlOrder String)) (grouping : String) : Bytes :=
  let enc := ((MsgpackEncoder.new.beginMap 3).writeStr "grouping").writeStr grouping
  let enc := (enc.writeStr "orders").beginArray orders.length
  let enc := orders.foldl msgpackOrder enc
  ((enc.writeStr "type").writeStr "order").finish

/-- `msgpack_cancel_action` (lines 294–314). -/
def msgpackCancelAction (cancels : List (UInt32 × UInt64)) : Bytes :=
  let enc := ((MsgpackEncoder.new.beginMap 2).writeStr "cancels").beginArray cancels.length
  let enc := cancels.foldl (fun enc cancel =>
    ((((enc.beginMap 2).writeStr "a").writeUint cancel.1.toUInt64).writeStr "o").writeUint
      cancel.2) enc
  ((enc.writeStr "type").writeStr "cancel").finish

/-- `msgpack_modify_action` (lines 316–331). -/
def msgpackModifyAction (oid : UInt64) (order : HlOrder String) : Bytes :=
  let enc := ((MsgpackEncoder.new.beginMap 3).writeStr "oid").writeUint oid
  let enc := msgpackOrder (enc.writeStr "order") order
  ((enc.writeStr "type").writeStr "modify").finish

/-- `msgpack_batch_modify_action` (lines 333–353). -/
def msgpackBatchModifyAction (modifies : List (UInt64 × HlOrder String)) : Bytes :=
  let enc := ((MsgpackEncoder.new.beginMap 2).writeStr "modifies").beginArray modifies.length
  let enc := modifies.foldl (fun enc modify =>
    msgpackOrder ((((enc.beginMap 2).writeStr "oid").writeUint modify.1).writeStr "order")
      modify.2) enc
  ((enc.writeStr "type").writeStr "batchModify").finish

/-- `msgpack_update_leverage_action` (lines 355–373). -/
def msgpackUpdateLeverageAction (asset : UInt32) (isCross : Bool) (leverage : UInt32) : Bytes :=
  let enc := ((MsgpackEncoder.new.beginMap 4).writeStr "asset").writeUint asset.toUInt64
  let enc := ((enc.writeStr "isCross").writeBool isCross).writeStr "leverage"
  (((enc.writeUint leverage.toUInt64).writeStr "type").writeStr "updateLeverage").finish

/-- `msgpack_update_isolated_margin_action` (lines 375–393). -/
def msgpackUpdateIsolatedMarginAction (asset : UInt32) (isBuy : Bool) (ntli : Int64) : Bytes :=
  let enc := ((MsgpackEncoder.new.beginMap 4).writeStr "asset").writeUint asset.toUInt64
  let enc := ((enc.writeStr "isBuy").writeBool isBuy).writeStr "ntli"
  (((enc.writeInt ntli).writeStr "type").writeStr "updateIsolatedMargin").finish

/-- `msgpack_usd_class_transfer_action` (lines 395–411). -/
def msgpackUsdClassTransferAction (amount : String) (toPerp : Bool) : Bytes :=
  let enc := ((MsgpackEncoder.new.beginMap 3).writeStr "amount").writeStr amount
  let enc := (enc.writeStr "toPerp").writeBool toPerp
  ((enc.writeStr "type").writeStr "usdClassTransfer").finish

/-- `msgpack_twap_action` (lines 413–447). -/
def msgpackTwapAction (asset : UInt32) (isBuy : Bool) (size : String) (reduceOnly : Bool)
    (durationMinutes : UInt64) : Bytes :=
  let enc := ((MsgpackEncoder.new.beginMap 2).writeStr "twap").beginMap 5
  let enc := (((enc.writeStr "a").writeUint asset.toUInt64).writeStr "b").writeBool isBuy
  let enc := (((enc.writeStr "m").writeUint durationMinutes).writeStr "r").writeBool reduceOnly
  let enc := (enc.writeStr "s").writeStr size
  ((enc.writeStr "type").writeStr "twapOrder").finish

/-- The bytes that the signer of an action hashes (lines 657–862). -/
def msgpackAction : L1Action String → Bytes
  | .order orders grouping => msgpackOrderAction orders grouping
  | .cancel cancels => msgpackCancelAction cancels
  | .modify oid order => msgpackModifyAction oid order
  | .batchModify modifies => msgpackBatchModifyAction modifies
  | .updateLeverage asset isCross leverage => msgpackUpdateLeverageAction asset isCross leverage
  | .updateIsolatedMargin asset isBuy ntli => msgpackUpdateIsolatedMarginAction asset isBuy ntli
  | .twapOrder asset isBuy size reduceOnly durationMinutes =>
    msgpackTwapAction asset isBuy size reduceOnly durationMinutes
  | .usdClassTransfer amount toPerp => msgpackUsdClassTransferAction amount toPerp

/-! ## The value that is written -/

/-- `f` on the client order id. -/
def HlOrder.mapCloid {C D : Type} (f : C → D) (order : HlOrder C) : HlOrder D :=
  { order with c := order.c.map f }

/-- `f` on all client order ids. -/
def L1Action.mapCloid {C D : Type} (f : C → D) : L1Action C → L1Action D
  | .order orders grouping => .order (orders.map (HlOrder.mapCloid f)) grouping
  | .cancel cancels => .cancel cancels
  | .modify oid o => .modify oid (o.mapCloid f)
  | .batchModify modifies =>
    .batchModify (modifies.map fun modify => (modify.1, modify.2.mapCloid f))
  | .updateLeverage asset isCross leverage => .updateLeverage asset isCross leverage
  | .updateIsolatedMargin asset isBuy ntli => .updateIsolatedMargin asset isBuy ntli
  | .twapOrder asset isBuy size reduceOnly durationMinutes =>
    .twapOrder asset isBuy size reduceOnly durationMinutes
  | .usdClassTransfer amount toPerp => .usdClassTransfer amount toPerp

def orderTypeValue : HlOrderType → Value
  | .limit tif => .object [("limit", .object [("tif", .str tif.asStr)])]
  | .trigger triggerPx isMarket tpsl =>
    .object [("trigger", .object [("isMarket", .bool isMarket), ("tpsl", .str tpsl),
      ("triggerPx", .str triggerPx)])]

/-- The bytes of a client order id, or nil. -/
def cloidValue : Option Bytes → Value
  | some bytes => .bin bytes
  | none => .nil

def orderValue (order : HlOrder (Option Bytes)) : Value :=
  .object ([("a", .int order.a.toNat), ("b", .bool order.b)] ++
    (order.c.map fun cloid => ("c", cloidValue cloid)).toList ++
    [("p", .str order.p), ("r", .bool order.r), ("s", .str order.s), ("t", orderTypeValue order.t)])

def cancelValue (cancel : UInt32 × UInt64) : Value :=
  .object [("a", .int cancel.1.toNat), ("o", .int cancel.2.toNat)]

def modifyValue (modify : UInt64 × HlOrder (Option Bytes)) : Value :=
  .object [("oid", .int modify.1.toNat), ("order", orderValue modify.2)]

/-- The value of an action whose client order ids are decoded. -/
def actionValue : L1Action (Option Bytes) → Value
  | .order orders grouping =>
    .object [("grouping", .str grouping), ("orders", .array (orders.map orderValue)),
      ("type", .str "order")]
  | .cancel cancels =>
    .object [("cancels", .array (cancels.map cancelValue)), ("type", .str "cancel")]
  | .modify oid order =>
    .object [("oid", .int oid.toNat), ("order", orderValue order), ("type", .str "modify")]
  | .batchModify modifies =>
    .object [("modifies", .array (modifies.map modifyValue)), ("type", .str "batchModify")]
  | .updateLeverage asset isCross leverage =>
    .object [("asset", .int asset.toNat), ("isCross", .bool isCross),
      ("leverage", .int leverage.toNat), ("type", .str "updateLeverage")]
  | .updateIsolatedMargin asset isBuy ntli =>
    .object [("asset", .int asset.toNat), ("isBuy", .bool isBuy), ("ntli", .int ntli.toInt),
      ("type", .str "updateIsolatedMargin")]
  | .twapOrder asset isBuy size reduceOnly durationMinutes =>
    .object [("twap", .object [("a", .int asset.toNat), ("b", .bool isBuy),
      ("m", .int durationMinutes.toNat), ("r", .bool reduceOnly), ("s", .str size)]),
      ("type", .str "twapOrder")]
  | .usdClassTransfer amount toPerp =>
    .object [("amount", .str amount), ("toPerp", .bool toPerp), ("type", .str "usdClassTransfer")]

/-! ### Writers -/

namespace MsgpackEncoder

@[simp] theorem extend_extend (enc : MsgpackEncoder) (xs ys : Bytes) :
    (enc.extend xs).extend ys = enc.extend (xs ++ ys) := by
  rw [extend, extend, extend, List.append_assoc]

@[simp] theorem writeNil_eq (enc : MsgpackEncoder) :
    enc.writeNil = enc.extend (Msgpack.encode .nil) := by
  rw [writeNil, Msgpack.encode]

@[simp] theorem writeBool_eq (enc : MsgpackEncoder) (v : Bool) :
    enc.writeBool v = enc.extend (Msgpack.encode (.bool v)) := by
  rw [writeBool, Msgpack.encode]

@[simp] theorem writeUint_eq (enc : MsgpackEncoder) (v : UInt64) :
    enc.writeUint v = enc.extend (Msgpack.encode (.int v.toNat)) := by
  have hcast : Msgpack.encode (.int v.toNat) = Msgpack.encodeNat v.toNat := by
    rw [Msgpack.encode, Msgpack.encodeInt, if_pos (by omega), Int.toNat_natCast]
  have h1 : v ≤ 0x7f ↔ v.toNat ≤ 0x7f := UInt64.le_iff_toNat_le
  have h2 : v ≤ 0xff ↔ v.toNat ≤ 0xff := UInt64.le_iff_toNat_le
  have h3 : v ≤ 0xffff ↔ v.toNat ≤ 0xffff := UInt64.le_iff_toNat_le
  have h4 : v ≤ 0xffffffff ↔ v.toNat ≤ 0xffffffff := UInt64.le_iff_toNat_le
  rw [hcast, writeUint, Msgpack.encodeNat]
  simp only [h1, h2, h3, h4]
  split_ifs <;> rfl

theorem toBitVec_toNat_of_nonneg {v : Int64} (h : 0 ≤ v.toInt) :
    (v.toBitVec.toNat : ℤ) = v.toInt := by
  have hcond := BitVec.toInt_eq_toNat_cond v.toBitVec
  have hlt := v.toBitVec.isLt
  have hint : v.toInt = v.toBitVec.toInt := rfl
  split_ifs at hcond <;> omega

theorem toBitVec_toNat_of_neg {v : Int64} (h : v.toInt < 0) :
    (v.toBitVec.toNat : ℤ) = v.toInt + 2 ^ 64 := by
  have hcond := BitVec.toInt_eq_toNat_cond v.toBitVec
  have hlt := v.toBitVec.isLt
  have hint : v.toInt = v.toBitVec.toInt := rfl
  split_ifs at hcond <;> omega

@[simp] theorem writeInt_eq (enc : MsgpackEncoder) (v : Int64) :
    enc.writeInt v = enc.extend (Msgpack.encode (.int v.toInt)) := by
  have hlow := Int64.le_toInt v
  have h0 : 0 ≤ v ↔ 0 ≤ v.toInt := Int64.le_iff_toInt_le
  have h1 : -32 ≤ v ↔ -32 ≤ v.toInt := Int64.le_iff_toInt_le
  have h2 : -128 ≤ v ↔ -128 ≤ v.toInt := Int64.le_iff_toInt_le
  have h3 : -32768 ≤ v ↔ -32768 ≤ v.toInt := Int64.le_iff_toInt_le
  have h4 : -2147483648 ≤ v ↔ -2147483648 ≤ v.toInt := Int64.le_iff_toInt_le
  rw [writeInt, Msgpack.encode, Msgpack.encodeInt]
  simp only [h0, h1, h2, h3, h4]
  -- the low bytes of the two's complement of 64 bits
  have hlowbytes : ∀ w, 0 < w → w ≤ 8 → v.toInt < 0 → -(256 ^ w : ℤ) ≤ v.toInt →
      toBe w v.toBitVec.toNat = Msgpack.toBeNeg w v.toInt := by
    intro w hpos hle hneg hw
    have hnat := toBitVec_toNat_of_neg hneg
    rw [Msgpack.toBeNeg, ← Msgpack.toBe_mod w v.toBitVec.toNat, ← Msgpack.toBe_mod w (_ : ℤ).toNat]
    congr 1
    interval_cases w <;> norm_num at hw ⊢ <;> omega
  split_ifs with c0 c1 c2 c3 c4
  · have hnat : v.toUInt64.toNat = v.toInt.toNat := by
      have h := toBitVec_toNat_of_nonneg c0
      show v.toBitVec.toNat = v.toInt.toNat
      omega
    have hwrite := writeUint_eq enc v.toUInt64
    rw [hwrite, hnat, Msgpack.encode, Msgpack.encodeInt, if_pos (by omega), Int.toNat_natCast]
  · rw [hlowbytes 1 (by decide) (by decide) (by omega) (by omega)]
  · rw [hlowbytes 1 (by decide) (by decide) (by omega) (by omega)]
  · rw [hlowbytes 2 (by decide) (by decide) (by omega) (by omega)]
  · rw [hlowbytes 4 (by decide) (by decide) (by omega) (by omega)]
  · rw [hlowbytes 8 (by decide) (by decide) (by omega) (by omega)]

theorem or_eq_add {base n k : ℕ} (h : n < 2 ^ k) (hbase : base % 2 ^ k = 0) :
    base ||| n = base + n := by
  obtain ⟨m, rfl⟩ := Nat.dvd_of_mod_eq_zero hbase
  exact (Nat.two_pow_add_eq_or_of_lt h m).symm

@[simp] theorem writeStr_eq (enc : MsgpackEncoder) (s : String) :
    enc.writeStr s = enc.extend (Msgpack.encodeStr s) := by
  simp only [writeStr, Msgpack.encodeStr, Msgpack.strHead]
  split_ifs with h1 h2 h3
  · rw [or_eq_add (show (utf8 s).length < 2 ^ 5 by omega) rfl, extend_extend]
  all_goals rw [extend_extend]

@[simp] theorem writeBin_eq (enc : MsgpackEncoder) (data : Bytes) :
    enc.writeBin data = enc.extend (Msgpack.encode (.bin data)) := by
  rw [Msgpack.encode]
  simp only [writeBin, Msgpack.binHead]
  split_ifs <;> rw [extend_extend]

@[simp] theorem beginMap_eq (enc : MsgpackEncoder) (n : ℕ) :
    enc.beginMap n = enc.extend (Msgpack.mapHead n) := by
  simp only [beginMap, Msgpack.mapHead]
  split_ifs with h1 h2
  · rw [or_eq_add (show n < 2 ^ 4 by omega) rfl]
  all_goals rfl

@[simp] theorem beginArray_eq (enc : MsgpackEncoder) (n : ℕ) :
    enc.beginArray n = enc.extend (Msgpack.arrayHead n) := by
  simp only [beginArray, Msgpack.arrayHead]
  split_ifs with h1 h2
  · rw [or_eq_add (show n < 2 ^ 4 by omega) rfl]
  all_goals rfl

/-- Items that are written one by one. -/
theorem foldl_extend {α : Type*} {write : MsgpackEncoder → α → MsgpackEncoder} {bytes : α → Bytes}
    (h : ∀ enc item, write enc item = enc.extend (bytes item)) (items : List α)
    (enc : MsgpackEncoder) : items.foldl write enc = enc.extend (items.flatMap bytes) := by
  induction items generalizing enc with
  | nil => rw [List.foldl_nil, List.flatMap_nil, extend, List.append_nil]
  | cons item items ih => rw [List.foldl_cons, h, ih, extend_extend, List.flatMap_cons]

end MsgpackEncoder

/-! ### Actions -/

open MsgpackEncoder

theorem msgpackOrderType_eq (enc : MsgpackEncoder) (t : HlOrderType) :
    msgpackOrderType enc t = enc.extend (Msgpack.encode (orderTypeValue t)) := by
  cases t with
  | limit tif =>
    simp [msgpackOrderType, orderTypeValue, Msgpack.encode_object, Msgpack.encodeField,
      Msgpack.encode_str]
  | trigger triggerPx isMarket tpsl =>
    simp [msgpackOrderType, orderTypeValue, Msgpack.encode_object, Msgpack.encodeField,
      Msgpack.encode_str]

theorem msgpackCloid_eq (enc : MsgpackEncoder) (cloid : Option String) :
    msgpackCloid enc cloid = enc.extend
      ((cloid.map fun cloid => ("c", cloidValue (cloidBytes cloid))).toList.flatMap
        Msgpack.encodeField) := by
  cases cloid with
  | none => simp [msgpackCloid, extend]
  | some cloid =>
    cases hbytes : cloidBytes cloid <;>
      simp [msgpackCloid, hbytes, cloidValue, Msgpack.encodeField]

theorem msgpackOrder_eq (enc : MsgpackEncoder) (order : HlOrder String) :
    msgpackOrder enc order =
      enc.extend (Msgpack.encode (orderValue (order.mapCloid cloidBytes))) := by
  have hlen : (if order.c.isSome then 7 else 6) = ([("a", Value.int order.a.toNat),
      ("b", .bool order.b)] ++ ((order.c.map cloidBytes).map fun cloid =>
        ("c", cloidValue cloid)).toList ++ [("p", .str order.p), ("r", .bool order.r),
          ("s", .str order.s), ("t", orderTypeValue order.t)]).length := by
    cases order.c <;> rfl
  rw [orderValue, Msgpack.encode_object]
  simp only [HlOrder.mapCloid, ← hlen, msgpackOrder, msgpackOrderType_eq, msgpackCloid_eq]
  simp [Msgpack.encodeField, Msgpack.encode_str]
  rfl

theorem msgpackAction_eq (action : L1Action String) :
    msgpackAction action = Msgpack.encode (actionValue (action.mapCloid cloidBytes)) := by
  cases action with
  | order orders grouping =>
    have horders := foldl_extend msgpackOrder_eq orders
    simp [msgpackAction, msgpackOrderAction, horders, actionValue, L1Action.mapCloid, new, finish,
      extend, Msgpack.encode_object, Msgpack.encodeField, Msgpack.encode_str,
      Msgpack.encode_array, List.flatMap_map]
  | cancel cancels =>
    have hcancels := fun enc => @foldl_extend _ (fun enc (cancel : UInt32 × UInt64) =>
      ((((enc.beginMap 2).writeStr "a").writeUint cancel.1.toUInt64).writeStr "o").writeUint
        cancel.2) (fun cancel => Msgpack.encode (cancelValue cancel)) (fun enc cancel => by
          simp [cancelValue, Msgpack.encode_object, Msgpack.encodeField]) cancels enc
    simp only [msgpackAction, msgpackCancelAction, hcancels]
    simp [actionValue, L1Action.mapCloid, new, finish,
      extend, Msgpack.encode_object, Msgpack.encodeField, Msgpack.encode_str,
      Msgpack.encode_array, List.flatMap_map]
  | modify oid order =>
    simp [msgpackAction, msgpackModifyAction, msgpackOrder_eq, actionValue, L1Action.mapCloid, new,
      finish, extend, Msgpack.encode_object, Msgpack.encodeField, Msgpack.encode_str]
  | batchModify modifies =>
    have hmodifies := fun enc => @foldl_extend _ (fun enc (modify : UInt64 × HlOrder String) =>
      msgpackOrder ((((enc.beginMap 2).writeStr "oid").writeUint modify.1).writeStr "order")
        modify.2) (fun modify => Msgpack.encode (modifyValue
          (modify.1, modify.2.mapCloid cloidBytes))) (fun enc modify => by
            simp [msgpackOrder_eq, modifyValue, Msgpack.encode_object, Msgpack.encodeField])
      modifies enc
    simp only [msgpackAction, msgpackBatchModifyAction, hmodifies]
    simp [actionValue, L1Action.mapCloid, new, finish,
      extend, Msgpack.encode_object, Msgpack.encodeField, Msgpack.encode_str,
      Msgpack.encode_array, List.flatMap_map]
  | updateLeverage asset isCross leverage =>
    simp [msgpackAction, msgpackUpdateLeverageAction, actionValue, L1Action.mapCloid, new, finish,
      extend, Msgpack.encode_object, Msgpack.encodeField, Msgpack.encode_str]
  | updateIsolatedMargin asset isBuy ntli =>
    simp [msgpackAction, msgpackUpdateIsolatedMarginAction, actionValue, L1Action.mapCloid, new,
      finish, extend, Msgpack.encode_object, Msgpack.encodeField, Msgpack.encode_str]
  | twapOrder asset isBuy size reduceOnly durationMinutes =>
    simp [msgpackAction, msgpackTwapAction, actionValue, L1Action.mapCloid, new, finish,
      extend, Msgpack.encode_object, Msgpack.encodeField, Msgpack.encode_str]
  | usdClassTransfer amount toPerp =>
    simp [msgpackAction, msgpackUsdClassTransferAction, actionValue, L1Action.mapCloid, new, finish,
      extend, Msgpack.encode_object, Msgpack.encodeField, Msgpack.encode_str]

end Digdigdig3.Hyperliquid
