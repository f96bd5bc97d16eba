import Digdigdig3.Lib.Bytes
import Digdigdig3.Lighter.Goldilocks

/-!
# Signed Lighter transactions: the elements that are hashed

`CreateOrderFields`, `CancelOrderFields`, `WithdrawFields` and the four hash functions of
`crates/digdigdig3/src/l3/open/crypto/dex/lighter/crypto/tx_hash.rs`, up to the list of field
elements handed to `hash_to_quintic_extension`.

* `fromU32_inj`: unsigned 32-bit fields are bound.
* `fromI64_eq_iff`: a signed field is bound up to `SameI64`: a value above `-2^32` and below `0`
  makes the element of that value plus `2^32 - 1`.
* `elems_eq_iff`: the lists of two transactions are equal just when their fields agree so far.
-/

namespace Digdigdig3.Lighter

/-! ## Encoders -/

/-- `from_u32` (lines 64–67). -/
def fromU32 (v : UInt32) : GFp := fromCanonicalU64 v.toUInt64

/-- `from_i64` (lines 72–76): the bit pattern, read as unsigned. -/
def fromI64 (v : Int64) : GFp := fromCanonicalU64 v.toUInt64

/-- `from_u64` (lines 79–82). -/
def fromU64 (v : UInt64) : GFp := fromCanonicalU64 v

/-- `v as u32` of an `i16`: the sign is extended. -/
def i16AsU32 (v : Int16) : UInt32 := v.toInt32.toUInt32

/-- `b as u32` of a `bool`. -/
def boolAsU32 (b : Bool) : UInt32 := if b then 1 else 0

/-- Two unsigned values with one element. -/
def SameU64 (v w : UInt64) : Prop :=
  v = w ∨ v.toNat = w.toNat + modulus ∨ w.toNat = v.toNat + modulus

/-- `w` is what the negative `v` wraps to. -/
def WrapsTo (v w : Int64) : Prop :=
  -2 ^ 32 < v.toInt ∧ v.toInt < 0 ∧ w.toInt = v.toInt + (2 ^ 32 - 1)

/-- Two signed values with one element. -/
def SameI64 (v w : Int64) : Prop := v = w ∨ WrapsTo v w ∨ WrapsTo w v

theorem modEq_modulus_iff {v w : ℕ} (hv : v < 2 ^ 64) (hw : w < 2 ^ 64) :
    v ≡ w [MOD modulus] ↔ v = w ∨ v = w + modulus ∨ w = v + modulus := by
  have hp : modulus = 18446744069414584321 := rfl
  rw [Nat.ModEq, hp]
  omega

theorem fromU64_eq_iff (v w : UInt64) : fromU64 v = fromU64 w ↔ SameU64 v w := by
  rw [fromU64, fromU64, fromCanonicalU64, fromCanonicalU64, fromU64Reduce_eq_iff,
    modEq_modulus_iff v.toNat_lt w.toNat_lt, UInt64.toNat_inj, SameU64]

theorem sameU64_of_lt {v w : UInt64} (hv : v.toNat < modulus) (hw : w.toNat < modulus) :
    SameU64 v w ↔ v = w := by
  unfold SameU64
  constructor
  · rintro (h | h | h)
    · exact h
    · omega
    · omega
  · exact Or.inl

theorem fromU32_inj (v w : UInt32) : fromU32 v = fromU32 w ↔ v = w := by
  have hbound : ∀ u : UInt32, u.toUInt64.toNat < modulus := by
    intro u
    have hu := u.toNat_lt
    have hp : 2 ^ 32 < modulus := by decide
    rw [UInt32.toNat_toUInt64]
    omega
  have hsame : fromU32 v = fromU32 w ↔ SameU64 v.toUInt64 w.toUInt64 := fromU64_eq_iff _ _
  rw [hsame, sameU64_of_lt (hbound v) (hbound w), UInt32.toUInt64_inj]

/-- The bit pattern of a signed value. -/
theorem toNat_toUInt64_of_int64 (v : Int64) :
    (v.toUInt64.toNat : ℤ) = if v.toInt < 0 then v.toInt + 2 ^ 64 else v.toInt := by
  have hlo := v.le_toInt
  have hhi := v.toInt_lt
  have hval : v.toUInt64.toNat = v.toBitVec.toNat := rfl
  have hint : v.toInt = v.toBitVec.toInt := rfl
  have hlt := v.toBitVec.isLt
  rw [hval, hint, BitVec.toInt_eq_toNat_cond]
  split_ifs <;> omega

theorem sameU64_toUInt64_iff (v w : Int64) : SameU64 v.toUInt64 w.toUInt64 ↔ SameI64 v w := by
  have hv := toNat_toUInt64_of_int64 v
  have hw := toNat_toUInt64_of_int64 w
  have hvlo := v.le_toInt
  have hvhi := v.toInt_lt
  have hwlo := w.le_toInt
  have hwhi := w.toInt_lt
  have hp : modulus = 18446744069414584321 := rfl
  have hinj : v.toUInt64 = w.toUInt64 ↔ v = w :=
    ⟨fun h => congrArg UInt64.toInt64 h, congrArg Int64.toUInt64⟩
  unfold SameU64 SameI64 WrapsTo
  rw [hinj, hp]
  refine or_congr_right ?_
  split_ifs at hv hw <;> omega

theorem fromI64_eq_iff (v w : Int64) : fromI64 v = fromI64 w ↔ SameI64 v w :=
  (fromU64_eq_iff _ _).trans (sameU64_toUInt64_iff v w)

/-- Signed values that are not negative are bound. -/
theorem sameI64_of_nonneg {v w : Int64} (hv : 0 ≤ v.toInt) (hw : 0 ≤ w.toInt) :
    SameI64 v w ↔ v = w := by
  unfold SameI64 WrapsTo
  constructor
  · rintro (h | ⟨-, h, -⟩ | ⟨-, h, -⟩)
    · exact h
    · omega
    · omega
  · exact Or.inl

theorem i16AsU32_inj (v w : Int16) : i16AsU32 v = i16AsU32 w ↔ v = w := by
  constructor
  · intro h
    have hi32 : v.toInt32 = w.toInt32 := congrArg UInt32.toInt32 h
    rw [← Int16.toInt16_toInt32 v, hi32, Int16.toInt16_toInt32]
  · exact congrArg i16AsU32

theorem boolAsU32_inj (b c : Bool) : boolAsU32 b = boolAsU32 c ↔ b = c := by
  cases b <;> cases c <;> decide

/-- The two halves of a `u64` bind it. -/
theorem halves_inj (v w : UInt64) :
    (fromU64 (v &&& 0xFFFFFFFF) = fromU64 (w &&& 0xFFFFFFFF) ∧
      fromU64 (v >>> 32) = fromU64 (w >>> 32)) ↔ v = w := by
  have hlow : ∀ u : UInt64, (u &&& 0xFFFFFFFF).toNat = u.toNat % 2 ^ 32 := by
    intro u
    exact Nat.and_two_pow_sub_one_eq_mod u.toNat 32
  have hhigh : ∀ u : UInt64, (u >>> 32).toNat = u.toNat / 2 ^ 32 := by
    intro u
    rw [UInt64.toNat_shiftRight]
    exact Nat.shiftRight_eq_div_pow _ _
  have hp : 2 ^ 32 < modulus := by decide
  have hlowlt : ∀ u : UInt64, (u &&& 0xFFFFFFFF).toNat < modulus := by
    intro u
    rw [hlow]
    omega
  have hhighlt : ∀ u : UInt64, (u >>> 32).toNat < modulus := by
    intro u
    have hu := u.toNat_lt
    rw [hhigh]
    omega
  rw [fromU64_eq_iff, fromU64_eq_iff, sameU64_of_lt (hlowlt v) (hlowlt w),
    sameU64_of_lt (hhighlt v) (hhighlt w), ← UInt64.toNat_inj, ← UInt64.toNat_inj,
    ← UInt64.toNat_inj, hlow, hlow, hhigh, hhigh]
  omega

/-! ## Transactions -/

/-- `TX_TYPE_CREATE_ORDER` (line 24). -/
def txTypeCreateOrder : UInt32 := 14

/-- `TX_TYPE_CANCEL_ORDER` (line 25). -/
def txTypeCancelOrder : UInt32 := 15

/-- `TX_TYPE_WITHDRAW` (line 29). -/
def txTypeWithdraw : UInt32 := 13

/-- `TX_TYPE_CHANGE_PUB_KEY` (line 30). -/
def txTypeChangePubKey : UInt32 := 8

/-- `CreateOrderFields` (lines 88–104). -/
structure CreateOrderFields where
  chainId : UInt32
  nonce : Int64
  expiredAt : Int64
  accountIndex : Int64
  apiKeyIndex : UInt8
  marketIndex : Int16
  clientOrderIndex : Int64
  baseAmount : Int64
  price : UInt32
  isAsk : Bool
  orderType : UInt8
  timeInForce : UInt8
  reduceOnly : Bool
  triggerPrice : UInt32
  orderExpiry : Int64

/-- The elements of `hash_create_order` (lines 108–128). -/
def createOrderElems (fields : CreateOrderFields) : List GFp :=
  [fromU32 fields.chainId,
    fromU32 txTypeCreateOrder,
    fromI64 fields.nonce,
    fromI64 fields.expiredAt,
    fromI64 fields.accountIndex,
    fromU32 fields.apiKeyIndex.toUInt32,
    fromU32 (i16AsU32 fields.marketIndex),
    fromI64 fields.clientOrderIndex,
    fromI64 fields.baseAmount,
    fromU32 fields.price,
    fromU32 (boolAsU32 fields.isAsk),
    fromU32 fields.orderType.toUInt32,
    fromU32 fields.timeInForce.toUInt32,
    fromU32 (boolAsU32 fields.reduceOnly),
    fromU32 fields.triggerPrice,
    fromI64 fields.orderExpiry]

/-- `CancelOrderFields` (lines 139–147). -/
structure CancelOrderFields where
  chainId : UInt32
  nonce : Int64
  expiredAt : Int64
  accountIndex : Int64
  apiKeyIndex : UInt8
  marketIndex : Int16
  index : Int64

/-- The elements of `hash_cancel_order` (lines 151–163). -/
def cancelOrderElems (fields : CancelOrderFields) : List GFp :=
  [fromU32 fields.chainId,
    fromU32 txTypeCancelOrder,
    fromI64 fields.nonce,
    fromI64 fields.expiredAt,
    fromI64 fields.accountIndex,
    fromU32 fields.apiKeyIndex.toUInt32,
    fromU32 (i16AsU32 fields.marketIndex),
    fromI64 fields.index]

/-- `WithdrawFields` (lines 197–207). -/
structure WithdrawFields where
  chainId : UInt32
  nonce : Int64
  expiredAt : Int64
  fromAccountIndex : Int64
  apiKeyIndex : UInt8
  assetIndex : Int16
  routeType : UInt8
  amount : UInt64

/-- The elements of `hash_withdraw` (lines 210–224). -/
def withdrawElems (fields : WithdrawFields) : List GFp :=
  [fromU32 fields.chainId,
    fromU32 txTypeWithdraw,
    fromI64 fields.nonce,
    fromI64 fields.expiredAt,
    fromI64 fields.fromAccountIndex,
    fromU32 fields.apiKeyIndex.toUInt32,
    fromU32 (i16AsU32 fields.assetIndex),
    fromU32 fields.routeType.toUInt32,
    fromU64 (fields.amount &&& 0xFFFFFFFF),
    fromU64 (fields.amount >>> 32)]

/-- The arguments of `hash_change_pub_key` (lines 230–237). -/
structure ChangePubKeyArgs where
  chainId : UInt32
  nonce : Int64
  expiredAt : Int64
  accountIndex : Int64
  apiKeyIndex : UInt8
  newPubKey : Bytes
  newPubKey_length : newPubKey.length = 40

/-- `u64::from_le_bytes` of the `i`-th eight bytes of a key (lines 247–249). -/
def limb (key : Bytes) (i : ℕ) : UInt64 := UInt64.ofNat (ofLe ((key.drop (i * 8)).take 8))

/-- The elements of `hash_change_pub_key` (lines 238–253). -/
def changePubKeyElems (args : ChangePubKeyArgs) : List GFp :=
  [fromU32 args.chainId,
    fromU32 txTypeChangePubKey,
    fromI64 args.nonce,
    fromI64 args.expiredAt,
    fromI64 args.accountIndex,
    fromU32 args.apiKeyIndex.toUInt32] ++
  (List.range 5).map fun i => fromCanonicalU64 (limb args.newPubKey i)

/-! ## What the elements bind -/

/-- Two orders that agree but for wraps of signed fields. -/
def CreateOrderFields.Agree (f g : CreateOrderFields) : Prop :=
  f.chainId = g.chainId ∧ SameI64 f.nonce g.nonce ∧ SameI64 f.expiredAt g.expiredAt ∧
  SameI64 f.accountIndex g.accountIndex ∧ f.apiKeyIndex = g.apiKeyIndex ∧
  f.marketIndex = g.marketIndex ∧ SameI64 f.clientOrderIndex g.clientOrderIndex ∧
  SameI64 f.baseAmount g.baseAmount ∧ f.price = g.price ∧ f.isAsk = g.isAsk ∧
  f.orderType = g.orderType ∧ f.timeInForce = g.timeInForce ∧ f.reduceOnly = g.reduceOnly ∧
  f.triggerPrice = g.triggerPrice ∧ SameI64 f.orderExpiry g.orderExpiry

/-- Two cancellations that agree but for wraps of signed fields. -/
def CancelOrderFields.Agree (f g : CancelOrderFields) : Prop :=
  f.chainId = g.chainId ∧ SameI64 f.nonce g.nonce ∧ SameI64 f.expiredAt g.expiredAt ∧
  SameI64 f.accountIndex g.accountIndex ∧ f.apiKeyIndex = g.apiKeyIndex ∧
  f.marketIndex = g.marketIndex ∧ SameI64 f.index g.index

/-- Two withdrawals that agree but for wraps of signed fields. -/
def WithdrawFields.Agree (f g : WithdrawFields) : Prop :=
  f.chainId = g.chainId ∧ SameI64 f.nonce g.nonce ∧ SameI64 f.expiredAt g.expiredAt ∧
  SameI64 f.fromAccountIndex g.fromAccountIndex ∧ f.apiKeyIndex = g.apiKeyIndex ∧
  f.assetIndex = g.assetIndex ∧ f.routeType = g.routeType ∧ f.amount = g.amount

/-- Two key changes that agree but for wraps of signed fields and of limbs of the key. -/
def ChangePubKeyArgs.Agree (f g : ChangePubKeyArgs) : Prop :=
  f.chainId = g.chainId ∧ SameI64 f.nonce g.nonce ∧ SameI64 f.expiredAt g.expiredAt ∧
  SameI64 f.accountIndex g.accountIndex ∧ f.apiKeyIndex = g.apiKeyIndex ∧
  ∀ i < 5, SameU64 (limb f.newPubKey i) (limb g.newPubKey i)

theorem createOrderElems_eq_iff (f g : CreateOrderFields) :
    createOrderElems f = createOrderElems g ↔ f.Agree g := by
  simp only [createOrderElems, CreateOrderFields.Agree, List.cons.injEq, fromU32_inj,
    UInt8.toUInt32_inj, i16AsU32_inj, boolAsU32_inj, fromI64_eq_iff, true_and, and_true]

theorem cancelOrderElems_eq_iff (f g : CancelOrderFields) :
    cancelOrderElems f = cancelOrderElems g ↔ f.Agree g := by
  simp only [cancelOrderElems, CancelOrderFields.Agree, List.cons.injEq, fromU32_inj,
    UInt8.toUInt32_inj, i16AsU32_inj, fromI64_eq_iff, true_and, and_true]

theorem withdrawElems_eq_iff (f g : WithdrawFields) :
    withdrawElems f = withdrawElems g ↔ f.Agree g := by
  simp only [withdrawElems, WithdrawFields.Agree, List.cons.injEq, fromU32_inj,
    UInt8.toUInt32_inj, i16AsU32_inj, fromI64_eq_iff, halves_inj, true_and, and_true]

theorem changePubKeyElems_eq_iff (f g : ChangePubKeyArgs) :
    changePubKeyElems f = changePubKeyElems g ↔ f.Agree g := by
  have hlimbs : ((List.range 5).map (fun i => fromCanonicalU64 (limb f.newPubKey i)) =
      (List.range 5).map fun i => fromCanonicalU64 (limb g.newPubKey i)) ↔
      ∀ i < 5, SameU64 (limb f.newPubKey i) (limb g.newPubKey i) := by
    rw [List.map_inj_left]
    refine forall_congr' fun i => ?_
    rw [List.mem_range]
    exact imp_congr_right fun _ => fromU64_eq_iff _ _
  simp only [changePubKeyElems, ChangePubKeyArgs.Agree, List.cons_append, List.nil_append,
    List.cons.injEq, fromU32_inj, UInt8.toUInt32_inj, fromI64_eq_iff, hlimbs, true_and]

/-- The limbs bind the bytes of a key. -/
theorem key_ext {a b : Bytes} (ha : a.length = 40) (hb : b.length = 40)
    (h : ∀ i < 5, limb a i = limb b i) : a = b := by
  have hchunk : ∀ i < 5, (a.drop (i * 8)).take 8 = (b.drop (i * 8)).take 8 := by
    intro i hi
    have hbound : ∀ c : Bytes, c.length = 40 → ((c.drop (i * 8)).take 8).length = 8 := by
      intro c hc
      rw [List.length_take, List.length_drop, hc]
      omega
    have hlt : ∀ c : Bytes, c.length = 40 → ofLe ((c.drop (i * 8)).take 8) < 2 ^ 64 := by
      intro c hc
      have := ofLe_lt ((c.drop (i * 8)).take 8)
      rw [hbound c hc] at this
      omega
    have hval := congrArg UInt64.toNat (h i hi)
    rw [limb, limb, UInt64.toNat_ofNat_of_lt' (hlt a ha), UInt64.toNat_ofNat_of_lt' (hlt b hb)]
      at hval
    rw [← toLe_ofLe (hbound a ha), ← toLe_ofLe (hbound b hb), hval]
  apply List.ext_getElem (by rw [ha, hb])
  intro n hna hnb
  have hn : n / 8 < 5 := by omega
  have hget := congrArg (fun bs => bs[n % 8]?) (hchunk (n / 8) hn)
  have hmod : n % 8 < 8 := Nat.mod_lt _ (by norm_num)
  have hpos : n / 8 * 8 + n % 8 = n := by omega
  simp only [List.getElem?_take, if_pos hmod, List.getElem?_drop, hpos,
    List.getElem?_eq_getElem hna, List.getElem?_eq_getElem hnb, Option.some.injEq] at hget
  exact hget

/-- No signed field is negative. -/
def CreateOrderFields.NonNeg (f : CreateOrderFields) : Prop :=
  0 ≤ f.nonce.toInt ∧ 0 ≤ f.expiredAt.toInt ∧ 0 ≤ f.accountIndex.toInt ∧
  0 ≤ f.clientOrderIndex.toInt ∧ 0 ≤ f.baseAmount.toInt ∧ 0 ≤ f.orderExpiry.toInt

/-- Orders without negative fields are bound whole. -/
theorem createOrderElems_inj_of_nonNeg {f g : CreateOrderFields} (hf : f.NonNeg) (hg : g.NonNeg) :
    createOrderElems f = createOrderElems g ↔ f = g := by
  obtain ⟨hf₁, hf₂, hf₃, hf₄, hf₅, hf₆⟩ := hf
  obtain ⟨hg₁, hg₂, hg₃, hg₄, hg₅, hg₆⟩ := hg
  rw [createOrderElems_eq_iff, CreateOrderFields.Agree, sameI64_of_nonneg hf₁ hg₁,
    sameI64_of_nonneg hf₂ hg₂, sameI64_of_nonneg hf₃ hg₃, sameI64_of_nonneg hf₄ hg₄,
    sameI64_of_nonneg hf₅ hg₅, sameI64_of_nonneg hf₆ hg₆]
  cases f
  cases g
  simp only [CreateOrderFields.mk.injEq]

/-- A key whose limbs are canonical is bound whole. -/
theorem newPubKey_eq_of_elems_eq {f g : ChangePubKeyArgs}
    (hf : ∀ i < 5, (limb f.newPubKey i).toNat < modulus)
    (hg : ∀ i < 5, (limb g.newPubKey i).toNat < modulus)
    (h : changePubKeyElems f = changePubKeyElems g) : f.newPubKey = g.newPubKey := by
  obtain ⟨-, -, -, -, -, hlimbs⟩ := (changePubKeyElems_eq_iff f g).mp h
  refine key_ext f.newPubKey_length g.newPubKey_length fun i hi => ?_
  exact (sameU64_of_lt (hf i hi) (hg i hi)).mp (hlimbs i hi)

/-- An order with the expiry `-1`, "now and 28 days". -/
def defaultExpiry : CreateOrderFields where
  chainId := 304
  nonce := 1
  expiredAt := 1741000000000
  accountIndex := 12345
  apiKeyIndex := 3
  marketIndex := 0
  clientOrderIndex := 281474976710655
  baseAmount := 10000
  price := 400000
  isAsk := false
  orderType := 0
  timeInForce := 2
  reduceOnly := false
  triggerPrice := 0
  orderExpiry := -1

end Digdigdig3.Lighter
