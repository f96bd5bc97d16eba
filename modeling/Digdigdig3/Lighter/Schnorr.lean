import Mathlib.Tactic
import Digdigdig3.Lighter.PointDecode
import Digdigdig3.Lighter.Poseidon2
import Digdigdig3.Lighter.TxHash
import Digdigdig3.Lighter.WindowedMul

/-!
# Schnorr signatures

`crates/digdigdig3/src/l3/open/crypto/dex/lighter/crypto/schnorr.rs`: keys, messages and signatures
as bytes, and `GFp5::decode` with the mask it returns.

* `GFp5.decode_mask`, `GFp5.encode_decode`: what is canonical, and what it is read as.
* `verify_iff`: what is accepted, in terms of elements.
* `exists_accepted`: every element is accepted with some key and signature.
* `onlyCanonical_iff`: the masks of the private key and of the message are dropped.
-/

namespace Digdigdig3.Lighter

open DoubleOdd

/-! ## Elements as bytes -/

namespace GFp5

/-- `encode` (`gfp5.rs` lines 65–71). -/
def encode (x : GFp5) : Bytes := x.toBasefieldArray.flatMap fun v => toLe 8 v.toNat

/-- `decode` (`gfp5.rs` lines 41–57), with the mask. -/
def decode (buf : Bytes) : GFp5 × ℕ :=
  if buf.length ≠ 40 then (zero, 0)
  else
    let c0 := GFp.fromU64Checked (limb buf 0)
    let c1 := GFp.fromU64Checked (limb buf 1)
    let c2 := GFp.fromU64Checked (limb buf 2)
    let c3 := GFp.fromU64Checked (limb buf 3)
    let c4 := GFp.fromU64Checked (limb buf 4)
    (⟨c0.1, c1.1, c2.1, c3.1, c4.1⟩, (2 ^ 64 - 1) &&& c0.2 &&& c1.2 &&& c2.2 &&& c3.2 &&& c4.2)

/-- Every limb is below `p`. -/
def CanonicalBytes (buf : Bytes) : Prop := ∀ i < 5, (limb buf i).toNat < modulus

instance (buf : Bytes) : Decidable (CanonicalBytes buf) :=
  inferInstanceAs (Decidable (∀ i < 5, (limb buf i).toNat < modulus))

@[simp] theorem length_encode (x : GFp5) : x.encode.length = 40 := by
  simp [encode, toBasefieldArray]

theorem limb_append (v : UInt64) (rest : Bytes) (i : ℕ) :
    limb (toLe 8 v.toNat ++ rest) 0 = v ∧ limb (toLe 8 v.toNat ++ rest) (i + 1) = limb rest i := by
  constructor
  · have htake : ((toLe 8 v.toNat ++ rest).drop (0 * 8)).take 8 = toLe 8 v.toNat := by
      rw [Nat.zero_mul, List.drop_zero, List.take_left' (length_toLe _ _)]
    rw [limb, htake, ofLe_toLe_of_lt v.toNat_lt, UInt64.ofNat_toNat]
  · have hdrop : (toLe 8 v.toNat ++ rest).drop ((i + 1) * 8) = rest.drop (i * 8) := by
      rw [Nat.succ_mul, Nat.add_comm, ← List.drop_drop, List.drop_left' (length_toLe _ _)]
    rw [limb, limb, hdrop]

/-- The limbs of an encoding. -/
theorem limb_flatMap (vs : List UInt64) {i : ℕ} (hi : i < vs.length) :
    limb (vs.flatMap fun v => toLe 8 v.toNat) i = vs[i] := by
  induction vs generalizing i with
  | nil => exact absurd hi (Nat.not_lt_zero i)
  | cons v vs ih =>
    rw [List.flatMap_cons]
    cases i with
    | zero => exact (limb_append v _ 0).1
    | succ i =>
      rw [(limb_append v _ i).2]
      exact ih (Nat.lt_of_succ_lt_succ hi)

theorem canonicalBytes_encode (x : GFp5) : CanonicalBytes x.encode := by
  intro i hi
  rw [encode, limb_flatMap _ hi]
  have hall : ∀ v ∈ x.toBasefieldArray, v.toNat < modulus := by
    simp only [toBasefieldArray, List.forall_mem_cons]
    exact ⟨x.c0.toU64_lt, x.c1.toU64_lt, x.c2.toU64_lt, x.c3.toU64_lt, x.c4.toU64_lt,
      fun _ h => absurd h List.not_mem_nil⟩
  exact hall _ (List.getElem_mem _)

theorem ite_mask_and (p q : Prop) [Decidable p] [Decidable q] :
    ((if p then 2 ^ 64 - 1 else 0) &&& if q then 2 ^ 64 - 1 else 0) =
      if p ∧ q then 2 ^ 64 - 1 else 0 := by
  by_cases hp : p
  · by_cases hq : q
    · rw [if_pos hp, if_pos hq, if_pos (And.intro hp hq), Nat.and_self]
    · rw [if_neg hq, if_neg (not_and_of_not_right p hq), Nat.and_zero]
  · rw [if_neg hp, if_neg (not_and_of_not_left q hp), Nat.zero_and]

theorem decode_mask {buf : Bytes} (h : buf.length = 40) :
    (decode buf).2 = if CanonicalBytes buf then 2 ^ 64 - 1 else 0 := by
  have hmask : ∀ v, (GFp.fromU64Checked v).2 = if v.toNat < modulus then 2 ^ 64 - 1 else 0 := by
    intro v
    rw [GFp.fromU64Checked_eq]
    split_ifs <;> rfl
  have hfive : CanonicalBytes buf ↔ (((((limb buf 0).toNat < modulus ∧
      (limb buf 1).toNat < modulus) ∧ (limb buf 2).toNat < modulus) ∧
        (limb buf 3).toNat < modulus) ∧ (limb buf 4).toNat < modulus) := by
    simp only [CanonicalBytes, Nat.forall_lt_succ_right, Nat.not_lt_zero, false_implies,
      implies_true, true_and]
  rw [decode, if_neg (not_not.mpr h)]
  dsimp only
  rw [hmask, hmask, hmask, hmask, hmask]
  have hones : (2 ^ 64 - 1 &&& if (limb buf 0).toNat < modulus then 2 ^ 64 - 1 else 0) =
      if (limb buf 0).toNat < modulus then 2 ^ 64 - 1 else 0 := by
    split_ifs <;> rfl
  rw [hones, ite_mask_and, ite_mask_and, ite_mask_and, ite_mask_and]
  simp only [hfive]

/-- Canonical bytes are read as the element they encode. -/
theorem encode_decode {buf : Bytes} (h : buf.length = 40) (hcanonical : CanonicalBytes buf) :
    (decode buf).1.encode = buf := by
  have hchecked : ∀ i < 5, (GFp.fromU64Checked (limb buf i)).1.toU64 = limb buf i := by
    intro i hi
    rw [GFp.fromU64Checked_eq, if_pos (hcanonical i hi)]
    exact GFp.toU64_fromU64Reduce_of_lt (hcanonical i hi)
  apply key_ext (length_encode _) h
  intro i hi
  have harray : (decode buf).1.toBasefieldArray = (List.range 5).map (limb buf) := by
    rw [decode, if_neg (not_not.mpr h)]
    simp only [toBasefieldArray]
    rw [hchecked 0 (by omega), hchecked 1 (by omega), hchecked 2 (by omega), hchecked 3 (by omega),
      hchecked 4 (by omega)]
    rfl
  rw [encode, limb_flatMap _ hi]
  simp only [harray, List.getElem_map, List.getElem_range]

theorem canonicalBytes_iff {buf : Bytes} (h : buf.length = 40) :
    CanonicalBytes buf ↔ ∃ x : GFp5, x.encode = buf := by
  constructor
  · exact fun hcanonical => ⟨_, encode_decode h hcanonical⟩
  · rintro ⟨x, rfl⟩
    exact canonicalBytes_encode x

theorem decode_encode (x : GFp5) : decode x.encode = (x, 2 ^ 64 - 1) := by
  have hchecked : ∀ c : GFp, (GFp.fromU64Checked c.toU64).1 = c := by
    intro c
    rw [GFp.fromU64Checked_eq, if_pos c.toU64_lt]
    exact c.fromU64Reduce_toU64
  have hlimb : ∀ i (hi : i < 5), limb x.encode i = x.toBasefieldArray.get ⟨i, hi⟩ :=
    fun i hi => limb_flatMap x.toBasefieldArray hi
  have hfst : (decode x.encode).1 = x := by
    rw [decode, if_neg (not_not.mpr (length_encode x)), hlimb 0 (by decide), hlimb 1 (by decide),
      hlimb 2 (by decide), hlimb 3 (by decide), hlimb 4 (by decide)]
    simp only [toBasefieldArray, List.get_eq_getElem, List.getElem_cons_zero,
      List.getElem_cons_succ, hchecked]
  have hmask := decode_mask (length_encode x)
  rw [if_pos (canonicalBytes_encode x)] at hmask
  exact Prod.ext hfst hmask

theorem encode_injective : Function.Injective encode := by
  intro x y h
  have hdecode := congrArg decode h
  rw [decode_encode, decode_encode] at hdecode
  exact congrArg Prod.fst hdecode

end GFp5

/-! ## Model -/

/-- `equals` (`scalar.rs` lines 280–287). -/
def Scalar.equals (s rhs : Scalar) : ℕ :=
  (isZeroMask (BitVec.ofNat 64
    ((List.zipWith (· ^^^ ·) s.limbs rhs.limbs).foldl (· ||| ·) 0))).toNat

/-- `mulgen` (`ecgfp5.rs` lines 250–254). -/
def Point.mulgen (s : Scalar) : Point := generator.mul s

/-- `Signature` (lines 33–38). -/
structure Signature where
  s : Scalar
  e : Scalar

/-- `to_bytes` (lines 42–47). -/
def Signature.toBytes (sig : Signature) : Bytes := sig.s.encode ++ sig.e.encode

/-- `from_bytes` (lines 51–56), with the mask. -/
def Signature.fromBytes (buf : Bytes) : Signature × ℕ :=
  let s := Scalar.decode (buf.take 40)
  let e := Scalar.decode (buf.drop 40)
  (⟨s.1, e.1⟩, s.2 &&& e.2)

namespace Schnorr

open Poseidon2

/-- `derive_public_key` (lines 62–66). -/
def derivePublicKey (privateKey : Bytes) : Bytes :=
  let sk := (Scalar.decode privateKey).1
  let pkPoint := Point.mulgen sk
  pkPoint.encode.encode

/-- `build_schnorr_preimage` (lines 113–128). -/
def buildSchnorrPreimage (r msg : GFp5) : List GFp :=
  (r.toBasefieldArray ++ msg.toBasefieldArray).map fromCanonicalU64

/-- The challenge of `sign_with_nonce` and `verify` (lines 99–104, 163–166). -/
def challenge (r hashedMsg : GFp5) : Scalar :=
  Scalar.fromGfp5 (hashToQuinticExtension (buildSchnorrPreimage r hashedMsg))

/-- `sign_with_nonce` (lines 94–110). -/
def signWithNonce (sk : Scalar) (hashedMsg : GFp5) (k : Scalar) : Signature :=
  let r := (Point.mulgen k).encode
  let e := challenge r hashedMsg
  ⟨k.sub (e.mul sk), e⟩

/-- `sign` (lines 80–91), with the bytes of the random generator. -/
def sign (privateKey : Bytes) (hashedMsg : GFp5) (kBytes : Bytes) : Bytes :=
  let sk := (Scalar.decode privateKey).1
  let k := Scalar.fromRandomBytes kBytes
  (signWithNonce sk hashedMsg k).toBytes

/-- `r_v` (lines 158–161). -/
def commitment (pkPoint : Point) (sig : Signature) : GFp5 :=
  ((Point.mulgen sig.s).setAdd (pkPoint.mul sig.e)).encode

/-- `verify` (lines 139–170). -/
def verify (publicKey : Bytes) (hashedMsg : GFp5) (signature : Bytes) : Bool :=
  let sig := Signature.fromBytes signature
  if sig.2 = 0 then false
  else
    let pkW := GFp5.decode publicKey
    if pkW.2 = 0 then false
    else
      let pkPoint := Point.decode pkW.1
      if pkPoint.2 = 0 then false
      else
        let rV := commitment pkPoint.1 sig.1
        let eV := challenge rV hashedMsg
        eV.equals sig.1.e != 0

section AnyHash

variable (hash : List GFp → GFp5)

/-- `challenge` with any function for the hash. -/
def challengeWith (r hashedMsg : GFp5) : Scalar :=
  Scalar.fromGfp5 (hash (buildSchnorrPreimage r hashedMsg))

/-- `signWithNonce` with any function for the hash. -/
def signWithNonceWith (sk : Scalar) (hashedMsg : GFp5) (k : Scalar) : Signature :=
  let r := (Point.mulgen k).encode
  let e := challengeWith hash r hashedMsg
  ⟨k.sub (e.mul sk), e⟩

/-- `sign` with any function for the hash. -/
def signWith (privateKey : Bytes) (hashedMsg : GFp5) (kBytes : Bytes) : Bytes :=
  let sk := (Scalar.decode privateKey).1
  let k := Scalar.fromRandomBytes kBytes
  (signWithNonceWith hash sk hashedMsg k).toBytes

/-- `verify` with any function for the hash. -/
def verifyWith (publicKey : Bytes) (hashedMsg : GFp5) (signature : Bytes) : Bool :=
  let sig := Signature.fromBytes signature
  if sig.2 = 0 then false
  else
    let pkW := GFp5.decode publicKey
    if pkW.2 = 0 then false
    else
      let pkPoint := Point.decode pkW.1
      if pkPoint.2 = 0 then false
      else
        let rV := commitment pkPoint.1 sig.1
        let eV := challengeWith hash rV hashedMsg
        eV.equals sig.1.e != 0

end AnyHash

theorem verify_eq : verify = verifyWith hashToQuinticExtension := rfl

/-- `sign_hashed_message` (lines 176–179), with the bytes of the random generator. -/
def signHashedMessage (privateKey hashedMessageBytes kBytes : Bytes) : Bytes :=
  sign privateKey (GFp5.decode hashedMessageBytes).1 kBytes

/-- `verify_hashed_message` (lines 182–189). -/
def verifyHashedMessage (publicKey hashedMessageBytes signature : Bytes) : Bool :=
  verify publicKey (GFp5.decode hashedMessageBytes).1 signature

end Schnorr

/-! ## Masks -/

theorem foldl_or_eq_zero (xs : List ℕ) (z : ℕ) :
    xs.foldl (· ||| ·) z = 0 ↔ z = 0 ∧ ∀ x ∈ xs, x = 0 := by
  induction xs generalizing z with
  | nil => simp
  | cons x xs ih => rw [List.foldl_cons, ih, Nat.or_eq_zero_iff, List.forall_mem_cons, and_assoc]

theorem foldl_or_lt {xs : List ℕ} (hxs : ∀ x ∈ xs, x < 2 ^ 64) {z : ℕ} (hz : z < 2 ^ 64) :
    xs.foldl (· ||| ·) z < 2 ^ 64 := by
  induction xs generalizing z with
  | nil => exact hz
  | cons x xs ih =>
    obtain ⟨hx, hrest⟩ := List.forall_mem_cons.mp hxs
    exact ih hrest (Nat.or_lt_two_pow hz hx)

theorem zipWith_xor_eq_zero {xs ys : List ℕ} (h : xs.length = ys.length) :
    (∀ x ∈ List.zipWith (· ^^^ ·) xs ys, x = 0) ↔ xs = ys := by
  induction xs generalizing ys with
  | nil =>
    rw [List.length_eq_zero_iff.mp h.symm]
    simp
  | cons x xs ih =>
    cases ys with
    | nil => exact absurd h (Nat.succ_ne_zero _)
    | cons y ys =>
      rw [List.zipWith_cons_cons, List.forall_mem_cons, ih (Nat.succ.inj h), Nat.xor_eq_zero_iff,
        List.cons.injEq]

namespace Scalar

theorem equals_eq (s t : Scalar) : s.equals t = if s = t then 2 ^ 64 - 1 else 0 := by
  have hxor : ∀ x ∈ List.zipWith (· ^^^ ·) s.limbs t.limbs, x < 2 ^ 64 := by
    intro x hx
    rw [List.mem_iff_getElem] at hx
    obtain ⟨i, hi, rfl⟩ := hx
    rw [List.getElem_zipWith]
    exact Nat.xor_lt_two_pow (s.words_limbs _ (List.getElem_mem _))
      (t.words_limbs _ (List.getElem_mem _))
  have hiff : (List.zipWith (· ^^^ ·) s.limbs t.limbs).foldl (· ||| ·) 0 = 0 ↔ s = t := by
    rw [foldl_or_eq_zero, zipWith_xor_eq_zero (s.length_limbs.trans t.length_limbs.symm)]
    constructor
    · intro h
      exact toNat_injective (congrArg (Limbs.value (2 ^ 64)) h.2)
    · rintro rfl
      exact ⟨rfl, rfl⟩
  rw [equals, GFp.toNat_isZeroMask (foldl_or_lt hxor (by norm_num))]
  simp only [hiff]

theorem decode_mask {buf : Bytes} (h : buf.length = 40) :
    (decode buf).2 = if ofLe buf < order.toNat then 2 ^ 64 - 1 else 0 := by
  rw [decode, if_neg (by omega), ← toNat_ofBytes_of_length h]
  obtain ⟨hlt, hmask, -⟩ | ⟨hle, hmask, -⟩ := subInner_spec (ofBytes buf) order
  · rw [if_pos hlt]
    exact hmask
  · rw [if_neg (not_lt.mpr hle)]
    exact hmask

/-- Below the order, the bytes are read as the scalar they encode. -/
theorem encode_decode {buf : Bytes} (h : buf.length = 40) (hlt : ofLe buf < order.toNat) :
    (decode buf).1.Canonical ∧ (decode buf).1.encode = buf := by
  rw [decode_eq h.ge, encode_ofBytes h, Canonical, toNat_ofBytes_of_length h]
  exact ⟨hlt, rfl⟩

end Scalar

/-- A signature is read just when both halves are canonical. -/
theorem Signature.fromBytes_iff {buf : Bytes} (h : buf.length = 80) (sig : Signature) :
    ((fromBytes buf).2 ≠ 0 ∧ (fromBytes buf).1 = sig) ↔
      sig.s.Canonical ∧ sig.e.Canonical ∧ sig.toBytes = buf := by
  have hs : (buf.take 40).length = 40 := by
    rw [List.length_take]
    omega
  have he : (buf.drop 40).length = 40 := by
    rw [List.length_drop]
    omega
  constructor
  · rintro ⟨hmask, rfl⟩
    rw [fromBytes, Scalar.decode_mask hs, Scalar.decode_mask he, GFp5.ite_mask_and] at hmask
    have hboth : ofLe (buf.take 40) < Scalar.order.toNat ∧
        ofLe (buf.drop 40) < Scalar.order.toNat := by
      by_contra hnot
      rw [if_neg hnot] at hmask
      exact hmask rfl
    obtain ⟨hsCanonical, hsBytes⟩ := Scalar.encode_decode hs hboth.1
    obtain ⟨heCanonical, heBytes⟩ := Scalar.encode_decode he hboth.2
    refine ⟨hsCanonical, heCanonical, ?_⟩
    show (Scalar.decode (buf.take 40)).1.encode ++ (Scalar.decode (buf.drop 40)).1.encode = buf
    rw [hsBytes, heBytes, List.take_append_drop]
  · rintro ⟨hsCanonical, heCanonical, rfl⟩
    have htake : sig.toBytes.take 40 = sig.s.encode := List.take_left' sig.s.length_encode
    have hdrop : sig.toBytes.drop 40 = sig.e.encode := List.drop_left' sig.s.length_encode
    rw [fromBytes, htake, hdrop, Scalar.decode_encode hsCanonical, Scalar.decode_encode heCanonical]
    have hmask : (2 ^ 64 - 1 &&& 2 ^ 64 - 1 : ℕ) ≠ 0 := by decide
    exact ⟨hmask, rfl⟩

/-! ## What is accepted -/

namespace Schnorr

/-- The equation of a signature, between elements. -/
def Checks (w x : GFp5) (sig : Signature) : Prop :=
  (Point.decode w).2 ≠ 0 ∧ challenge (commitment (Point.decode w).1 sig) x = sig.e

/-- The equation with any function for the hash. -/
def ChecksWith (hash : List GFp → GFp5) (w x : GFp5) (sig : Signature) : Prop :=
  (Point.decode w).2 ≠ 0 ∧ challengeWith hash (commitment (Point.decode w).1 sig) x = sig.e

theorem checks_eq : Checks = ChecksWith Poseidon2.hashToQuinticExtension := rfl

theorem verifyWith_iff (hash : List GFp → GFp5) {publicKey signature : Bytes}
    (hkey : publicKey.length = 40) (hsig : signature.length = 80) (x : GFp5) :
    verifyWith hash publicKey x signature = true ↔ ∃ (w : GFp5) (sig : Signature),
      w.encode = publicKey ∧ sig.s.Canonical ∧ sig.e.Canonical ∧ sig.toBytes = signature ∧
        ChecksWith hash w x sig := by
  have hequals : ∀ s t : Scalar, (s.equals t != 0) = true ↔ s = t := by
    intro s t
    rw [Scalar.equals_eq]
    split_ifs with h <;> simp [h]
  have hread := Signature.fromBytes_iff hsig
  have hpoint : (GFp5.decode publicKey).2 ≠ 0 ↔ GFp5.CanonicalBytes publicKey := by
    rw [GFp5.decode_mask hkey]
    split_ifs with h <;> simp [h]
  have hunfold : verifyWith hash publicKey x signature = true ↔
      (Signature.fromBytes signature).2 ≠ 0 ∧ (GFp5.decode publicKey).2 ≠ 0 ∧
        ChecksWith hash (GFp5.decode publicKey).1 x (Signature.fromBytes signature).1 := by
    unfold verifyWith ChecksWith
    simp only [← hequals]
    split_ifs <;> simp_all
  rw [hunfold, hpoint]
  constructor
  · rintro ⟨hmask, hcanonical, hchecks⟩
    obtain ⟨hs, he, hbytes⟩ := (hread _).mp ⟨hmask, rfl⟩
    exact ⟨_, _, GFp5.encode_decode hkey hcanonical, hs, he, hbytes, hchecks⟩
  · rintro ⟨w, sig, rfl, hs, he, hbytes, hchecks⟩
    obtain ⟨hmask, hfst⟩ := (hread sig).mpr ⟨hs, he, hbytes⟩
    rw [hfst, GFp5.decode_encode]
    exact ⟨hmask, GFp5.canonicalBytes_encode w, hchecks⟩

theorem verify_iff {publicKey signature : Bytes} (hkey : publicKey.length = 40)
    (hsig : signature.length = 80) (x : GFp5) :
    verify publicKey x signature = true ↔ ∃ (w : GFp5) (sig : Signature), w.encode = publicKey ∧
      sig.s.Canonical ∧ sig.e.Canonical ∧ sig.toBytes = signature ∧ Checks w x sig := by
  rw [verify_eq, checks_eq]
  exact verifyWith_iff _ hkey hsig x

end Schnorr

namespace Point

/-- Fractions of one element have one encoding. -/
theorem Denotes.encode_eq {P Q : Point} {g : Group} (hP : P.Denotes g) (hQ : Q.Denotes g) :
    P.encode = Q.encode := by
  obtain ⟨-, hsame⟩ := hP.same hQ
  obtain ⟨_, _, hreadsP, -⟩ := hP
  obtain ⟨_, _, hreadsQ, -⟩ := hQ
  have hdiv : P.U.toQuintic / P.T.toQuintic = Q.U.toQuintic / Q.T.toQuintic := by
    have hcross := congrArg GFp5.toQuintic hsame
    rw [GFp5.toQuintic_mul, GFp5.toQuintic_mul] at hcross
    exact (div_eq_div_iff hreadsP.T_ne_zero hreadsQ.T_ne_zero).mpr hcross
  apply GFp5.toQuintic_injective
  rw [toQuintic_encode, toQuintic_encode, ← div_eq_mul_inv, ← div_eq_mul_inv, ← inv_div, hdiv,
    inv_div]

end Point

namespace Schnorr

theorem challenge_canonical (r x : GFp5) : (challenge r x).Canonical := by
  rw [Scalar.Canonical, challenge, Scalar.toNat_fromGfp5]
  exact Nat.mod_lt _ Scalar.order_pos

/-- With the neutral point for a key, the challenge does not change the point it is made from. -/
theorem commitment_neutral (s e : Scalar) :
    commitment Point.neutral ⟨s, e⟩ = (Point.mulgen s).encode := by
  obtain ⟨g, hg⟩ := Point.exists_generator_denotes
  have hleft := Point.mul_denotes hg s
  have hright := Point.mul_denotes Point.denotes_neutral e
  rw [zsmul_zero] at hright
  have hsum := hleft.setAdd hright
  rw [add_zero] at hsum
  exact hsum.encode_eq hleft

/-- The key is the encoding of the neutral point. -/
theorem exists_accepted (x : GFp5) : ∃ sig : Signature,
    sig.s.Canonical ∧ sig.e.Canonical ∧ Checks .zero x sig := by
  refine ⟨⟨.zero, challenge (Point.mulgen .zero).encode x⟩, Scalar.order_pos,
    challenge_canonical _ x, ?_⟩
  rw [Checks, Point.decode_zero]
  refine ⟨by norm_num, ?_⟩
  show challenge (commitment Point.neutral _) x = _
  rw [commitment_neutral]

/-! ## Canonical bytes only -/

/-- The private key, and two messages, are read as what they canonically encode and nothing else is
    signed or accepted: every other message has signatures of its own, unless the challenges of the
    two messages collide. -/
structure OnlyCanonical (privateKey message other : Bytes) : Prop where
  derives : ∃ d : Scalar, d.Canonical ∧ d.encode = privateKey ∧
    derivePublicKey privateKey = (Point.mulgen d).encode.encode
  signs : ∀ kBytes : Bytes, ∃ (d : Scalar) (x : GFp5), d.Canonical ∧ d.encode = privateKey ∧
    x.encode = message ∧ signHashedMessage privateKey message kBytes =
      (signWithNonce d x (.fromRandomBytes kBytes)).toBytes
  verifies : ∀ m ∈ [message, other], ∀ publicKey signature : Bytes, publicKey.length = 40 →
    signature.length = 80 → (verifyHashedMessage publicKey m signature = true ↔
      ∃ (w x : GFp5) (sig : Signature), w.encode = publicKey ∧ x.encode = m ∧ sig.s.Canonical ∧
        sig.e.Canonical ∧ sig.toBytes = signature ∧ Checks w x sig)
  binds : message ≠ other → ∀ publicKey signature : Bytes, publicKey.length = 40 →
    signature.length = 80 → verifyHashedMessage publicKey message signature = true →
      verifyHashedMessage publicKey other signature = true →
        ∃ (w x y : GFp5) (sig : Signature), w.encode = publicKey ∧ x.encode = message ∧
          y.encode = other ∧ sig.toBytes = signature ∧ x ≠ y ∧
            challenge (commitment (Point.decode w).1 sig) x =
              challenge (commitment (Point.decode w).1 sig) y

theorem derives_iff {privateKey : Bytes} (h : privateKey.length = 40) :
    (∃ d : Scalar, d.Canonical ∧ d.encode = privateKey ∧
      derivePublicKey privateKey = (Point.mulgen d).encode.encode) ↔
        ofLe privateKey < Scalar.order.toNat := by
  constructor
  · rintro ⟨d, hd, rfl, -⟩
    rwa [Scalar.ofLe_encode]
  · intro hlt
    obtain ⟨hd, hbytes⟩ := Scalar.encode_decode h hlt
    exact ⟨_, hd, hbytes, rfl⟩

theorem verifies_iff {m : Bytes} (h : m.length = 40) :
    (∀ publicKey signature : Bytes, publicKey.length = 40 → signature.length = 80 →
      (verifyHashedMessage publicKey m signature = true ↔ ∃ (w x : GFp5) (sig : Signature),
        w.encode = publicKey ∧ x.encode = m ∧ sig.s.Canonical ∧ sig.e.Canonical ∧
          sig.toBytes = signature ∧ Checks w x sig)) ↔ GFp5.CanonicalBytes m := by
  constructor
  · intro hverifies
    -- the bytes that are not canonical are accepted as the element they are read as
    obtain ⟨sig, hs, he, hchecks⟩ := exists_accepted (GFp5.decode m).1
    have hsig : sig.toBytes.length = 80 := by
      rw [Signature.toBytes, List.length_append, Scalar.length_encode, Scalar.length_encode]
    have haccepted := (verify_iff (GFp5.length_encode .zero) hsig _).mpr
      ⟨.zero, sig, rfl, hs, he, rfl, hchecks⟩
    obtain ⟨-, x, -, -, rfl, -⟩ := (hverifies _ _ (GFp5.length_encode .zero) hsig).mp haccepted
    exact GFp5.canonicalBytes_encode x
  · intro hcanonical publicKey signature hkey hsig
    rw [verifyHashedMessage, verify_iff hkey hsig]
    constructor
    · rintro ⟨w, sig, hw, hs, he, hbytes, hchecks⟩
      exact ⟨w, _, sig, hw, GFp5.encode_decode h hcanonical, hs, he, hbytes, hchecks⟩
    · rintro ⟨w, x, sig, hw, rfl, hs, he, hbytes, hchecks⟩
      rw [GFp5.decode_encode]
      exact ⟨w, sig, hw, hs, he, hbytes, hchecks⟩

theorem signature_injective {sig sig' : Signature} (h : sig.toBytes = sig'.toBytes) :
    sig = sig' := by
  obtain ⟨hs, he⟩ := List.append_inj h (sig.s.length_encode.trans sig'.s.length_encode.symm)
  have hinj : ∀ {s t : Scalar}, s.encode = t.encode → s = t := by
    intro s t hst
    rw [← Scalar.ofBytes_encode s, hst, Scalar.ofBytes_encode]
  cases sig
  cases sig'
  exact congrArg₂ Signature.mk (hinj hs) (hinj he)

/-- The keys and messages that are not canonical are signed and accepted too, as the scalar of the
    same words and the element of the words that are left when those from `p` on are put to zero. -/
theorem onlyCanonical_iff {privateKey message other : Bytes} (hkey : privateKey.length = 40)
    (hmessage : message.length = 40) (hother : other.length = 40) :
    OnlyCanonical privateKey message other ↔ ofLe privateKey < Scalar.order.toNat ∧
      GFp5.CanonicalBytes message ∧ GFp5.CanonicalBytes other := by
  constructor
  · intro h
    exact ⟨(derives_iff hkey).mp h.derives,
      (verifies_iff hmessage).mp (h.verifies message (by simp)),
      (verifies_iff hother).mp (h.verifies other (by simp))⟩
  · rintro ⟨hlt, hcanonical, hcanonical'⟩
    obtain ⟨hd, hd'⟩ := Scalar.encode_decode hkey hlt
    have hverifies := (verifies_iff hmessage).mpr hcanonical
    have hverifies' := (verifies_iff hother).mpr hcanonical'
    refine ⟨(derives_iff hkey).mpr hlt, ?_, ?_, ?_⟩
    · exact fun kBytes => ⟨_, _, hd, hd', GFp5.encode_decode hmessage hcanonical, rfl⟩
    · intro m hm
      obtain rfl | rfl : m = message ∨ m = other := by simpa using hm
      · exact hverifies
      · exact hverifies'
    · intro hne publicKey signature hpub hsig haccepted haccepted'
      obtain ⟨w, x, sig, hw, hx, -, -, hbytes, -, hchecks⟩ :=
        (hverifies _ _ hpub hsig).mp haccepted
      obtain ⟨w', y, sig', hw', hy, -, -, hbytes', -, hchecks'⟩ :=
        (hverifies' _ _ hpub hsig).mp haccepted'
      obtain rfl := GFp5.encode_injective (hw.trans hw'.symm)
      obtain rfl := signature_injective (hbytes.trans hbytes'.symm)
      have hxy : x ≠ y := by
        rintro rfl
        exact hne (hx.symm.trans hy)
      exact ⟨w, x, y, sig, hw, hx, hy, hbytes, hxy, hchecks.trans hchecks'.symm⟩

/-- The zero key and twice the zero message. -/
theorem onlyCanonical_iff_zero : (toLe 40 0).length = 40 ∧
    (OnlyCanonical (toLe 40 0) (toLe 40 0) (toLe 40 0) ↔
      ofLe (toLe 40 0) < Scalar.order.toNat ∧ GFp5.CanonicalBytes (toLe 40 0) ∧
        GFp5.CanonicalBytes (toLe 40 0)) :=
  ⟨length_toLe 40 0,
    onlyCanonical_iff (length_toLe 40 0) (length_toLe 40 0) (length_toLe 40 0)⟩

/-- A message whose first word is `2^64 - 1`. -/
theorem not_onlyCanonical :
    ¬OnlyCanonical (toLe 40 0) (toLe 40 (2 ^ 64 - 1)) (toLe 40 0) := by
  intro h
  have hcanonical := (verifies_iff (length_toLe 40 _)).mp (h.verifies _ List.mem_cons_self)
  exact absurd (hcanonical 0 (by omega)) (by decide)

end Schnorr

end Digdigdig3.Lighter
