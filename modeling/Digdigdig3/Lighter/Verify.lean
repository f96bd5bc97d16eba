import Mathlib.Tactic
import Digdigdig3.Lighter.Schnorr

/-!
# Signatures that verify

`sign` and `verify` of `crates/digdigdig3/src/l3/open/crypto/dex/lighter/crypto/schnorr.rs`
together, with any function for the hash.

* `digitSum_eq_low`: which integer the 63 digits make up that `Point::mul` uses.
* `toNat_response`: the response of a nonce that is not reduced.
* `checks_iff`: when the two commitments agree.
* `signatures_verify_iff`: which signatures are canonical and accepted.
-/

namespace Digdigdig3.Lighter

/-! ## The low digits -/

namespace Scalar

/-- The integer of 63 signed digits that is `x` modulo `32 ^ 63`. -/
def low (x : ℕ) : ℤ :=
  (x + 16 * ((32 ^ 63 - 1) / 31)) % 32 ^ 63 - 16 * ((32 ^ 63 - 1) / 31)

theorem two_pow_eq : (2 ^ 64) ^ 5 = 32 ^ 64 := by norm_num

/-- The digit is taken off modulo `2 ^ 320`. -/
theorem settled_modEq (t : Scalar) : (t.settled.toNat : ℤ) ≡ t.toNat - t.digit [ZMOD 32 ^ 64] := by
  have hdigit := digit_eq t
  have hbounds := digit_bounds t
  have hsmall : ∀ n : ℕ, n ≤ 16 → (single (UInt64.ofNat n)).toNat = n := by
    intro n hn
    rw [toNat_single]
    exact UInt64.toNat_ofNat_of_lt' (lt_of_le_of_lt hn (by decide))
  unfold settled
  split_ifs with hneg
  · rw [toNat_addInner, hsmall _ (by omega), two_pow_eq]
    have hcast : ((-t.digit).toNat : ℤ) = -t.digit := Int.toNat_of_nonneg (by omega)
    push_cast
    rw [hcast, ← sub_eq_add_neg]
    exact Int.mod_modEq _ _
  · have hle : t.digit.toNat ≤ t.toNat := by
      rw [if_neg (by omega)] at hdigit
      omega
    obtain ⟨hlt, -, -⟩ | ⟨-, -, hsub⟩ := subInner_spec t (single (UInt64.ofNat t.digit.toNat))
    · rw [hsmall _ (by omega)] at hlt
      omega
    · rw [hsmall _ (by omega)] at hsub
      have heq : ((t.subInner (single (UInt64.ofNat t.digit.toNat))).1.toNat : ℤ) =
          t.toNat - t.digit := by omega
      rw [heq]

/-- The next scalar is what is left, modulo `2 ^ 320`. -/
theorem next_modEq (t : Scalar) : 32 * (t.next.toNat : ℤ) ≡ t.toNat - t.digit [ZMOD 32 ^ 64] := by
  have hsettled := settled_modEq t
  have hnext : t.next.toNat = t.settled.toNat / 2 ^ 5 :=
    Limbs.value_shiftRight (by norm_num) t.settled.words_limbs
  have hdigit := digit_eq t
  have hmod : (t.settled.toNat : ℤ) % 32 = 0 := by
    have hlow := hsettled.of_dvd (show (32 : ℤ) ∣ 32 ^ 64 from dvd_pow_self 32 (by norm_num))
    rw [hlow]
    split_ifs at hdigit <;> omega
  have heq : 32 * (t.next.toNat : ℤ) = t.settled.toNat := by omega
  rw [heq]
  exact hsettled

/-- Any number of digits up to 64 make up the scalar, modulo a power of 32. -/
theorem digitSum_modEq {n : ℕ} (hn : n ≤ 64) (t : Scalar) :
    digitSum (recodeSigned n t) ≡ t.toNat [ZMOD 32 ^ n] := by
  induction n generalizing t with
  | zero => exact (Int.modEq_one)
  | succ n ih =>
    have hrest := (ih (by omega) t.next).mul_left' (c := 32)
    rw [← pow_succ'] at hrest
    have hnext := (next_modEq t).of_dvd (pow_dvd_pow (32 : ℤ) hn)
    have hsum := (hrest.trans hnext).add_left t.digit
    rw [add_sub_cancel] at hsum
    exact hsum

theorem digitSum_eq_low (t : Scalar) : digitSum (recodeSigned 63 t) = low t.toNat := by
  have hmod := digitSum_modEq (show 63 ≤ 64 by omega) t
  have hbounds := digitSum_bounds (recodeSigned_digit 63 t)
  rw [length_recodeSigned] at hbounds
  have hshift := hmod.add_right (16 * ((32 ^ 63 - 1) / 31))
  norm_num at hbounds
  rw [low, ← hshift.eq, Int.emod_eq_of_lt]
  · ring
  · norm_num
    omega
  · norm_num
    omega

/-- Up to the largest number of 63 digits, nothing is lost. -/
theorem low_eq {x : ℕ} (h : 31 * (x : ℤ) ≤ 15 * (32 ^ 63 - 1)) : low x = x := by
  norm_num at h
  rw [low, Int.emod_eq_of_lt]
  · ring
  · norm_num
    omega
  · norm_num
    omega

end Scalar

/-! ## Elements of the group -/

namespace Point

/-- The element that the generator stands for. -/
noncomputable def generatorElement : Group := exists_generator_denotes.choose

theorem generator_denotes : generator.Denotes generatorElement :=
  exists_generator_denotes.choose_spec

theorem Denotes.mul {P : Point} {g : Group} (hP : P.Denotes g) (s : Scalar) :
    (P.mul s).Denotes (Scalar.low s.toNat • g) := by
  rw [← Scalar.digitSum_eq_low]
  exact mul_denotes hP s

theorem mulgen_denotes (s : Scalar) : (mulgen s).Denotes (Scalar.low s.toNat • generatorElement) :=
  generator_denotes.mul s

/-- The encoding says which element it is. -/
theorem Denotes.encode_eq_iff {P Q : Point} {g h : Group} (hP : P.Denotes g) (hQ : Q.Denotes h) :
    P.encode = Q.encode ↔ g = h := by
  constructor
  · intro heq
    have hp := (decode_encode hP).2
    rw [heq] at hp
    exact hp.unique (decode_encode hQ).2 ⟨rfl, rfl⟩
  · rintro rfl
    exact hP.encode_eq hQ

end Point

namespace Schnorr

open Point

/-! ## Specification -/

/-- The signature of a key and a nonce is canonical and accepted with the public key of the key. -/
structure Verifies (hash : List GFp → GFp5) (privateKey : Bytes) (x : GFp5) (kBytes : Bytes) :
    Prop where
  canonical : ∃ sig : Signature, sig.s.Canonical ∧ sig.e.Canonical ∧
    sig.toBytes = signWith hash privateKey x kBytes
  accepted : verifyWith hash (derivePublicKey privateKey) x (signWith hash privateKey x kBytes) =
    true

/-- A nonce of 320 bits, from which the order is taken off once. -/
def nonce (v : ℕ) : ℕ := if v < Scalar.order.toNat then v else v - Scalar.order.toNat

/-- `k - c`, to which the order is added where it is negative. -/
def response (k c : ℕ) : ℕ := if c ≤ k then k - c else k + Scalar.order.toNat - c

/-- The challenge of a message. -/
def challengeOf (hash : List GFp → GFp5) (x : GFp5) (kBytes : Bytes) : ℕ :=
  (challengeWith hash (mulgen (.fromRandomBytes kBytes)).encode x).toNat

/-- What `verify` computes from the response, with the low digits of the scalars. -/
def recovered (k d e : ℕ) : ℤ :=
  Scalar.low (response k (e * d % Scalar.order.toNat)) + Scalar.low e * Scalar.low d

/-- The multiples of the generator by `a` and `b` have one challenge. -/
def Collides (hash : List GFp → GFp5) (x : GFp5) (a b : ℤ) : Prop :=
  ∃ P Q : Point, P.Denotes (a • generatorElement) ∧ Q.Denotes (b • generatorElement) ∧
    P.encode ≠ Q.encode ∧ challengeWith hash P.encode x = challengeWith hash Q.encode x

/-- The response is reduced, and the low digits give back the nonce, or the hash collides. -/
structure Balanced (hash : List GFp → GFp5) (d : ℕ) (x : GFp5) (kBytes : Bytes) : Prop where
  reduced : nonce (ofLe kBytes) <
    Scalar.order.toNat + challengeOf hash x kBytes * d % Scalar.order.toNat
  digits : recovered (nonce (ofLe kBytes)) d (challengeOf hash x kBytes) ≡
      Scalar.low (nonce (ofLe kBytes)) [ZMOD addOrderOf generatorElement] ∨
    Collides hash x (recovered (nonce (ofLe kBytes)) d (challengeOf hash x kBytes))
      (Scalar.low (nonce (ofLe kBytes)))

/-! ## The signature -/

variable {hash : List GFp → GFp5} {x : GFp5} {privateKey kBytes : Bytes}

theorem toNat_nonce (h : kBytes.length = 40) :
    (Scalar.fromRandomBytes kBytes).toNat = nonce (ofLe kBytes) := by
  rw [Scalar.fromRandomBytes, Scalar.toNat_select_subInner, Scalar.toNat_ofBytes_of_length h, nonce]

theorem toNat_privateKey (h : privateKey.length = 40) :
    (Scalar.decode privateKey).1.toNat = ofLe privateKey := by
  rw [Scalar.decode_eq h.ge, Scalar.toNat_ofBytes_of_length h]

theorem challengeWith_canonical (hash : List GFp → GFp5) (r x : GFp5) :
    (challengeWith hash r x).Canonical := by
  rw [Scalar.Canonical, challengeWith, Scalar.toNat_fromGfp5]
  exact Nat.mod_lt _ Scalar.order_pos

theorem toNat_response (sk k : Scalar) {e : Scalar} (he : e.Canonical) :
    (k.sub (e.mul sk)).toNat = response k.toNat (e.toNat * sk.toNat % Scalar.order.toNat) := by
  have hmul := Scalar.toNat_mul he sk
  have hlt : (e.mul sk).toNat < Scalar.order.toNat := hmul ▸ Nat.mod_lt _ Scalar.order_pos
  rw [Scalar.toNat_sub_eq k hlt, hmul, response]

theorem response_lt_iff {k c : ℕ} (hc : c < Scalar.order.toNat) :
    response k c < Scalar.order.toNat ↔ k < Scalar.order.toNat + c := by
  rw [response]
  split_ifs with h
  · omega
  · omega

theorem zsmul_add_zsmul_zsmul {G : Type*} [AddCommGroup G] (a b c : ℤ) (g : G) :
    a • g + b • c • g = (a + b * c) • g := by
  rw [add_smul, mul_smul]

/-- The point that `verify` encodes is a multiple of the generator. -/
theorem commitment_denotes (sk : Scalar) (sig : Signature) :
    ∃ P : Point, commitment (decode (mulgen sk).encode).1 sig = P.encode ∧
      P.Denotes ((Scalar.low sig.s.toNat + Scalar.low sig.e.toNat * Scalar.low sk.toNat) •
        generatorElement) := by
  have hkey := (decode_encode (mulgen_denotes sk)).2
  have hsum := (mulgen_denotes sig.s).setAdd (hkey.mul sig.e)
  rw [zsmul_add_zsmul_zsmul] at hsum
  refine ⟨_, ?_, hsum⟩
  rw [commitment]

/-- The challenge of a multiple of the generator is that of its multiplier. -/
theorem challenge_eq_iff {P Q : Point} {a b : ℤ} (hP : P.Denotes (a • generatorElement))
    (hQ : Q.Denotes (b • generatorElement)) :
    challengeWith hash P.encode x = challengeWith hash Q.encode x ↔
      a ≡ b [ZMOD addOrderOf generatorElement] ∨ Collides hash x a b := by
  rw [← zsmul_eq_zsmul_iff_modEq, ← hP.encode_eq_iff hQ]
  constructor
  · intro heq
    by_cases hsame : P.encode = Q.encode
    · exact .inl hsame
    · exact .inr ⟨P, Q, hP, hQ, hsame, heq⟩
  · rintro (hsame | ⟨P', Q', hP', hQ', -, heq⟩)
    · rw [hsame]
    · rw [hP.encode_eq hP', hQ.encode_eq hQ', heq]

/-- A signature checks where the low digits give back the nonce. -/
theorem checks_iff (sk k : Scalar) :
    ChecksWith hash (mulgen sk).encode x (signWithNonceWith hash sk x k) ↔
      recovered k.toNat sk.toNat (challengeWith hash (mulgen k).encode x).toNat ≡
          Scalar.low k.toNat [ZMOD addOrderOf generatorElement] ∨
        Collides hash x
          (recovered k.toNat sk.toNat (challengeWith hash (mulgen k).encode x).toNat)
          (Scalar.low k.toNat) := by
  have haccepted : (decode (mulgen sk).encode).2 ≠ 0 := by
    rw [(decode_encode (mulgen_denotes sk)).1]
    decide
  obtain ⟨P, hcommitment, hP⟩ := commitment_denotes sk (signWithNonceWith hash sk x k)
  have hresponse := toNat_response sk k (challengeWith_canonical hash (mulgen k).encode x)
  have hs : (signWithNonceWith hash sk x k).s.toNat = response k.toNat _ := hresponse
  have he : (signWithNonceWith hash sk x k).e = challengeWith hash (mulgen k).encode x := rfl
  rw [hs, he] at hP
  rw [ChecksWith, hcommitment, he, recovered, and_iff_right haccepted]
  exact challenge_eq_iff hP (mulgen_denotes k)

theorem signature_length (sig : Signature) : sig.toBytes.length = 80 := by
  rw [Signature.toBytes, List.length_append, Scalar.length_encode, Scalar.length_encode]

/-- What `verify` reads is what `sign` wrote. -/
theorem verifies_iff_checks : Verifies hash privateKey x kBytes ↔
    (signWithNonceWith hash (Scalar.decode privateKey).1 x (.fromRandomBytes kBytes)).s.Canonical ∧
      ChecksWith hash (mulgen (Scalar.decode privateKey).1).encode x
        (signWithNonceWith hash (Scalar.decode privateKey).1 x (.fromRandomBytes kBytes)) := by
  have hread := verifyWith_iff hash
    (GFp5.length_encode (mulgen (Scalar.decode privateKey).1).encode)
    (signature_length (signWithNonceWith hash (Scalar.decode privateKey).1 x
      (.fromRandomBytes kBytes))) x
  constructor
  · rintro ⟨⟨sig, hs, -, hbytes⟩, haccepted⟩
    obtain rfl := signature_injective hbytes
    obtain ⟨w, sig', hw, -, -, hbytes', hchecks⟩ := hread.mp haccepted
    obtain rfl := signature_injective hbytes'
    obtain rfl := GFp5.encode_injective hw
    exact ⟨hs, hchecks⟩
  · rintro ⟨hs, hchecks⟩
    have he := challengeWith_canonical hash (mulgen (.fromRandomBytes kBytes)).encode x
    exact ⟨⟨_, hs, he, rfl⟩, hread.mpr ⟨_, _, rfl, hs, he, rfl, hchecks⟩⟩

theorem verifies_iff_balanced (hkey : privateKey.length = 40) (hk : kBytes.length = 40)
    (hash : List GFp → GFp5) (x : GFp5) :
    Verifies hash privateKey x kBytes ↔ Balanced hash (ofLe privateKey) x kBytes := by
  have he := challengeWith_canonical hash (mulgen (.fromRandomBytes kBytes)).encode x
  have hs : (signWithNonceWith hash (Scalar.decode privateKey).1 x
      (.fromRandomBytes kBytes)).s.toNat = response (nonce (ofLe kBytes))
        (challengeOf hash x kBytes * ofLe privateKey % Scalar.order.toNat) := by
    rw [← toNat_nonce hk, ← toNat_privateKey hkey]
    exact toNat_response _ _ he
  rw [verifies_iff_checks, checks_iff, Scalar.Canonical, hs,
    response_lt_iff (Nat.mod_lt _ Scalar.order_pos), toNat_nonce hk, toNat_privateKey hkey]
  exact ⟨fun h => ⟨h.1, h.2⟩, fun h => ⟨h.reduced, h.digits⟩⟩

/-! ## Where nothing is lost -/

/-- The scalar has 63 signed digits. -/
def Short (x : ℕ) : Prop := 31 * (x : ℤ) ≤ 15 * (32 ^ 63 - 1)

theorem response_modEq {k c : ℕ} (hc : c < Scalar.order.toNat) :
    (response k c : ℤ) + c ≡ k [ZMOD Scalar.order.toNat] := by
  rw [response]
  split_ifs with hle
  · rw [Nat.cast_sub hle, sub_add_cancel]
  · rw [Nat.cast_sub (by omega), sub_add_cancel, Nat.cast_add]
    exact Int.add_modEq_right

/-- In a group of that order, the signatures of short scalars verify. -/
theorem balanced_of_short (horder : Scalar.order.toNat • generatorElement = 0) {d : ℕ}
    (hk : nonce (ofLe kBytes) < Scalar.order.toNat) (hkShort : Short (nonce (ofLe kBytes)))
    (hdShort : Short d) (heShort : Short (challengeOf hash x kBytes))
    (hsShort : Short (response (nonce (ofLe kBytes))
      (challengeOf hash x kBytes * d % Scalar.order.toNat))) :
    Balanced hash d x kBytes := by
  have hc := Nat.mod_lt (challengeOf hash x kBytes * d) Scalar.order_pos
  refine ⟨by omega, .inl ?_⟩
  rw [recovered, Scalar.low_eq hsShort, Scalar.low_eq heShort, Scalar.low_eq hdShort,
    Scalar.low_eq hkShort]
  have hdvd : (addOrderOf generatorElement : ℤ) ∣ Scalar.order.toNat := by
    exact_mod_cast addOrderOf_dvd_of_nsmul_eq_zero horder
  apply Int.ModEq.of_dvd hdvd
  refine Int.ModEq.trans (Int.ModEq.add_left _ ?_) (response_modEq hc)
  push_cast
  exact (Int.mod_modEq _ _).symm

/-- **Main theorem.** A signature is canonical and accepted exactly when its response is reduced and
    the low digits of the scalars give back the nonce, or the hash collides. -/
theorem signatures_verify_iff (hkey : privateKey.length = 40) (hk : kBytes.length = 40)
    (hash : List GFp → GFp5) (x : GFp5) :
    Verifies hash privateKey x kBytes ↔ Balanced hash (ofLe privateKey) x kBytes :=
  verifies_iff_balanced hkey hk hash x

/-! ## Two signatures -/

/-- A hash with the value `v` at one preimage. -/
def hashAt (preimage : List GFp) (v : GFp5) : List GFp → GFp5 :=
  fun l => if l = preimage then v else .zero

theorem buildSchnorrPreimage_injective {r r' : GFp5}
    (h : buildSchnorrPreimage r x = buildSchnorrPreimage r' x) : r = r' := by
  simp only [buildSchnorrPreimage, GFp5.toBasefieldArray, fromCanonicalU64, List.map_append,
    List.map_cons, List.map_nil, GFp.fromU64Reduce_toU64, List.append_cancel_right_eq,
    List.cons.injEq, and_true] at h
  obtain ⟨h0, h1, h2, h3, h4⟩ := h
  cases r
  cases r'
  congr

theorem generatorElement_ne_zero : generatorElement ≠ 0 := by
  have h := generator_nsmul_ne_zero generator_denotes (show 0 < 15 by decide)
  rwa [Nat.zero_add, one_nsmul] at h

/-- At the encoding of one multiple only does the hash have another value than zero. -/
theorem not_collides {P : Point} {a b : ℤ} (hP : P.Denotes (b • generatorElement)) {v : GFp5}
    (hv : (Scalar.fromGfp5 v).toNat ≠ 0) :
    ¬Collides (hashAt (buildSchnorrPreimage P.encode x) v) x a b := by
  rintro ⟨Q, Q', -, hQ', hne, heq⟩
  rw [hQ'.encode_eq hP] at hne heq
  have hother : buildSchnorrPreimage Q.encode x ≠ buildSchnorrPreimage P.encode x :=
    fun hsame => hne (buildSchnorrPreimage_injective hsame)
  have hzero : (Scalar.fromGfp5 .zero).toNat = 0 := by decide +kernel
  simp only [challengeWith, hashAt, if_neg hother, if_true] at heq
  exact hv (heq ▸ hzero)

/-- The key 1, the nonce 5 and the challenge 2. -/
theorem key_one_verifies :
    Verifies (fun _ => .fromU64Reduce 2 0 0 0 0) (toLe 40 1) .zero (toLe 40 5) := by
  have hbytes : ofLe (toLe 40 1) = 1 ∧ nonce (ofLe (toLe 40 5)) = 5 := by decide +kernel
  have hchallenge : challengeOf (fun _ => .fromU64Reduce 2 0 0 0 0) .zero (toLe 40 5) = 2 := by
    have hvalue : (Scalar.fromGfp5 (.fromU64Reduce 2 0 0 0 0)).toNat = 2 := by decide +kernel
    exact hvalue
  have hsum : recovered 5 1 2 = 5 ∧ Scalar.low 5 = 5 := by decide +kernel
  refine (signatures_verify_iff (length_toLe 40 1) (length_toLe 40 5) _ _).mpr ⟨?_, .inl ?_⟩
  · rw [hchallenge, hbytes.1, hbytes.2, Scalar.toNat_order]
    norm_num
  · rw [hchallenge, hbytes.1, hbytes.2, hsum.1, hsum.2]

/-- With the key `2 ^ 313`, the nonce `2 ^ 315 + 1` and the challenge 4, the response is 1. The
    nonce loses its highest digit, and the product of challenge and key does not. -/
theorem not_signatures_verify :
    ¬∀ (hash : List GFp → GFp5) (privateKey kBytes : Bytes) (x : GFp5), privateKey.length = 40 →
      kBytes.length = 40 → ¬Scalar.order.toNat ∣ ofLe kBytes →
        Verifies hash privateKey x kBytes := by
  intro h
  have hkBytes : ¬Scalar.order.toNat ∣ ofLe (toLe 40 (2 ^ 315 + 1)) := by decide +kernel
  have hbytes : ofLe (toLe 40 (2 ^ 313)) = 2 ^ 313 ∧
      nonce (ofLe (toLe 40 (2 ^ 315 + 1))) = 2 ^ 315 + 1 := by decide +kernel
  have hfour : (Scalar.fromGfp5 (.fromU64Reduce 4 0 0 0 0)).toNat = 4 := by decide +kernel
  have hsum : recovered (2 ^ 315 + 1) (2 ^ 313) 4 = 1 + 2 ^ 315 ∧
      Scalar.low (2 ^ 315 + 1) = 1 := by decide +kernel
  have hk : (mulgen (.fromRandomBytes (toLe 40 (2 ^ 315 + 1)))).Denotes
      ((1 : ℤ) • generatorElement) := by
    have hlow := mulgen_denotes (.fromRandomBytes (toLe 40 (2 ^ 315 + 1)))
    rwa [toNat_nonce (length_toLe 40 _), hbytes.2, hsum.2] at hlow
  have hverifies := h (hashAt (buildSchnorrPreimage
      (mulgen (.fromRandomBytes (toLe 40 (2 ^ 315 + 1)))).encode .zero) (.fromU64Reduce 4 0 0 0 0))
    (toLe 40 (2 ^ 313)) (toLe 40 (2 ^ 315 + 1)) .zero (length_toLe 40 _) (length_toLe 40 _) hkBytes
  have hchallenge : challengeOf (hashAt (buildSchnorrPreimage
      (mulgen (.fromRandomBytes (toLe 40 (2 ^ 315 + 1)))).encode .zero) (.fromU64Reduce 4 0 0 0 0))
      .zero (toLe 40 (2 ^ 315 + 1)) = 4 := by
    rw [challengeOf, challengeWith, hashAt, if_pos rfl, hfour]
  rw [verifies_iff_balanced (length_toLe 40 _) (length_toLe 40 _)] at hverifies
  have hdigits := hverifies.digits
  rw [hchallenge, hbytes.1, hbytes.2, hsum.1, hsum.2] at hdigits
  rcases hdigits with hmod | hcollides
  · rw [← zsmul_eq_zsmul_iff_modEq, add_zsmul] at hmod
    have hlost : (2 ^ 315 : ℤ) • generatorElement = 0 := add_eq_left.mp hmod
    refine Denotes.two_pow_nsmul_ne_zero generator_denotes generatorElement_ne_zero 315 ?_
    rw [← natCast_zsmul]
    exact_mod_cast hlost
  · exact not_collides hk (by rw [hfour]; decide) hcollides

end Schnorr

end Digdigdig3.Lighter
