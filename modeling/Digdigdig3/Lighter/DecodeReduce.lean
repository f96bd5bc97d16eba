import Digdigdig3.Lighter.Scalar

/-!
# Decoding with reduction

`decode_reduce` and `reduce_wide_inner` of
`crates/digdigdig3/src/l3/open/crypto/dex/lighter/crypto/scalar.rs`. The bytes are cut into a first
piece of `len % 39` bytes (39 where this is zero) and pieces of 39 bytes behind it, taken from the
low end up.

* `toNat_decodeReduce`: what is read is the value of the pieces in base `2^632`, the last piece
  lowest.
* `decodesReduced_iff`: up to 39 bytes, which are one piece, this is the little-endian integer.
-/

namespace Digdigdig3.Lighter

open Limbs

namespace Scalar

/-- `T632` (lines 42–48): `2^632` modulo `n`. -/
def t632 : Scalar :=
  ⟨[0x2B0266F317CA91B3, 0xEC1D26528E984773, 0x8651D7865E12DB94, 0xDA2ADFF5941574D0,
    0x53CACA12110CA256], rfl, by decide⟩

/-- `reduce_wide_inner` (lines 233–240): the order taken off twice, where it can be. -/
def reduceWideInner (limbs : Scalar) : Scalar :=
  let r1 := limbs.subInner order
  let r := select r1.2 r1.1 limbs
  let r2 := r.subInner order
  select r2.2 r2.1 r

/-- The limbs of a piece copied to the front of 40 zero bytes (lines 202–207 and 217–222). -/
def ofPiece (chunk : Bytes) : Scalar := ofBytes (chunk ++ toLe (40 - chunk.length) 0)

/-- The length of the first piece (lines 196–199). -/
def offset (buf : Bytes) : ℕ := if buf.length % 39 = 0 then 39 else buf.length % 39

/-- The loop over the remaining pieces (lines 211–228). -/
def addPieces (acc : Scalar) (rest : Bytes) : Scalar :=
  if 39 ≤ rest.length then
    addPieces ((acc.mul t632).add (reduceWideInner (ofPiece (rest.take 39)))) (rest.drop 39)
  else acc
termination_by rest.length
decreasing_by
  rw [List.length_drop]
  omega

/-- `decode_reduce` (lines 191–230). -/
def decodeReduce (buf : Bytes) : Scalar :=
  if buf = [] then zero
  else addPieces (reduceWideInner (ofPiece (buf.take (offset buf)))) (buf.drop (offset buf))

/-! ## Pieces -/

/-- The first piece and those of 39 bytes behind it. -/
def pieces (buf : Bytes) : List Bytes :=
  buf.take (offset buf) ::
    (List.range ((buf.length - offset buf) / 39)).map fun i =>
      slice (buf.drop (offset buf)) (39 * i) 39

/-- The pieces from the last one down, in base `2^632`, come to the little-endian integer. -/
def InPlace (buf : Bytes) : Prop :=
  value (2 ^ 632) ((pieces buf).map ofLe).reverse ≡ ofLe buf [MOD order.toNat]

instance (buf : Bytes) : Decidable (InPlace buf) := Nat.decEq _ _

theorem offset_bounds {first : Bytes} {rest : List Bytes} (hpos : 0 < first.length)
    (hle : first.length ≤ 39) (hrest : ∀ c ∈ rest, c.length = 39) :
    offset (first ++ rest.flatten) = first.length := by
  have hlen : rest.flatten.length = 39 * rest.length := length_flatten_pieces hrest
  rw [offset, List.length_append, hlen]
  split_ifs <;> omega

theorem pieces_append {first : Bytes} {rest : List Bytes} (hpos : 0 < first.length)
    (hle : first.length ≤ 39) (hrest : ∀ c ∈ rest, c.length = 39) :
    pieces (first ++ rest.flatten) = first :: rest := by
  have hcount : ((first ++ rest.flatten).length - first.length) / 39 = rest.length := by
    rw [List.length_append, length_flatten_pieces hrest]
    omega
  rw [pieces, offset_bounds hpos hle hrest, hcount, List.take_left', List.drop_left',
    map_slice_flatten hrest] <;> rfl

/-- Every string but the empty one is cut so. -/
theorem exists_pieces {buf : Bytes} (h : buf ≠ []) :
    ∃ (first : Bytes) (rest : List Bytes), 0 < first.length ∧ first.length ≤ 39 ∧
      (∀ c ∈ rest, c.length = 39) ∧ buf = first ++ rest.flatten := by
  have hlen := List.length_pos_iff.mpr h
  have hoff : 0 < offset buf ∧ offset buf ≤ 39 ∧ offset buf ≤ buf.length ∧
      buf.length - offset buf = 39 * ((buf.length - offset buf) / 39) := by
    unfold offset
    split_ifs <;> omega
  obtain ⟨hpos, hle, hcap, hcount⟩ := hoff
  have hrest : (buf.drop (offset buf)).length = 39 * ((buf.length - offset buf) / 39) := by
    rw [List.length_drop, ← hcount]
  refine ⟨buf.take (offset buf), _, ?_, ?_, length_of_mem_slices hrest, ?_⟩
  · rw [List.length_take]
    omega
  · rw [List.length_take]
    omega
  · rw [flatten_map_slice hrest, List.take_append_drop]

/-! ## What is read -/

theorem toNat_t632 : t632.toNat =
    0x53CACA12110CA256DA2ADFF5941574D08651D7865E12DB94EC1D26528E9847732B0266F317CA91B3 := rfl

theorem two_pow_632 : (2 : ℕ) ^ 632 = (2 ^ 79) ^ 8 := pow_mul 2 79 8

theorem t632_modEq : t632.toNat ≡ 2 ^ 632 [MOD order.toNat] := by
  rw [two_pow_632, toNat_order, toNat_t632, Nat.ModEq]
  norm_num

/-- Twice is enough for 320 bits. -/
theorem lt_three_order : (2 ^ 64) ^ 5 < 3 * order.toNat := by
  rw [toNat_order]
  norm_num

theorem toNat_reduceWideInner (s : Scalar) :
    (reduceWideInner s).toNat = s.toNat % order.toNat := by
  have hcap := s.toNat_lt
  have hthree := lt_three_order
  have hfirst := toNat_select_subInner s
  have hmod := (select_subInner_modEq _).trans (select_subInner_modEq s)
  have hlt := (select_subInner_lt_iff (select (s.subInner order).2 (s.subInner order).1 s)).mpr (by
    rw [hfirst]
    split_ifs <;> omega)
  exact (Nat.mod_eq_of_lt hlt).symm.trans hmod

theorem ofLe_toLe_zero (k : ℕ) : ofLe (toLe k 0) = 0 := by rw [ofLe_toLe, Nat.zero_mod]

theorem toNat_ofPiece {chunk : Bytes} (h : chunk.length ≤ 40) :
    (ofPiece chunk).toNat = ofLe chunk := by
  have hlen : (chunk ++ toLe (40 - chunk.length) 0).length = 40 := by
    rw [List.length_append, length_toLe]
    omega
  rw [ofPiece, toNat_ofBytes_of_length hlen, ofLe_append,
    ofLe_toLe_zero, Nat.mul_zero, Nat.add_zero]

/-- One turn of the loop: the pieces before it move up. -/
theorem toNat_addPiece {acc : Scalar} {low : List ℕ} {chunk : Bytes} (hchunk : chunk.length = 39)
    (hacc : acc.toNat = value (2 ^ 632) low % order.toNat) :
    ((acc.mul t632).add (reduceWideInner (ofPiece chunk))).toNat =
      value (2 ^ 632) (ofLe chunk :: low) % order.toNat := by
  have hlt : acc.toNat < order.toNat := hacc ▸ Nat.mod_lt _ order_pos
  have hmul := toNat_mul hlt t632
  have hpiece : (reduceWideInner (ofPiece chunk)).toNat = ofLe chunk % order.toNat := by
    rw [toNat_reduceWideInner, toNat_ofPiece (by omega)]
  have hmulLt : (acc.mul t632).toNat < order.toNat := hmul ▸ Nat.mod_lt _ order_pos
  have hpieceLt : (reduceWideInner (ofPiece chunk)).toNat < order.toNat :=
    hpiece ▸ Nat.mod_lt _ order_pos
  rw [toNat_add hmulLt hpieceLt, hmul, hpiece, ← Nat.add_mod, hacc, value_cons, add_comm,
    mul_comm (2 ^ 632)]
  exact (((Nat.mod_modEq _ _).mul t632_modEq).add_left _)

theorem toNat_addPieces {rest : List Bytes} (hrest : ∀ c ∈ rest, c.length = 39) {acc : Scalar}
    {low : List ℕ} (hacc : acc.toNat = value (2 ^ 632) low % order.toNat) :
    (addPieces acc rest.flatten).toNat =
      value (2 ^ 632) ((rest.map ofLe).reverse ++ low) % order.toNat := by
  induction rest generalizing acc low with
  | nil =>
    rw [addPieces, if_neg (by simp)]
    exact hacc
  | cons c rest ih =>
    have hc : c.length = 39 := hrest c List.mem_cons_self
    have hlong : 39 ≤ (c :: rest).flatten.length := by
      rw [List.flatten_cons, List.length_append]
      omega
    rw [addPieces, if_pos hlong, List.flatten_cons, List.take_left' hc, List.drop_left' hc,
      ih (fun d hd => hrest d (List.mem_cons_of_mem c hd)) (toNat_addPiece hc hacc)]
    simp

/-- The last piece is the lowest. -/
theorem toNat_decodeReduce (buf : Bytes) :
    (decodeReduce buf).toNat =
      value (2 ^ 632) ((pieces buf).map ofLe).reverse % order.toNat := by
  by_cases h : buf = []
  · rw [h]
    decide +kernel
  · obtain ⟨first, rest, hpos, hle, hrest, rfl⟩ := exists_pieces h
    have hfirst : (reduceWideInner (ofPiece first)).toNat =
        value (2 ^ 632) [ofLe first] % order.toNat := by
      rw [toNat_reduceWideInner, toNat_ofPiece (by omega), value_cons, value_nil, Nat.mul_zero,
        Nat.add_zero]
    rw [decodeReduce, if_neg h, offset_bounds hpos hle hrest, List.take_left' rfl,
      List.drop_left' rfl, toNat_addPieces hrest hfirst, pieces_append hpos hle hrest]
    simp

/-! ## All of it -/

/-- `decode_reduce` is the little-endian integer modulo `n`: it agrees with `decode`, and `k` zero
    bytes behind make no difference. -/
structure DecodesReduced (buf : Bytes) (k : ℕ) : Prop where
  residue : (decodeReduce buf).toNat = ofLe buf % order.toNat
  agrees : buf.length = 40 → Accepted buf → decodeReduce buf = (decode buf).1
  padded : decodeReduce (buf ++ List.replicate k 0) = decodeReduce buf

theorem residue_iff (buf : Bytes) :
    (decodeReduce buf).toNat = ofLe buf % order.toNat ↔ InPlace buf := by
  rw [toNat_decodeReduce]
  rfl

theorem ofLe_padded (buf : Bytes) (k : ℕ) : ofLe (buf ++ List.replicate k 0) = ofLe buf := by
  rw [ofLe_append, ofLe_zeros, Nat.mul_zero, Nat.add_zero]

theorem decodesReduced_iff_inPlace (buf : Bytes) (k : ℕ) :
    DecodesReduced buf k ↔ InPlace buf ∧ InPlace (buf ++ List.replicate k 0) := by
  rw [← residue_iff, ← residue_iff, ofLe_padded]
  constructor
  · intro h
    exact ⟨h.residue, h.padded ▸ h.residue⟩
  · rintro ⟨hbuf, hpadded⟩
    refine ⟨hbuf, fun hlen hacc => ?_, toNat_injective (hpadded.trans hbuf.symm)⟩
    have hlt := ((accepted_iff buf).mp hacc).2
    rw [List.take_of_length_le hlen.le] at hlt
    apply toNat_injective
    rw [hbuf, Nat.mod_eq_of_lt hlt, decode_eq hlen.ge, toNat_ofBytes hlen.ge,
      List.take_of_length_le hlen.le]

/-! ## Lengths -/

/-- One piece is in its place. -/
theorem inPlace_of_length_le {buf : Bytes} (h : buf.length ≤ 39) : InPlace buf := by
  by_cases hnil : buf = []
  · rw [hnil]
    decide +kernel
  · have hone := @pieces_append buf [] (List.length_pos_iff.mpr hnil) h (by simp)
    rw [List.flatten_nil, List.append_nil] at hone
    rw [InPlace, hone]
    simp [Nat.ModEq]

theorem inPlace_append {first : Bytes} {rest : List Bytes} (hpos : 0 < first.length)
    (hle : first.length ≤ 39) (hrest : ∀ c ∈ rest, c.length = 39) :
    InPlace (first ++ rest.flatten) ↔
      value (2 ^ 632) ((rest.map ofLe).reverse ++ [ofLe first]) ≡
        ofLe first + 256 ^ first.length * value (256 ^ 39) (rest.map ofLe) [MOD order.toNat] := by
  rw [InPlace, pieces_append hpos hle hrest, List.map_cons, List.reverse_cons, ofLe_append,
    ofLe_flatten hrest]

/-- A piece of zeros. -/
def zeroPiece : Bytes := toLe 39 0

/-- A piece that reads as one. -/
def onePiece : Bytes := toLe 39 1

theorem ofLe_zeroPiece : ofLe zeroPiece = 0 := ofLe_toLe_zero 39

theorem ofLe_onePiece : ofLe onePiece = 1 := ofLe_toLe_of_lt (by norm_num)

theorem ofLe_one_cons (k : ℕ) : ofLe (1 :: List.replicate k 0) = 1 := by
  rw [ofLe, ofLe_zeros]
  rfl

theorem not_one_modEq : ¬2 ^ 632 ≡ 1 [MOD order.toNat] := by
  rw [two_pow_632, toNat_order, Nat.ModEq]
  norm_num

theorem not_two_modEq : ¬1 ≡ 2 ^ 632 * 256 ^ 39 [MOD order.toNat] := by
  rw [two_pow_632, toNat_order, Nat.ModEq]
  norm_num

/-- With one further piece, the first one is not in its place. -/
theorem not_inPlace_two {k : ℕ} (hk : k < 39) :
    ¬InPlace ((1 :: List.replicate k 0) ++ [zeroPiece].flatten) := by
  rw [inPlace_append (by simp) (by simpa using hk) (by simp [zeroPiece]), List.map_singleton,
    ofLe_zeroPiece, ofLe_one_cons]
  simpa using not_one_modEq

/-- A one at the foot of a piece that has `before` pieces of zeros and a first one in front of it,
    and `behind` pieces of zeros behind it. -/
def marked (first before behind : ℕ) : Bytes :=
  toLe first 0 ++
    (List.replicate before zeroPiece ++ onePiece :: List.replicate behind zeroPiece).flatten

theorem inPlace_marked {first : ℕ} (hpos : 0 < first) (hle : first ≤ 39) (before behind : ℕ) :
    InPlace (marked first before behind) ↔
      (2 ^ 632) ^ behind ≡ 256 ^ first * (256 ^ 39) ^ before [MOD order.toNat] := by
  have hmap : (List.replicate before zeroPiece ++ onePiece :: List.replicate behind zeroPiece).map
      ofLe = List.replicate before 0 ++ 1 :: List.replicate behind 0 := by
    rw [List.map_append, List.map_replicate, List.map_cons, List.map_replicate, ofLe_zeroPiece,
      ofLe_onePiece]
  rw [marked, inPlace_append (by simpa using hpos) (by simpa using hle), hmap, ofLe_toLe_zero,
    length_toLe]
  · rw [List.reverse_append, List.reverse_cons, List.reverse_replicate, List.reverse_replicate,
      value_append, value_append, value_append, value_append]
    simp [value_replicate_zero]
  · intro c hc
    simp only [List.mem_append, List.mem_cons, List.mem_replicate] at hc
    obtain ⟨-, rfl⟩ | rfl | ⟨-, rfl⟩ := hc <;> simp [zeroPiece, onePiece]

theorem length_marked (first before behind : ℕ) :
    (marked first before behind).length = first + 39 * (before + 1 + behind) := by
  simp [marked, zeroPiece, onePiece]
  ring

/-- Every length above 39 has a string with a piece out of its place. -/
theorem exists_not_inPlace {L : ℕ} (h : 39 < L) : ∃ buf : Bytes, buf.length = L ∧ ¬InPlace buf := by
  obtain ⟨first, count, hpos, hle, rfl⟩ : ∃ first count, 0 < first ∧ first ≤ 39 ∧
      first + 39 * (count + 1) = L :=
    ⟨(L - 1) % 39 + 1, (L - 1) / 39 - 1, by omega, by omega, by omega⟩
  cases count with
  | zero =>
    refine ⟨(1 :: List.replicate (first - 1) 0) ++ [zeroPiece].flatten, ?_,
      not_inPlace_two (by omega)⟩
    simp [zeroPiece]
    omega
  | succ count =>
    -- the last piece asks for one power of two, the piece before it for another
    by_contra hall
    push Not at hall
    have hlast := (inPlace_marked hpos hle (count + 1) 0).mp (hall _ (by
      rw [length_marked]))
    have hprev := (inPlace_marked hpos hle count 1).mp (hall _ (by
      rw [length_marked]))
    have hboth : 1 ≡ 2 ^ 632 * 256 ^ 39 [MOD order.toNat] := by
      rw [pow_zero, pow_succ, ← mul_assoc] at hlast
      rw [pow_one] at hprev
      exact hlast.trans (hprev.symm.mul_right _)
    exact not_two_modEq hboth

/-- Right on up to 39 bytes, and beyond where the pieces happen to come to the same. -/
theorem decodesReduced_iff (buf : Bytes) (k L : ℕ) :
    (DecodesReduced buf k ↔ InPlace buf ∧ InPlace (buf ++ List.replicate k 0)) ∧
      ((∀ (other : Bytes) (zeros : ℕ), other.length + zeros = L → DecodesReduced other zeros) ↔
        L ≤ 39) := by
  refine ⟨decodesReduced_iff_inPlace buf k, fun h => ?_, fun hL other zeros hlen => ?_⟩
  · by_contra hlong
    obtain ⟨other, hlen, hnot⟩ := exists_not_inPlace (not_le.mp hlong)
    exact hnot ((decodesReduced_iff_inPlace other 0).mp (h other 0 hlen)).1
  · rw [decodesReduced_iff_inPlace]
    constructor
    · exact inPlace_of_length_le (by omega)
    · apply inPlace_of_length_le
      rw [List.length_append, List.length_replicate]
      omega

/-- The encoding of one, and a zero byte behind 39 bytes that read as one. -/
theorem not_decodesReduced :
    ¬DecodesReduced (single 1).encode 0 ∧ ¬DecodesReduced (1 :: List.replicate 38 0) 1 := by
  have hone : (single 1).encode = (1 :: List.replicate 0 0) ++ [zeroPiece].flatten := by decide
  constructor
  · rw [decodesReduced_iff_inPlace, hone]
    exact fun h => not_inPlace_two (by norm_num) h.1
  · rw [decodesReduced_iff_inPlace]
    exact fun h => not_inPlace_two (by norm_num : 0 < 39) h.2

end Scalar

end Digdigdig3.Lighter
