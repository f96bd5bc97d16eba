import Digdigdig3.Lib.Bytes

/-!
# Lists of fixed-width items behind a `u32` count

* `decodeCounted_encodeCounted_append`: a list shorter than `2^32` reads back, whatever
  follows it.
-/

namespace Digdigdig3

/-- An item of `width` bytes. -/
structure ItemCodec (α : Type*) where
  width : ℕ
  enc : α → Bytes
  dec : Bytes → α
  length_enc : ∀ a, (enc a).length = width
  dec_enc : ∀ a, dec (enc a) = a

variable {α : Type*} (C : ItemCodec α)

/-- The count, then the items. -/
def encodeCounted (xs : List α) : Bytes := toLe 4 xs.length ++ xs.flatMap C.enc

/-- The items and the number of bytes they took, or `none` where the bytes do not hold as
    many items as they announce. -/
def decodeCounted (bs : Bytes) : Option (List α × ℕ) :=
  if bs.length < 4 then none
  else
    let count := ofLe (slice bs 0 4)
    let need := 4 + count * C.width
    if bs.length < need then none
    else some ((List.range count).map fun i => C.dec (slice bs (4 + i * C.width) C.width), need)

theorem length_flatMap_enc (xs : List α) : (xs.flatMap C.enc).length = xs.length * C.width := by
  induction xs with
  | nil => simp
  | cons x xs ih =>
    rw [List.flatMap_cons, List.length_append, C.length_enc, ih, List.length_cons]
    ring

theorem length_encodeCounted (xs : List α) :
    (encodeCounted C xs).length = 4 + xs.length * C.width := by
  rw [encodeCounted, List.length_append, length_toLe, length_flatMap_enc]

/-- Item `i` lies at its offset. -/
theorem slice_flatMap_enc (pre : Bytes) (xs : List α) (rest : Bytes) {i : ℕ} (hi : i < xs.length) :
    slice (pre ++ (xs.flatMap C.enc ++ rest)) (pre.length + i * C.width) C.width =
      C.enc xs[i] := by
  have hsplit : xs.flatMap C.enc = (xs.take i).flatMap C.enc ++
      (C.enc xs[i] ++ (xs.drop (i + 1)).flatMap C.enc) := by
    rw [← List.flatMap_cons, ← List.flatMap_append, List.getElem_cons_drop, List.take_append_drop]
  have hlen : (pre ++ (xs.take i).flatMap C.enc).length = pre.length + i * C.width := by
    rw [List.length_append, length_flatMap_enc, List.length_take, min_eq_left hi.le]
  have hmid := slice_append_mid (pre ++ (xs.take i).flatMap C.enc) (C.enc xs[i])
    ((xs.drop (i + 1)).flatMap C.enc ++ rest)
  rw [hlen, C.length_enc] at hmid
  rw [← hmid, hsplit]
  simp only [List.append_assoc]

/-- A list shorter than `2^32` reads back, whatever follows it. -/
theorem decodeCounted_encodeCounted_append {xs : List α} (h : xs.length < 256 ^ 4) (rest : Bytes) :
    decodeCounted C (encodeCounted C xs ++ rest) = some (xs, (encodeCounted C xs).length) := by
  have hbytes : encodeCounted C xs ++ rest = toLe 4 xs.length ++ (xs.flatMap C.enc ++ rest) := by
    rw [encodeCounted, List.append_assoc]
  have hcount : ofLe (slice (encodeCounted C xs ++ rest) 0 4) = xs.length := by
    have hmid := slice_append_mid [] (toLe 4 xs.length) (xs.flatMap C.enc ++ rest)
    rw [List.length_nil, length_toLe, List.nil_append] at hmid
    rw [hbytes, hmid, ofLe_toLe_of_lt h]
  have hlen := length_encodeCounted C xs
  have hitems : (List.range xs.length).map (fun i =>
      C.dec (slice (encodeCounted C xs ++ rest) (4 + i * C.width) C.width)) = xs := by
    apply List.ext_getElem (by simp)
    intro i hi hi'
    have hitem := slice_flatMap_enc C (toLe 4 xs.length) xs rest hi'
    rw [length_toLe, ← hbytes] at hitem
    rw [List.getElem_map, List.getElem_range, hitem, C.dec_enc]
  unfold decodeCounted
  rw [if_neg (by rw [List.length_append, hlen]; omega)]
  simp only [hcount]
  rw [if_neg (by rw [List.length_append, hlen]; omega), hitems, hlen]

end Digdigdig3
