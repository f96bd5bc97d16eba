import Digdigdig3.Lib.Bytes

/-!
# Streams of self-delimiting records

A `Framing` writes values of `α` as self-delimiting byte strings. A reader that
decodes record after record until the bytes left over hold no whole record is
`Framing.readAll`.

* `readAll_append`: whole records in front are read back, whatever follows.
* `readAll_eq_iff`: what a byte string must look like to read back as `as`.
* `take_encodeAll`: a truncated stream is the records that lie wholly in front
  of the cut, followed by a torn fragment in which nothing can be read.
* `readAll_take_append_iff`: when records appended after a cut are read back.
-/

namespace Digdigdig3

/-- A self-delimiting record format. -/
structure Framing (α : Type) where
  encode : α → Bytes
  decode : Bytes → Option (α × Bytes)
  encode_ne_nil : ∀ a, encode a ≠ []
  decode_encode_append : ∀ a rest, decode (encode a ++ rest) = some (a, rest)
  encode_of_decode : ∀ {bs a rest}, decode bs = some (a, rest) → bs = encode a ++ rest

namespace Framing

variable {α : Type} (F : Framing α)

/-- The records `as`, one after the other. -/
def encodeAll (as : List α) : Bytes := as.flatMap F.encode

@[simp] theorem encodeAll_nil : F.encodeAll [] = [] := rfl

@[simp] theorem encodeAll_cons (a : α) (as : List α) :
    F.encodeAll (a :: as) = F.encode a ++ F.encodeAll as := List.flatMap_cons

@[simp] theorem encodeAll_append (as bs : List α) :
    F.encodeAll (as ++ bs) = F.encodeAll as ++ F.encodeAll bs := List.flatMap_append

/-- The reading loop, run for at most `fuel` records. -/
def readFuel : ℕ → Bytes → List α
  | 0, _ => []
  | fuel + 1, bs =>
    match F.decode bs with
    | none => []
    | some (a, rest) => a :: readFuel fuel rest

/-- The reading loop. Every record takes at least one byte, so the length of
the input bounds the number of iterations. -/
def readAll (bs : Bytes) : List α := F.readFuel bs.length bs

/-- No record lies wholly in front of `bs`. -/
def Incomplete (bs : Bytes) : Prop := ∀ a, ¬ F.encode a <+: bs

theorem length_encode_pos (a : α) : 0 < (F.encode a).length :=
  List.length_pos_iff.mpr (F.encode_ne_nil a)

theorem decode_eq_none_iff (bs : Bytes) : F.decode bs = none ↔ F.Incomplete bs := by
  constructor
  · rintro h a ⟨rest, rfl⟩
    rw [F.decode_encode_append] at h
    cases h
  · intro h
    cases hd : F.decode bs with
    | none => rfl
    | some p => exact absurd ⟨p.2, (F.encode_of_decode (a := p.1) hd).symm⟩ (h p.1)

/-! ## The reading loop -/

theorem readFuel_append (as : List α) {rest : Bytes} (hrest : F.Incomplete rest) :
    ∀ fuel, as.length ≤ fuel → F.readFuel fuel (F.encodeAll as ++ rest) = as := by
  induction as with
  | nil =>
    intro fuel _
    cases fuel with
    | zero => rfl
    | succ fuel => simp [readFuel, (F.decode_eq_none_iff rest).mpr hrest]
  | cons a as ih =>
    intro fuel hfuel
    obtain ⟨fuel, rfl⟩ : ∃ m, fuel = m + 1 := ⟨fuel - 1, by simp at hfuel; omega⟩
    rw [encodeAll_cons, List.append_assoc, readFuel, F.decode_encode_append]
    simp only
    rw [ih fuel (by simpa using hfuel)]

theorem length_le_encodeAll (as : List α) : as.length ≤ (F.encodeAll as).length := by
  induction as with
  | nil => simp
  | cons a as ih =>
    have := F.length_encode_pos a
    simp only [encodeAll_cons, List.length_cons, List.length_append]
    omega

/-- Whole records followed by an incomplete one are read back exactly. -/
theorem readAll_of_incomplete (as : List α) {rest : Bytes} (hrest : F.Incomplete rest) :
    F.readAll (F.encodeAll as ++ rest) = as := by
  apply F.readFuel_append as hrest
  have := F.length_le_encodeAll as
  simp only [List.length_append]
  omega

theorem readFuel_sound (fuel : ℕ) :
    ∀ bs : Bytes, bs.length ≤ fuel →
      ∃ rest, bs = F.encodeAll (F.readFuel fuel bs) ++ rest ∧ F.Incomplete rest := by
  induction fuel with
  | zero =>
    intro bs hbs
    have : bs = [] := List.length_eq_zero_iff.mp (by omega)
    subst this
    exact ⟨[], rfl, fun a ha => F.encode_ne_nil a (List.prefix_nil.mp ha)⟩
  | succ fuel ih =>
    intro bs hbs
    rw [readFuel]
    cases hd : F.decode bs with
    | none => exact ⟨bs, rfl, (F.decode_eq_none_iff bs).mp hd⟩
    | some p =>
      obtain ⟨a, tail⟩ := p
      have hbs' := F.encode_of_decode hd
      have hpos := F.length_encode_pos a
      obtain ⟨rest, htail, hrest⟩ := ih tail (by rw [hbs', List.length_append] at hbs; omega)
      exact ⟨rest, by simp only [encodeAll_cons, List.append_assoc]; rw [← htail, ← hbs'], hrest⟩

/-- What is read is in front of the bytes, and what is left holds no record. -/
theorem readAll_sound (bs : Bytes) :
    ∃ rest, bs = F.encodeAll (F.readAll bs) ++ rest ∧ F.Incomplete rest :=
  F.readFuel_sound bs.length bs le_rfl

theorem readAll_eq_iff (bs : Bytes) (as : List α) :
    F.readAll bs = as ↔ ∃ rest, bs = F.encodeAll as ++ rest ∧ F.Incomplete rest := by
  constructor
  · rintro rfl
    exact F.readAll_sound bs
  · rintro ⟨rest, rfl, hrest⟩
    exact F.readAll_of_incomplete as hrest

theorem readAll_append (as : List α) (bs : Bytes) :
    F.readAll (F.encodeAll as ++ bs) = as ++ F.readAll bs := by
  obtain ⟨rest, hbs, hrest⟩ := F.readAll_sound bs
  rw [readAll_eq_iff]
  exact ⟨rest, by rw [encodeAll_append, List.append_assoc, ← hbs], hrest⟩

theorem readAll_encodeAll (as : List α) : F.readAll (F.encodeAll as) = as := by
  have h := F.readAll_append as []
  rw [List.append_nil] at h
  simpa [readAll, readFuel] using h

/-! ## Cutting a stream -/

/-- The records of `as` that lie wholly within the first `n` bytes. -/
def whole : ℕ → List α → List α
  | _, [] => []
  | n, a :: as =>
    if (F.encode a).length ≤ n then a :: whole (n - (F.encode a).length) as else []

/-- The bytes of the record that the cut after `n` bytes runs through, up to
the cut. -/
def torn : ℕ → List α → Bytes
  | _, [] => []
  | n, a :: as =>
    if (F.encode a).length ≤ n then torn (n - (F.encode a).length) as else (F.encode a).take n

theorem take_encodeAll (n : ℕ) (as : List α) :
    (F.encodeAll as).take n = F.encodeAll (F.whole n as) ++ F.torn n as := by
  induction as generalizing n with
  | nil => simp [whole, torn]
  | cons a as ih =>
    rw [encodeAll_cons, whole, torn]
    split_ifs with h
    · rw [encodeAll_cons, List.append_assoc, ← ih, List.take_append,
        List.take_of_length_le h]
    · rw [encodeAll_nil, List.nil_append, List.take_append_of_le_length (by omega)]

/-- A strict prefix of one record holds no record. -/
theorem incomplete_take (a : α) {n : ℕ} (hn : n < (F.encode a).length) :
    F.Incomplete ((F.encode a).take n) := by
  rintro b ⟨rest, hb⟩
  have hsplit : F.encode b ++ (rest ++ (F.encode a).drop n) = F.encode a ++ [] := by
    rw [← List.append_assoc, hb, List.take_append_drop, List.append_nil]
  have hdec := F.decode_encode_append b (rest ++ (F.encode a).drop n)
  rw [hsplit, F.decode_encode_append] at hdec
  have hdrop : rest ++ (F.encode a).drop n = [] := by
    have := Option.some.inj hdec
    exact (Prod.mk.inj this).2.symm
  have := congrArg List.length hdrop
  simp only [List.length_append, List.length_drop, List.length_nil] at this
  omega

theorem incomplete_torn (n : ℕ) (as : List α) : F.Incomplete (F.torn n as) := by
  induction as generalizing n with
  | nil => exact fun a ha => F.encode_ne_nil a (List.prefix_nil.mp (by simpa [torn] using ha))
  | cons a as ih =>
    rw [torn]
    split_ifs with h
    · exact ih _
    · exact F.incomplete_take a (by omega)

/-- The bytes `t ++ s` start with `s` again, and what is then left over holds
no record: the reader that starts in front of the fragment `t` reads exactly
what a reader of `s` reads. -/
def Resyncs (t s : Bytes) : Prop := ∃ rest, t ++ s = s ++ rest ∧ F.Incomplete rest

theorem resyncs_nil_left (s : Bytes) : F.Resyncs [] s := by
  refine ⟨[], by simp, fun a ha => F.encode_ne_nil a (List.prefix_nil.mp ha)⟩

theorem resyncs_nil_right {t : Bytes} (ht : F.Incomplete t) : F.Resyncs t [] :=
  ⟨t, by simp, ht⟩

/-- Records `bs` appended behind a cut through `as` are all read back, after the
whole records of `as`, exactly when the cut is between two records, or nothing was
appended, or the torn fragment resynchronises with the appended bytes by accident. -/
theorem readAll_take_append_iff (n : ℕ) (as bs : List α) :
    F.readAll ((F.encodeAll as).take n ++ F.encodeAll bs) = F.whole n as ++ bs ↔
      F.torn n as = [] ∨ bs = [] ∨ F.Resyncs (F.torn n as) (F.encodeAll bs) := by
  have hiff : F.readAll ((F.encodeAll as).take n ++ F.encodeAll bs) = F.whole n as ++ bs ↔
      F.Resyncs (F.torn n as) (F.encodeAll bs) := by
    rw [take_encodeAll, List.append_assoc, readAll_append, List.append_cancel_left_eq,
      readAll_eq_iff]
    rfl
  rw [hiff]
  constructor
  · exact fun h => .inr (.inr h)
  · rintro (h | rfl | h)
    · rw [h]
      exact F.resyncs_nil_left _
    · exact F.resyncs_nil_right (F.incomplete_torn n as)
    · exact h

end Framing

end Digdigdig3
