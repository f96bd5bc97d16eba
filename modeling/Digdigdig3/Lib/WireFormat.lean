import Digdigdig3.Lib.Bytes

/-!
# The protobuf wire format

A message is a sequence of fields, each a tag with the field's number and wire type, and a payload.
Varints may be longer than they have to be, so a field has many encodings; the format is given by
relations between bytes and what they encode.

* `Varint64.unique`, `Encodes.unique`: encodings are self-delimiting.
* `exists_encodesAll`: every byte string is whole fields and a rest that starts with none.
* `EncodesAll.take`: what is left of a message that is cut.
* `Header.starts_or_torn`: after a header the payload is whole or cut.
* `foldl_lastWrite`: in a fold that overwrites, the last write stays.
-/

namespace Digdigdig3.WireFormat

/-! ## Varints -/

/-- Base 128, least significant digit first; every byte but the last has its top bit set. -/
inductive Varint : Bytes → ℕ → Prop
  | last {b : Byte} : b.val < 128 → Varint [b] b.val
  | more {b : Byte} {bs : Bytes} {n : ℕ} : 128 ≤ b.val → Varint bs n →
    Varint (b :: bs) (b.val % 128 + 128 * n)

/-- A varint of at most ten bytes; bits beyond the 64th are dropped. -/
def Varint64 (bs : Bytes) (v : UInt64) : Prop :=
  ∃ n, Varint bs n ∧ bs.length ≤ 10 ∧ v = UInt64.ofNat n

theorem Varint.ne_nil {bs : Bytes} {n : ℕ} (h : Varint bs n) : bs ≠ [] := by
  cases h <;> exact List.cons_ne_nil _ _

theorem Varint64.length_pos {bs : Bytes} {v : UInt64} (h : Varint64 bs v) : 0 < bs.length := by
  obtain ⟨n, hn, -⟩ := h
  exact List.length_pos_iff.mpr hn.ne_nil

theorem Varint.unique {bs bs' r r' : Bytes} {n n' : ℕ} (h : Varint bs n) (h' : Varint bs' n')
    (heq : bs ++ r = bs' ++ r') : bs = bs' ∧ n = n' := by
  induction h generalizing bs' n' with
  | last hb =>
    cases h' with
    | last hb' =>
      obtain ⟨rfl, -⟩ := List.cons.inj heq
      exact ⟨rfl, rfl⟩
    | more hb' h' =>
      obtain ⟨rfl, -⟩ := List.cons.inj heq
      omega
  | more hb _ ih =>
    cases h' with
    | last hb' =>
      obtain ⟨rfl, -⟩ := List.cons.inj heq
      omega
    | more hb' h' =>
      obtain ⟨rfl, htail⟩ := List.cons.inj heq
      obtain ⟨rfl, rfl⟩ := ih h' htail
      exact ⟨rfl, rfl⟩

/-- Varints are self-delimiting. -/
theorem Varint64.unique {bs bs' r r' : Bytes} {v v' : UInt64} (h : Varint64 bs v)
    (h' : Varint64 bs' v') (heq : bs ++ r = bs' ++ r') : bs = bs' ∧ v = v' ∧ r = r' := by
  obtain ⟨n, hn, -, rfl⟩ := h
  obtain ⟨n', hn', -, rfl⟩ := h'
  obtain ⟨rfl, rfl⟩ := hn.unique hn' heq
  exact ⟨rfl, rfl, List.append_cancel_left heq⟩

/-! ## Fields -/

/-- The wire types whose payload has a size that is known before it. -/
inductive Sized
  | fixed64
  | delimited
  | fixed32
  deriving DecidableEq

/-- The number of a wire type. -/
def Sized.wireType : Sized → ℕ
  | fixed64 => 1
  | delimited => 2
  | fixed32 => 5

inductive Payload
  | varint (value : UInt64)
  | sized (wire : Sized) (bytes : Bytes)
  deriving DecidableEq

structure Field where
  number : ℕ
  payload : Payload
  deriving DecidableEq

/-- `bs` is a tag. -/
def Tag (bs : Bytes) (number wireType : ℕ) : Prop :=
  ∃ tag : UInt64, Varint64 bs tag ∧ tag.toNat / 8 = number ∧ tag.toNat % 8 = wireType

theorem Tag.length_pos {bs : Bytes} {number wireType : ℕ} (h : Tag bs number wireType) :
    0 < bs.length := by
  obtain ⟨_, htag, -⟩ := h
  exact htag.length_pos

theorem Tag.unique {bs bs' r r' : Bytes} {number number' wireType wireType' : ℕ}
    (h : Tag bs number wireType) (h' : Tag bs' number' wireType') (heq : bs ++ r = bs' ++ r') :
    bs = bs' ∧ number = number' ∧ wireType = wireType' ∧ r = r' := by
  obtain ⟨tag, htag, rfl, rfl⟩ := h
  obtain ⟨tag', htag', rfl, rfl⟩ := h'
  obtain ⟨rfl, rfl, rfl⟩ := htag.unique htag' heq
  exact ⟨rfl, rfl, rfl, rfl⟩

/-- What stands before a payload, and the payload's size. -/
inductive Header : Bytes → ℕ → Sized → ℕ → Prop
  | fixed64 {t : Bytes} {number : ℕ} : Tag t number 1 → Header t number .fixed64 8
  | delimited {t l : Bytes} {number : ℕ} {len : UInt64} : Tag t number 2 → Varint64 l len →
    Header (t ++ l) number .delimited len.toNat
  | fixed32 {t : Bytes} {number : ℕ} : Tag t number 5 → Header t number .fixed32 4

inductive Encodes : Bytes → Field → Prop
  | varint {t b : Bytes} {number : ℕ} {v : UInt64} : Tag t number 0 → Varint64 b v →
    Encodes (t ++ b) ⟨number, .varint v⟩
  | sized {h p : Bytes} {number size : ℕ} {wire : Sized} : Header h number wire size →
    p.length = size → Encodes (h ++ p) ⟨number, .sized wire p⟩

/-- A header starts with the tag of its wire type. -/
theorem Header.tag {h : Bytes} {number size : ℕ} {wire : Sized} (hh : Header h number wire size) :
    ∃ t l, h = t ++ l ∧ Tag t number wire.wireType := by
  cases hh with
  | fixed64 htag => exact ⟨h, [], by simp, htag⟩
  | delimited htag _ => exact ⟨_, _, rfl, htag⟩
  | fixed32 htag => exact ⟨h, [], by simp, htag⟩

theorem Sized.wireType_inj {wire wire' : Sized} (h : wire.wireType = wire'.wireType) :
    wire = wire' := by
  cases wire <;> cases wire' <;> first | rfl | cases h

theorem Header.unique {h h' r r' : Bytes} {number number' size size' : ℕ} {wire wire' : Sized}
    (hh : Header h number wire size) (hh' : Header h' number' wire' size')
    (heq : h ++ r = h' ++ r') :
    h = h' ∧ number = number' ∧ wire = wire' ∧ size = size' ∧ r = r' := by
  have hwire : wire = wire' := by
    obtain ⟨t, l, rfl, htag⟩ := hh.tag
    obtain ⟨t', l', rfl, htag'⟩ := hh'.tag
    rw [List.append_assoc, List.append_assoc] at heq
    exact Sized.wireType_inj (htag.unique htag' heq).2.2.1
  subst hwire
  cases hh with
  | fixed64 htag =>
    cases hh' with
    | fixed64 htag' =>
      obtain ⟨rfl, rfl, -, rfl⟩ := htag.unique htag' heq
      exact ⟨rfl, rfl, rfl, rfl, rfl⟩
  | delimited htag hlen =>
    cases hh' with
    | delimited htag' hlen' =>
      rw [List.append_assoc, List.append_assoc] at heq
      obtain ⟨rfl, rfl, -, heq⟩ := htag.unique htag' heq
      obtain ⟨rfl, rfl, rfl⟩ := hlen.unique hlen' heq
      exact ⟨rfl, rfl, rfl, rfl, rfl⟩
  | fixed32 htag =>
    cases hh' with
    | fixed32 htag' =>
      obtain ⟨rfl, rfl, -, rfl⟩ := htag.unique htag' heq
      exact ⟨rfl, rfl, rfl, rfl, rfl⟩

/-- A field with a varint does not start like one with a sized payload. -/
theorem Header.not_varint {t b h r r' : Bytes} {number number' size : ℕ} {wire : Sized}
    (htag : Tag t number 0) (hh : Header h number' wire size) : t ++ (b ++ r) ≠ h ++ r' := by
  intro heq
  obtain ⟨t', l', rfl, htag'⟩ := hh.tag
  rw [List.append_assoc] at heq
  have hzero := (htag.unique htag' heq).2.2.1
  cases wire <;> cases hzero

/-- Fields are self-delimiting. -/
theorem Encodes.unique {e e' r r' : Bytes} {f f' : Field} (h : Encodes e f) (h' : Encodes e' f')
    (heq : e ++ r = e' ++ r') : e = e' ∧ f = f' ∧ r = r' := by
  cases h with
  | varint htag hv =>
    cases h' with
    | varint htag' hv' =>
      rw [List.append_assoc, List.append_assoc] at heq
      obtain ⟨rfl, rfl, -, heq⟩ := htag.unique htag' heq
      obtain ⟨rfl, rfl, rfl⟩ := hv.unique hv' heq
      exact ⟨rfl, rfl, rfl⟩
    | sized hh' hlen' =>
      rw [List.append_assoc, List.append_assoc] at heq
      exact absurd heq (Header.not_varint htag hh')
  | sized hh hlen =>
    cases h' with
    | varint htag' hv' =>
      rw [List.append_assoc, List.append_assoc] at heq
      exact absurd heq.symm (Header.not_varint htag' hh)
    | sized hh' hlen' =>
      rw [List.append_assoc, List.append_assoc] at heq
      obtain ⟨rfl, rfl, rfl, rfl, heq⟩ := hh.unique hh' heq
      obtain ⟨rfl, rfl⟩ := List.append_inj heq (hlen.trans hlen'.symm)
      exact ⟨rfl, rfl, rfl⟩

theorem Header.length_pos {h : Bytes} {number size : ℕ} {wire : Sized}
    (hh : Header h number wire size) : 0 < h.length := by
  obtain ⟨t, l, rfl, htag⟩ := hh.tag
  have := htag.length_pos
  rw [List.length_append]
  omega

theorem Encodes.length_pos {e : Bytes} {f : Field} (h : Encodes e f) : 0 < e.length := by
  cases h with
  | varint htag _ =>
    have := htag.length_pos
    rw [List.length_append]
    omega
  | sized hh _ =>
    have := hh.length_pos
    rw [List.length_append]
    omega

/-! ## Messages -/

/-- The bytes are the fields, one after the other. -/
inductive EncodesAll : Bytes → List Field → Prop
  | nil : EncodesAll [] []
  | cons {e es : Bytes} {f : Field} {fs : List Field} : Encodes e f → EncodesAll es fs →
    EncodesAll (e ++ es) (f :: fs)

/-- The bytes start with a whole field. -/
def StartsWithField (bs : Bytes) : Prop := ∃ e f r, Encodes e f ∧ bs = e ++ r

/-- The payload of the first field is cut. -/
def Torn (bs : Bytes) : Prop :=
  ∃ h number wire size p, Header h number wire size ∧ bs = h ++ p ∧ p.length < size

/-- After a header the payload is whole or cut. -/
theorem Header.starts_or_torn {h : Bytes} {number size : ℕ} {wire : Sized}
    (hh : Header h number wire size) (rest : Bytes) :
    StartsWithField (h ++ rest) ∨ Torn (h ++ rest) := by
  by_cases hlt : rest.length < size
  · exact .inr ⟨h, number, wire, size, rest, hh, rfl, hlt⟩
  · left
    have hlen : (rest.take size).length = size := List.length_take_of_le (not_lt.mp hlt)
    refine ⟨h ++ rest.take size, _, rest.drop size, .sized hh hlen, ?_⟩
    rw [List.append_assoc, List.take_append_drop]

/-- Every byte string is whole fields and a rest that starts with none. -/
theorem exists_encodesAll (bs : Bytes) :
    ∃ fs es tail, bs = es ++ tail ∧ EncodesAll es fs ∧ ¬ StartsWithField tail := by
  induction hn : bs.length using Nat.strong_induction_on generalizing bs with
  | _ n ih =>
    by_cases hstarts : StartsWithField bs
    · obtain ⟨e, f, r, he, rfl⟩ := hstarts
      have := he.length_pos
      rw [List.length_append] at hn
      obtain ⟨fs, es, tail, rfl, hes, htail⟩ := ih r.length (by omega) r rfl
      exact ⟨f :: fs, e ++ es, tail, by rw [List.append_assoc], .cons he hes, htail⟩
    · exact ⟨[], [], bs, rfl, .nil, hstarts⟩

/-- Whole fields and what follows them are told apart. -/
theorem EncodesAll.unique {es es' tail tail' : Bytes} {fs fs' : List Field}
    (h : EncodesAll es fs) (h' : EncodesAll es' fs') (htail : ¬ StartsWithField tail)
    (htail' : ¬ StartsWithField tail') (heq : es ++ tail = es' ++ tail') :
    es = es' ∧ fs = fs' ∧ tail = tail' := by
  induction h generalizing es' fs' with
  | nil =>
    cases h' with
    | nil => exact ⟨rfl, rfl, heq⟩
    | cons he' hes' =>
      rw [List.nil_append, List.append_assoc] at heq
      exact absurd ⟨_, _, _, he', heq⟩ htail
  | cons he _ ih =>
    cases h' with
    | nil =>
      rw [List.nil_append, List.append_assoc] at heq
      exact absurd ⟨_, _, _, he, heq.symm⟩ htail'
    | cons he' hes' =>
      rw [List.append_assoc, List.append_assoc] at heq
      obtain ⟨rfl, rfl, heq⟩ := he.unique he' heq
      obtain ⟨rfl, rfl, rfl⟩ := ih hes' heq
      exact ⟨rfl, rfl, rfl⟩

theorem not_startsWithField_nil : ¬ StartsWithField [] := by
  rintro ⟨e, f, r, he, heq⟩
  have := he.length_pos
  rw [(List.append_eq_nil_iff.mp heq.symm).1] at this
  exact absurd this (lt_irrefl 0)

/-- A cut field is no field. -/
theorem Encodes.take_not_starts {e : Bytes} {f : Field} (h : Encodes e f) {n : ℕ}
    (hn : n < e.length) : ¬ StartsWithField (e.take n) := by
  rintro ⟨e', f', r, he', heq⟩
  have hsplit : e' ++ (r ++ e.drop n) = e ++ [] := by
    rw [← List.append_assoc, ← heq, List.take_append_drop, List.append_nil]
  have hlen := congrArg List.length heq
  obtain ⟨rfl, -, -⟩ := he'.unique h hsplit
  rw [List.length_take, List.length_append] at hlen
  omega

/-- A torn field is no field. -/
theorem Torn.not_starts {bs : Bytes} (h : Torn bs) : ¬ StartsWithField bs := by
  obtain ⟨h, number, wire, size, p, hh, rfl, hlt⟩ := h
  rintro ⟨e, f, r, he, heq⟩
  cases he with
  | varint htag _ =>
    rw [List.append_assoc] at heq
    exact Header.not_varint htag hh heq.symm
  | sized hh' hlen =>
    rw [List.append_assoc] at heq
    obtain ⟨-, -, -, rfl, rfl⟩ := hh.unique hh' heq
    rw [List.length_append] at hlt
    omega

/-- A cut message is some of its fields and a rest that starts with none; what was cut off completes
    the other fields. -/
theorem EncodesAll.take {bs : Bytes} {fs : List Field} (h : EncodesAll bs fs) (n : ℕ) :
    ∃ k es tail, bs.take n = es ++ tail ∧ EncodesAll es (fs.take k) ∧ ¬ StartsWithField tail ∧
      EncodesAll (tail ++ bs.drop n) (fs.drop k) := by
  induction h generalizing n with
  | nil => exact ⟨0, [], [], by simp, .nil, not_startsWithField_nil, by simpa using .nil⟩
  | @cons e es f fs he hes ih =>
    by_cases hn : n < e.length
    · refine ⟨0, [], e.take n, ?_, .nil, he.take_not_starts hn, ?_⟩
      · rw [List.take_append_of_le_length hn.le]
        rfl
      · rw [List.drop_append_of_le_length hn.le, ← List.append_assoc, List.take_append_drop]
        exact .cons he hes
    · obtain ⟨k, es', tail, heq, hes', htail, hrest⟩ := ih (n - e.length)
      refine ⟨k + 1, e ++ es', tail, ?_, .cons he hes', htail, ?_⟩
      · rw [List.take_append, List.take_of_length_le (not_lt.mp hn), heq, List.append_assoc]
      · rw [List.drop_append, List.drop_of_length_le (not_lt.mp hn)]
        exact hrest

/-- In a message, a header is followed by its payload. -/
theorem EncodesAll.size_le {h r : Bytes} {fs : List Field} {number size : ℕ} {wire : Sized}
    (hall : EncodesAll (h ++ r) fs) (hh : Header h number wire size) : size ≤ r.length := by
  generalize hbs : h ++ r = bs at hall
  cases hall with
  | nil =>
    have := hh.length_pos
    rw [(List.append_eq_nil_iff.mp hbs).1] at this
    exact absurd this (lt_irrefl 0)
  | cons he _ =>
    cases he with
    | varint htag _ =>
      rw [List.append_assoc] at hbs
      exact absurd hbs.symm (Header.not_varint htag hh)
    | sized hh' hlen =>
      rw [List.append_assoc] at hbs
      obtain ⟨-, -, -, rfl, rfl⟩ := hh.unique hh' hbs
      rw [List.length_append]
      omega

/-! ## Folds that overwrite -/

/-- In a fold that overwrites, the last write stays. -/
theorem foldl_lastWrite {σ α β : Type*} {step : σ → α → σ} {get : σ → β} {set : α → Option β}
    (h : ∀ s a, get (step s a) = (set a).getD (get s)) (l : List α) (s : σ) :
    get (l.foldl step s) = ((l.filterMap set).getLast?).getD (get s) := by
  induction l generalizing s with
  | nil => rfl
  | cons a l ih =>
    rw [List.foldl_cons, ih, h]
    cases hset : set a with
    | none => rw [List.filterMap_cons_none hset, Option.getD_none]
    | some b =>
      rw [List.filterMap_cons_some hset, Option.getD_some, List.getLast?_cons, Option.getD_some]

end Digdigdig3.WireFormat
