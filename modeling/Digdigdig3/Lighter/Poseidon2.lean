import Mathlib.LinearAlgebra.Matrix.NonsingularInverse
import Mathlib.LinearAlgebra.Matrix.ToLin
import Digdigdig3.Lib.Layers
import Digdigdig3.Lighter.GFp5
import Digdigdig3.Lighter.GoldilocksRoots

/-!
# Poseidon2

`crates/digdigdig3/src/l3/open/crypto/dex/lighter/crypto/poseidon2.rs`: the permutation of twelve
elements and the sponge on top of it.

* `toVec_externalLinearLayer`, `toVec_internalLinearLayer`: the linear layers as matrices.
* `permute_injective`: every layer is one-to-one, and so is the permutation.
* `spongeState_injective`: one block of inputs is bound by the whole state.
-/

namespace Digdigdig3.Lighter

/-- `pow7` (`goldilocks.rs` lines 361–365). -/
def GFp.pow7 (x : GFp) : GFp :=
  let x2 := x.square
  let x4 := x2.square
  x4 * x2 * x

namespace Poseidon2

/-! ## Constants -/

/-- `EXTERNAL_CONSTANTS` (lines 26–67). -/
def externalConstants : List (List UInt64) :=
  [[15492826721047263190, 11728330187201910315, 8836021247773420868, 16777404051263952451,
    5510875212538051896, 6173089941271892285, 2927757366422211339, 10340958981325008808,
    8541987352684552425, 9739599543776434497, 15073950188101532019, 12084856431752384512],
   [4584713381960671270, 8807052963476652830, 54136601502601741, 4872702333905478703,
    5551030319979516287, 12889366755535460989, 16329242193178844328, 412018088475211848,
    10505784623379650541, 9758812378619434837, 7421979329386275117, 375240370024755551],
   [3331431125640721931, 15684937309956309981, 578521833432107983, 14379242000670861838,
    17922409828154900976, 8153494278429192257, 15904673920630731971, 11217863998460634216,
    3301540195510742136, 9937973023749922003, 3059102938155026419, 1895288289490976132],
   [5580912693628927540, 10064804080494788323, 9582481583369602410, 10186259561546797986,
    247426333829703916, 13193193905461376067, 6386232593701758044, 17954717245501896472,
    1531720443376282699, 2455761864255501970, 11234429217864304495, 4746959618548874102],
   [13571697342473846203, 17477857865056504753, 15963032953523553760, 16033593225279635898,
    14252634232868282405, 8219748254835277737, 7459165569491914711, 15855939513193752003,
    16788866461340278896, 7102224659693946577, 3024718005636976471, 13695468978618890430],
   [8214202050877825436, 2670727992739346204, 16259532062589659211, 11869922396257088411,
    3179482916972760137, 13525476046633427808, 3217337278042947412, 14494689598654046340,
    15837379330312175383, 8029037639801151344, 2153456285263517937, 8301106462311849241],
   [13294194396455217955, 17394768489610594315, 12847609130464867455, 14015739446356528640,
    5879251655839607853, 9747000124977436185, 8950393546890284269, 10765765936405694368,
    14695323910334139959, 16366254691123000864, 15292774414889043182, 10910394433429313384],
   [17253424460214596184, 3442854447664030446, 3005570425335613727, 10859158614900201063,
    9763230642109343539, 6647722546511515039, 909012944955815706, 18101204076790399111,
    11588128829349125809, 15863878496612806566, 5201119062417750399, 176665553780565743]]

/-- `INTERNAL_CONSTANTS` (lines 70–77). -/
def internalConstants : List UInt64 :=
  [11921381764981422944, 10318423381711320787, 8291411502347000766, 229948027109387563,
   9152521390190983261, 7129306032690285515, 15395989607365232011, 8641397269074305925,
   17256848792241043600, 6046475228902245682, 12041608676381094092, 12785542378683951657,
   14546032085337914034, 3304199118235116851, 16499627707072547655, 10386478025625759321,
   13475579315436919170, 16042710511297532028, 1411266850385657080, 9024840976168649958,
   14047056970978379368, 838728605080212101]

/-- `MATRIX_DIAG_12_RAW` (lines 82–86). -/
def matrixDiag12Raw : List ℕ :=
  [0xc3b6c08e23ba9300, 0xd84b5de94a324fb6, 0x0d0c371c5b35b84f, 0x7964f570e7188037,
   0x5daf18bbd996604b, 0x6743bc47b9595257, 0x5528b9362c59bb70, 0xac45e25b7127b68b,
   0xa2077d7dfbb606b5, 0xf3faac6faee378ae, 0x0c6388b51545e883, 0xd27dbb6944917b60]

/-! ## Model -/

/-- `State` (line 89). -/
abbrev State := Vector GFp 12

/-- `State::new` (lines 92–94). -/
def State.new : State := Vector.replicate 12 .zero

/-- `add_external_rc` (lines 97–102). -/
def addExternalRc (s : State) (round : ℕ) : State :=
  let rc := externalConstants.getD round []
  Vector.ofFn fun i : Fin 12 => s[i] + fromU64Reduce (rc.getD i 0)

/-- `sbox_full` (lines 105–109). -/
def sboxFull (s : State) : State := s.map GFp.pow7

/-- `sbox_partial` (lines 112–114). -/
def sboxPartial (s : State) : State := s.set 0 s[0].pow7

/-- One group of four (lines 122–160). -/
def mixGroup (a b c d : GFp) : Vector GFp 4 :=
  let t0 := a + b
  let t1 := c + d
  let t2 := t0 + t1
  let t3 := t2 + b
  let t4 := t2 + d
  let t5 := a.double
  let t6 := c.double
  #v[t3 + t0, t6 + t3, t1 + t4, t5 + t4]

/-- `external_linear_layer` (lines 120–176). -/
def externalLinearLayer (s : State) : State :=
  let s2 := mixGroup s[0] s[1] s[2] s[3]
  let t2 := mixGroup s[4] s[5] s[6] s[7]
  let u2 := mixGroup s[8] s[9] s[10] s[11]
  let total := Vector.ofFn fun i : Fin 4 => s2[i] + t2[i] + u2[i]
  (Vector.ofFn fun i : Fin 4 => s2[i] + total[i]) ++
    (Vector.ofFn fun i : Fin 4 => t2[i] + total[i]) ++
      Vector.ofFn fun i : Fin 4 => u2[i] + total[i]

/-- `GFp(MATRIX_DIAG_12_RAW[i])`: the word is the stored one. -/
def diagonal (i : Fin 12) : GFp := .ofWord (matrixDiag12Raw.getD i 0)

/-- `internal_linear_layer` (lines 180–196). -/
def internalLinearLayer (s : State) : State :=
  let sum := s.foldl (· + ·) .zero
  Vector.ofFn fun i : Fin 12 => s[i] * diagonal i + sum

/-- `full_round` (lines 199–203). -/
def fullRound (s : State) (round : ℕ) : State :=
  externalLinearLayer (sboxFull (addExternalRc s round))

/-- `partial_round` (lines 206–210). -/
def partialRound (s : State) (round : ℕ) : State :=
  internalLinearLayer
    (sboxPartial (s.set 0 (s[0] + fromU64Reduce (internalConstants.getD round 0))))

/-- `permute` (lines 213–231). -/
def permute (s : State) : State :=
  let s := externalLinearLayer s
  let s := (List.range 4).foldl fullRound s
  let s := (List.range 22).foldl partialRound s
  (List.range' 4 4).foldl fullRound s

/-- `state[0..chunk_len]` overwritten (lines 275–277). -/
def absorb (s : State) (chunk : List GFp) : State :=
  Vector.ofFn fun i : Fin 12 => chunk.getD i s[i]

/-- The loop over the chunks (lines 272–280). -/
def absorbAll (s : State) (inputs : List GFp) : State :=
  if inputs = [] then s else absorbAll (permute (absorb s (inputs.take 8))) (inputs.drop 8)
termination_by inputs.length
decreasing_by
  have := List.length_pos_iff.mpr ‹inputs ≠ []›
  rw [List.length_drop]
  omega

/-- The state that `hash_to_quintic_extension` reads its result from (lines 269–284). -/
def spongeState (inputs : List GFp) : State :=
  if inputs = [] then permute .new else absorbAll .new inputs

/-- `hash_to_quintic_extension` (lines 268–287). -/
def hashToQuinticExtension (inputs : List GFp) : GFp5 :=
  let state := spongeState inputs
  ⟨state[0], state[1], state[2], state[3], state[4]⟩

/-! ## States as vectors over the field -/

/-- The elements of a state. -/
def toVec (s : State) (i : Fin 12) : ZMod modulus := s[i].toField

theorem toVec_injective : Function.Injective toVec := by
  intro s t h
  apply Vector.ext
  intro i hi
  exact GFp.toField_injective (congrFun h ⟨i, hi⟩)

theorem toVec_ofFn (f : Fin 12 → GFp) : toVec (Vector.ofFn f) = fun i => (f i).toField := by
  funext i
  simp [toVec]

theorem toVec_surjective : Function.Surjective toVec := by
  intro v
  refine ⟨Vector.ofFn fun i => fromU64Reduce (UInt64.ofNat (v i).val), ?_⟩
  rw [toVec_ofFn]
  funext i
  have hlt : (v i).val < 2 ^ 64 := (ZMod.val_lt (v i)).trans (by decide)
  rw [GFp.toField_fromU64Reduce, UInt64.toNat_ofNat_of_lt' hlt, ZMod.natCast_zmod_val]

/-! ## The S-box -/

@[simp] theorem toField_pow7 (x : GFp) : x.pow7.toField = x.toField ^ 7 := by
  simp only [GFp.pow7, GFp.toField_mul, GFp.toField_square]
  ring

theorem pow7_injective : Function.Injective GFp.pow7 := by
  have hpow : Function.Injective fun x : ZMod modulus => x ^ 7 := by
    apply pow_injective_of_coprime
    · rw [ZMod.card]
      norm_num [modulus]
    · norm_num
  intro x y h
  apply GFp.toField_injective
  apply hpow
  show x.toField ^ 7 = y.toField ^ 7
  rw [← toField_pow7, ← toField_pow7, h]

theorem pow7_bijective : Function.Bijective GFp.pow7 := by
  have : Finite GFp := Finite.of_injective GFp.toField fun _ _ => GFp.toField_injective
  exact Finite.injective_iff_bijective.mp pow7_injective

theorem sboxFull_injective : Function.Injective sboxFull := by
  intro s t h
  apply Vector.ext
  intro i hi
  have hi' : (s.map GFp.pow7)[i] = (t.map GFp.pow7)[i] := by
    have : s.map GFp.pow7 = t.map GFp.pow7 := h
    rw [this]
  rw [Vector.getElem_map, Vector.getElem_map] at hi'
  exact pow7_injective hi'

/-- Changing the first element by a one-to-one function. -/
theorem set_zero_injective {f : GFp → GFp} (hf : Function.Injective f) :
    Function.Injective fun s : State => s.set 0 (f s[0]) := by
  intro s t h
  have hset : s.set 0 (f s[0]) = t.set 0 (f t[0]) := h
  apply Vector.ext
  intro i hi
  have hi' : (s.set 0 (f s[0]))[i] = (t.set 0 (f t[0]))[i] := by rw [hset]
  rw [Vector.getElem_set, Vector.getElem_set] at hi'
  split_ifs at hi' with hzero
  · subst hzero
    exact hf hi'
  · exact hi'

theorem add_right_injective (c : GFp) : Function.Injective fun x : GFp => x + c := by
  intro x y h
  have h' : (x + c).toField = (y + c).toField := congrArg GFp.toField h
  rw [GFp.toField_add, GFp.toField_add] at h'
  exact GFp.toField_injective (add_right_cancel h')

theorem addExternalRc_injective (round : ℕ) :
    Function.Injective fun s => addExternalRc s round := by
  intro s t h
  apply toVec_injective
  have h' := congrArg toVec h
  simp only [addExternalRc, toVec_ofFn] at h'
  funext i
  exact congrArg GFp.toField (add_right_injective _ (GFp.toField_injective (congrFun h' i)))

/-! ## The external layer -/

/-- The rows of the matrix of one group. -/
def groupRows : List (List ℕ) := [[2, 3, 1, 1], [1, 2, 3, 1], [1, 1, 2, 3], [3, 1, 1, 2]]

/-- An entry of the matrix of one group. -/
def groupEntry (i j : ℕ) : ℕ := (groupRows.getD i []).getD j 0

/-- The matrix of one group. -/
def groupMatrix : Matrix (Fin 4) (Fin 4) (ZMod modulus) := fun i j => groupEntry i.val j.val

/-- The matrix of the external layer: twice the matrix of a group on the diagonal, once
    elsewhere. -/
def externalMatrix : Matrix (Fin 12) (Fin 12) (ZMod modulus) := fun i j =>
  ((if i.val / 4 = j.val / 4 then 2 else 1) * groupEntry (i.val % 4) (j.val % 4) : ℕ)

theorem groupMatrix_eq :
    groupMatrix = !![2, 3, 1, 1; 1, 2, 3, 1; 1, 1, 2, 3; 3, 1, 1, 2] := by
  ext i j
  fin_cases i <;> fin_cases j <;> simp [groupMatrix, groupEntry, groupRows]

theorem toField_mixGroup (a b c d : GFp) :
    (fun i : Fin 4 => (mixGroup a b c d)[i].toField) =
      groupMatrix.mulVec ![a.toField, b.toField, c.toField, d.toField] := by
  funext i
  fin_cases i <;>
    simp [mixGroup, groupMatrix_eq, Matrix.mulVec, dotProduct, Fin.sum_univ_four] <;> ring

/-- The element `j` of the group `k`. -/
def place (k : Fin 3) (j : Fin 4) : Fin 12 := ⟨4 * k.val + j.val, by omega⟩

theorem exists_place (i : Fin 12) : ∃ k j, i = place k j := by
  refine ⟨⟨i.val / 4, by omega⟩, ⟨i.val % 4, by omega⟩, Fin.ext ?_⟩
  show i.val = 4 * (i.val / 4) + i.val % 4
  omega

/-- The groups after the first half of the layer. -/
def mixed (s : State) (j : Fin 4) (k : Fin 3) : ZMod modulus :=
  groupMatrix.mulVec (fun j => toVec s (place k j)) j

theorem toField_mixGroup_place (s : State) (k : Fin 3) (j : Fin 4) :
    (mixGroup s[place k 0] s[place k 1] s[place k 2] s[place k 3])[j].toField = mixed s j k := by
  have h := congrFun (toField_mixGroup s[place k 0] s[place k 1] s[place k 2] s[place k 3]) j
  rw [h, mixed]
  congr 1
  funext j'
  fin_cases j' <;> rfl

theorem toVec_append (f g h : Fin 4 → GFp) (j : Fin 4) :
    toVec (Vector.ofFn f ++ Vector.ofFn g ++ Vector.ofFn h) (place 0 j) = (f j).toField ∧
      toVec (Vector.ofFn f ++ Vector.ofFn g ++ Vector.ofFn h) (place 1 j) = (g j).toField ∧
        toVec (Vector.ofFn f ++ Vector.ofFn g ++ Vector.ofFn h) (place 2 j) = (h j).toField := by
  have hj := j.isLt
  refine ⟨?_, ?_, ?_⟩
  · have hindex : (Vector.ofFn f ++ Vector.ofFn g ++ Vector.ofFn h)[4 * 0 + j.val] = f j := by
      rw [Vector.getElem_append_left (by omega), Vector.getElem_append_left (by omega),
        Vector.getElem_ofFn]
      congr 1
      exact Fin.ext (Nat.zero_add _)
    exact congrArg GFp.toField hindex
  · have hindex : (Vector.ofFn f ++ Vector.ofFn g ++ Vector.ofFn h)[4 * 1 + j.val] = g j := by
      rw [Vector.getElem_append_left (by omega), Vector.getElem_append_right (by omega) (by omega),
        Vector.getElem_ofFn]
      congr 1
      exact Fin.ext (Nat.add_sub_cancel_left ..)
    exact congrArg GFp.toField hindex
  · have hindex : (Vector.ofFn f ++ Vector.ofFn g ++ Vector.ofFn h)[4 * 2 + j.val] = h j := by
      rw [Vector.getElem_append_right (by omega) (by omega), Vector.getElem_ofFn]
      congr 1
      exact Fin.ext (Nat.add_sub_cancel_left ..)
    exact congrArg GFp.toField hindex

/-- The second half adds the groups up. -/
theorem toVec_externalLinearLayer_place (s : State) (k : Fin 3) (j : Fin 4) :
    toVec (externalLinearLayer s) (place k j) = mixed s j k * 1 + ∑ k', mixed s j k' := by
  have hgroup := fun k' => toField_mixGroup_place s k' j
  rw [Fin.sum_univ_three, ← hgroup 0, ← hgroup 1, ← hgroup 2, mul_one, ← hgroup k]
  unfold externalLinearLayer
  extract_lets s2 t2 u2 total
  have htotal : total[j].toField = s2[j].toField + t2[j].toField + u2[j].toField := by
    simp [total]
  obtain ⟨h0, h1, h2⟩ := toVec_append (fun i => s2[i] + total[i]) (fun i => t2[i] + total[i])
    (fun i => u2[i] + total[i]) j
  fin_cases k
  · exact h0.trans ((GFp.toField_add _ _).trans (congrArg _ htotal))
  · exact h1.trans ((GFp.toField_add _ _).trans (congrArg _ htotal))
  · exact h2.trans ((GFp.toField_add _ _).trans (congrArg _ htotal))

theorem natCast_ne_zero {n : ℕ} (hpos : 0 < n) (hlt : n < modulus) : (n : ZMod modulus) ≠ 0 := by
  rw [Ne, ZMod.natCast_eq_zero_iff]
  exact Nat.not_dvd_of_pos_of_lt hpos hlt

theorem groupMatrix_injective : Function.Injective groupMatrix.mulVec := by
  intro v w h
  have hdet : (35 : ZMod modulus) ≠ 0 := natCast_ne_zero (n := 35) (by norm_num) (by decide)
  have hrow : ∀ i, groupMatrix.mulVec v i = groupMatrix.mulVec w i := fun i => congrFun h i
  have h0 := hrow 0
  have h1 := hrow 1
  have h2 := hrow 2
  have h3 := hrow 3
  simp only [groupMatrix_eq, Matrix.mulVec, dotProduct, Fin.sum_univ_four, Matrix.of_apply,
    Matrix.cons_val] at h0 h1 h2 h3
  -- the inverse of the matrix, times the determinant
  have e0 : v 0 = w 0 := by
    apply mul_left_cancel₀ hdet
    linear_combination -4 * h0 + 3 * h1 - 11 * h2 + 17 * h3
  have e1 : v 1 = w 1 := by
    apply mul_left_cancel₀ hdet
    linear_combination 17 * h0 - 4 * h1 + 3 * h2 - 11 * h3
  have e2 : v 2 = w 2 := by
    apply mul_left_cancel₀ hdet
    linear_combination -11 * h0 + 17 * h1 - 4 * h2 + 3 * h3
  have e3 : v 3 = w 3 := by
    apply mul_left_cancel₀ hdet
    linear_combination 3 * h0 - 11 * h1 + 17 * h2 - 4 * h3
  funext i
  fin_cases i
  exacts [e0, e1, e2, e3]

theorem externalLinearLayer_injective : Function.Injective externalLinearLayer := by
  intro s t h
  have hfour : (1 : ZMod modulus) + ∑ _k : Fin 3, 1 ≠ 0 := by
    have := natCast_ne_zero (n := 4) (by norm_num) (by decide)
    rw [Fin.sum_univ_three]
    norm_num at this ⊢
    exact this
  have hmixed : ∀ j, mixed s j = mixed t j := by
    intro j
    apply diagonal_add_sum_injective (fun _ => one_mul 1) hfour
    funext k
    have hplace := congrFun (congrArg toVec h) (place k j)
    rwa [toVec_externalLinearLayer_place, toVec_externalLinearLayer_place] at hplace
  apply toVec_injective
  funext i
  obtain ⟨k, j, rfl⟩ := exists_place i
  have hgroup : (fun j => toVec s (place k j)) = fun j => toVec t (place k j) := by
    apply groupMatrix_injective
    funext j
    exact congrFun (hmixed j) k
  exact congrFun hgroup j

theorem externalMatrix_place (k k' : Fin 3) (j j' : Fin 4) :
    externalMatrix (place k j) (place k' j') = (if k = k' then 2 else 1) * groupMatrix j j' := by
  have hj := j.isLt
  have hj' := j'.isLt
  have hiff : (place k j).val / 4 = (place k' j').val / 4 ↔ k = k' := by
    rw [← Fin.val_inj]
    show (4 * k.val + j.val) / 4 = (4 * k'.val + j'.val) / 4 ↔ _
    omega
  have hmod : ∀ (k : Fin 3) (j : Fin 4), (place k j).val % 4 = j.val := by
    intro k j
    show (4 * k.val + j.val) % 4 = j.val
    omega
  rw [externalMatrix, hmod, hmod, groupMatrix, Nat.cast_mul]
  simp only [hiff]
  split_ifs <;> simp

theorem sum_place (f : Fin 12 → ZMod modulus) : ∑ i, f i = ∑ k, ∑ j, f (place k j) := by
  rw [Fin.sum_univ_three]
  simp only [Fin.sum_univ_four, Fin.sum_univ_succ (n := 11)]
  simp [Fin.sum_univ_succ, place]
  ring

/-- The external layer multiplies by its matrix. -/
theorem toVec_externalLinearLayer (s : State) :
    toVec (externalLinearLayer s) = externalMatrix.mulVec (toVec s) := by
  funext i
  obtain ⟨k, j, rfl⟩ := exists_place i
  have hrow : ∀ k', ∑ j', externalMatrix (place k j) (place k' j') * toVec s (place k' j') =
      (if k = k' then 2 else 1) * mixed s j k' := by
    intro k'
    rw [mixed, Matrix.mulVec, dotProduct, Finset.mul_sum]
    refine Finset.sum_congr rfl fun j' _ => ?_
    rw [externalMatrix_place, mul_assoc]
  rw [toVec_externalLinearLayer_place, Matrix.mulVec, dotProduct, sum_place]
  simp only [hrow]
  rw [Fin.sum_univ_three, Fin.sum_univ_three]
  fin_cases k <;> simp <;> ring

/-! ## The internal layer -/

/-- `2^64` over the stored words, modulo `p`: the inverses of the diagonal. -/
def diagonalInverses : List ℕ :=
  [13466964628517078567, 7928205564920876167, 45013933120052940, 8522406631435977326,
   1664841074364688286, 14114568210535260168, 7038022489138260835, 16257215914838125090,
   2255698373562355934, 10744637689614201099, 8755364094022092378, 5451376278073751353]

theorem diagonal_words (i : Fin 12) : matrixDiag12Raw.getD i 0 < modulus ∧
    diagonalInverses.getD i 0 * matrixDiag12Raw.getD i 0 % modulus = 2 ^ 64 % modulus := by
  revert i
  decide

theorem toField_diagonal (i : Fin 12) :
    (diagonal i).toField * 2 ^ 64 = (matrixDiag12Raw.getD i 0 : ZMod modulus) := by
  have hmont : (diagonal i).mont = matrixDiag12Raw.getD i 0 := by
    rw [diagonal, GFp.ofWord, dif_pos (diagonal_words i).1]
  rw [GFp.toField_mul_two_pow, hmont]

theorem inverse_mul_diagonal (i : Fin 12) :
    (diagonalInverses.getD i 0 : ZMod modulus) * (diagonal i).toField = 1 := by
  apply mul_right_cancel₀ GFp.two_pow_64_ne_zero
  have hword := (ZMod.natCast_eq_natCast_iff' _ _ _).mpr (diagonal_words i).2
  rw [Nat.cast_mul, GFp.cast_two_pow_64] at hword
  rw [mul_assoc, toField_diagonal, hword, one_mul]

theorem sum_inverses_ne_zero :
    (1 : ZMod modulus) + ∑ i : Fin 12, (diagonalInverses.getD i 0 : ZMod modulus) ≠ 0 := by
  have hsum : (1 : ZMod modulus) + ∑ i : Fin 12, (diagonalInverses.getD i 0 : ZMod modulus) =
      ((1 + ∑ i : Fin 12, diagonalInverses.getD i 0 : ℕ) : ZMod modulus) := by
    rw [Nat.cast_add, Nat.cast_one, Nat.cast_sum]
  rw [hsum, Ne, ZMod.natCast_eq_zero_iff]
  decide

theorem toField_foldl (l : List GFp) (x : GFp) :
    (l.foldl (· + ·) x).toField = x.toField + (l.map GFp.toField).sum := by
  induction l generalizing x with
  | nil => simp
  | cons y l ih =>
    rw [List.foldl_cons, ih, GFp.toField_add, List.map_cons, List.sum_cons, add_assoc]

theorem toField_sum (s : State) : (s.foldl (· + ·) GFp.zero).toField = ∑ i, toVec s i := by
  have hlist : s.toList = List.ofFn fun i : Fin 12 => s[i] := by
    rw [← Vector.toList_ofFn]
    congr 1
    exact Vector.ofFn_getElem.symm
  rw [← Vector.foldl_toList, toField_foldl, GFp.toField_zero, zero_add, hlist, List.map_ofFn,
    List.sum_ofFn]
  rfl

theorem toVec_internalLinearLayer_apply (s : State) :
    toVec (internalLinearLayer s) =
      fun i => toVec s i * (diagonal i).toField + ∑ j, toVec s j := by
  rw [internalLinearLayer, toVec_ofFn]
  funext i
  rw [GFp.toField_add, GFp.toField_mul, toField_sum]
  rfl

/-- The matrix of the internal layer: the diagonal plus ones. -/
def internalMatrix : Matrix (Fin 12) (Fin 12) (ZMod modulus) :=
  Matrix.diagonal (fun i => (diagonal i).toField) + Matrix.of fun _ _ => 1

/-- The internal layer multiplies by its matrix. -/
theorem toVec_internalLinearLayer (s : State) :
    toVec (internalLinearLayer s) = internalMatrix.mulVec (toVec s) := by
  rw [toVec_internalLinearLayer_apply, internalMatrix, Matrix.add_mulVec]
  funext i
  rw [Pi.add_apply, Matrix.mulVec_diagonal, mul_comm]
  simp [Matrix.mulVec, dotProduct]

theorem internalLinearLayer_injective : Function.Injective internalLinearLayer := by
  intro s t h
  apply toVec_injective
  apply diagonal_add_sum_injective inverse_mul_diagonal sum_inverses_ne_zero
  have hvec := congrArg toVec h
  rwa [toVec_internalLinearLayer_apply, toVec_internalLinearLayer_apply] at hvec

/-- A matrix that a one-to-one layer multiplies by is invertible. -/
theorem isUnit_of_layer {layer : State → State} {M : Matrix (Fin 12) (Fin 12) (ZMod modulus)}
    (hlayer : ∀ s, toVec (layer s) = M.mulVec (toVec s)) (h : Function.Injective layer) :
    IsUnit M := by
  rw [← Matrix.mulVec_injective_iff_isUnit]
  intro v w hvw
  obtain ⟨s, rfl⟩ := toVec_surjective v
  obtain ⟨t, rfl⟩ := toVec_surjective w
  have hst : layer s = layer t := toVec_injective (by rw [hlayer, hlayer]; exact hvw)
  rw [h hst]

/-! ## The permutation -/

theorem fullRound_injective (round : ℕ) : Function.Injective fun s => fullRound s round :=
  externalLinearLayer_injective.comp (sboxFull_injective.comp (addExternalRc_injective round))

theorem partialRound_injective (round : ℕ) : Function.Injective fun s => partialRound s round :=
  internalLinearLayer_injective.comp
    ((set_zero_injective pow7_injective).comp (set_zero_injective (add_right_injective _)))

/-- Rounds of the three kinds, one after the other. -/
theorem rounds_injective (first inner last : List ℕ) : Function.Injective fun s =>
    last.foldl fullRound (inner.foldl partialRound (first.foldl fullRound
      (externalLinearLayer s))) :=
  (foldl_injective fullRound_injective last).comp
    ((foldl_injective partialRound_injective inner).comp
      ((foldl_injective fullRound_injective first).comp externalLinearLayer_injective))

theorem permute_injective : Function.Injective permute :=
  rounds_injective (List.range 4) (List.range 22) (List.range' 4 4)

/-! ## One block of the sponge -/

theorem absorb_injective {a b : List GFp} (hlen : a.length = b.length) (ha : a.length ≤ 12)
    {s : State} (h : absorb s a = absorb s b) : a = b := by
  apply List.ext_getElem hlen
  intro i hi hi'
  have hindex := congrArg (fun t : State => t[i]) h
  simp only [absorb, Vector.getElem_ofFn] at hindex
  rwa [List.getD_eq_getElem _ _ hi, List.getD_eq_getElem _ _ hi'] at hindex

/-- Up to eight elements are one block, the empty list included. -/
theorem spongeState_eq {inputs : List GFp} (h : inputs.length ≤ 8) :
    spongeState inputs = permute (absorb .new inputs) := by
  rw [spongeState]
  split_ifs with hnil
  · rw [hnil]
    congr 1
  · rw [absorbAll, if_neg hnil, List.take_of_length_le h, List.drop_eq_nil_of_le h, absorbAll,
      if_pos rfl]

theorem spongeState_injective {a b : List GFp} (hlen : a.length = b.length) (ha : a.length ≤ 8)
    (h : spongeState a = spongeState b) : a = b := by
  rw [spongeState_eq ha, spongeState_eq (hlen ▸ ha)] at h
  exact absorb_injective hlen (by omega) (permute_injective h)

/-- **Main theorem.** The S-box is a bijection, the linear layers multiply by invertible matrices,
    the permutation is one-to-one, and the state after one block binds its inputs. -/
theorem permutation_all :
    Function.Bijective GFp.pow7 ∧
    ((∀ s, toVec (externalLinearLayer s) = externalMatrix.mulVec (toVec s)) ∧
      IsUnit externalMatrix) ∧
    ((∀ s, toVec (internalLinearLayer s) = internalMatrix.mulVec (toVec s)) ∧
      IsUnit internalMatrix) ∧
    Function.Injective permute ∧
    ∀ a b : List GFp, a.length = b.length → a.length ≤ 8 → a ≠ b →
      spongeState a ≠ spongeState b := by
  refine ⟨pow7_bijective, ⟨toVec_externalLinearLayer, ?_⟩, ⟨toVec_internalLinearLayer, ?_⟩,
    permute_injective, fun a b hlen ha hne h => hne (spongeState_injective hlen ha h)⟩
  · exact isUnit_of_layer toVec_externalLinearLayer externalLinearLayer_injective
  · exact isUnit_of_layer toVec_internalLinearLayer internalLinearLayer_injective

end Poseidon2

end Digdigdig3.Lighter
