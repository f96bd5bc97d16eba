import Mathlib.Tactic
import Mathlib.Data.List.Basic
import Mathlib.Data.List.Perm.Basic

/-!
# Values sorted into buckets

Values are written with a key; `bucket ws k` holds the values written with key `k`, in
order. Reading some of the buckets back gives the values whose keys are among them.

* `flatMap_bucket_perm`: the buckets `ks` together hold the values with a key in `ks`.
* `filter_filter_perm_iff`: when no value of interest is in a bucket that is not read.
* `flatMap_bucket_of_sorted`, `sorted_of_flatMap_bucket`: buckets read in ascending order
  keep the order of writing exactly when the keys were ascending.
-/

namespace Digdigdig3

variable {κ α : Type*} [DecidableEq κ]

/-- The values written with key `k`. -/
def bucket (ws : List (κ × α)) (k : κ) : List α :=
  (ws.filter fun w => decide (w.1 = k)).map Prod.snd

@[simp] theorem bucket_nil (k : κ) : bucket ([] : List (κ × α)) k = [] := rfl

theorem bucket_append (ws ws' : List (κ × α)) (k : κ) :
    bucket (ws ++ ws') k = bucket ws k ++ bucket ws' k := by
  rw [bucket, List.filter_append, List.map_append]
  rfl

theorem bucket_singleton (k k' : κ) (a : α) :
    bucket [(k, a)] k' = if k = k' then [a] else [] := by
  by_cases h : k = k' <;> simp [bucket, h]

theorem bucket_ne_nil {ws : List (κ × α)} {w : κ × α} (h : w ∈ ws) : bucket ws w.1 ≠ [] := by
  apply List.ne_nil_of_mem (a := w.2)
  exact List.mem_map_of_mem (List.mem_filter.mpr ⟨h, decide_eq_true rfl⟩)

/-- The buckets `ks` together hold the values with a key in `ks`. -/
theorem flatMap_bucket_perm {ks : List κ} (hks : ks.Nodup) (ws : List (κ × α)) :
    (ks.flatMap (bucket ws)).Perm ((ws.filter fun w => decide (w.1 ∈ ks)).map Prod.snd) := by
  induction ks with
  | nil => simp
  | cons k ks ih =>
    obtain ⟨hk, hks⟩ := List.nodup_cons.mp hks
    have hsplit : (ws.filter fun w => decide (w.1 ∈ k :: ks)).Perm
        (ws.filter (fun w => decide (w.1 = k)) ++ ws.filter fun w => decide (w.1 ∈ ks)) := by
      have hpart := List.filter_append_perm (fun w : κ × α => decide (w.1 = k))
        (ws.filter fun w => decide (w.1 ∈ k :: ks))
      rw [List.filter_filter, List.filter_filter] at hpart
      refine hpart.symm.trans (List.Perm.of_eq ?_)
      congr 1
      · apply List.filter_congr
        intro w _
        by_cases hw : w.1 = k <;> simp [hw]
      · apply List.filter_congr
        intro w _
        by_cases hw : w.1 = k
        · simp [hw, hk]
        · simp [hw]
    rw [List.flatMap_cons]
    refine ((ih hks).append_left (bucket ws k)).trans ?_
    rw [bucket, ← List.map_append]
    exact (hsplit.map Prod.snd).symm

omit [DecidableEq κ] in
/-- The values that satisfy `p` are the same in the writes that satisfy `q` exactly when
    every write of such a value satisfies `q`. -/
theorem filter_filter_perm_iff (ws : List (κ × α)) (p : α → Bool) (q : κ × α → Bool) :
    (((ws.filter q).map Prod.snd).filter p).Perm ((ws.map Prod.snd).filter p) ↔
      ∀ w ∈ ws, p w.2 = true → q w = true := by
  have hfilter : ∀ l : List (κ × α), (l.map Prod.snd).filter p =
      (l.filter fun w => p w.2).map Prod.snd := fun l => List.filter_map
  rw [hfilter, hfilter, List.filter_filter]
  have hsub : (ws.filter fun w => p w.2 && q w).Sublist (ws.filter fun w => p w.2) := by
    apply List.monotone_filter_right
    intro w hw
    exact (Bool.and_eq_true _ _ ▸ hw : _ ∧ _).1
  constructor
  · intro h w hw hp
    have hlen : (ws.filter fun w => p w.2 && q w).length = (ws.filter fun w => p w.2).length := by
      simpa using h.length_eq
    have heq := hsub.eq_of_length hlen
    have hmem : w ∈ ws.filter fun w => p w.2 := List.mem_filter.mpr ⟨hw, hp⟩
    rw [← heq, List.mem_filter, Bool.and_eq_true] at hmem
    exact hmem.2.2
  · intro h
    apply List.Perm.of_eq
    congr 1
    apply List.filter_congr
    intro w hw
    by_cases hp : p w.2 = true
    · simp [hp, h w hw hp]
    · simp [hp]

theorem eq_of_map_eq {β : Type*} {f : α → β} {l l' : List α}
    (hinj : ∀ x ∈ l, ∀ y ∈ l', f x = f y → x = y) (h : l.map f = l'.map f) : l = l' := by
  apply List.ext_getElem (by simpa using congrArg List.length h)
  intro i hi hi'
  apply hinj _ (List.getElem_mem hi) _ (List.getElem_mem hi')
  have := congrArg (fun m => m[i]?) h
  simpa [hi, hi'] using this

/-! ## Ascending keys -/

section Sorted

variable {κ : Type*} [LinearOrder κ] {ks ks' : List κ}

/-- Buckets that are read in ascending order: which empty ones are read does not matter. -/
theorem flatMap_eq_of_sorted (hks : ks.Pairwise (· < ·)) (hks' : ks'.Pairwise (· < ·))
    {g : κ → List α} (h : ∀ k, g k ≠ [] → (k ∈ ks ↔ k ∈ ks')) : ks.flatMap g = ks'.flatMap g := by
  classical
  have hskip : ∀ l : List κ, l.flatMap g = (l.filter fun k => decide (g k ≠ [])).flatMap g := by
    intro l
    induction l with
    | nil => rfl
    | cons k l ih =>
      by_cases hk : g k = []
      · rw [List.filter_cons_of_neg (by simpa using hk), List.flatMap_cons, hk, ih]
        rfl
      · rw [List.filter_cons_of_pos (by simpa using hk), List.flatMap_cons, List.flatMap_cons, ih]
  have hsort : ∀ {l : List κ}, l.Pairwise (· < ·) →
      (l.filter fun k => decide (g k ≠ [])).Pairwise (· < ·) := fun hl => hl.filter _
  have hperm : (ks.filter fun k => decide (g k ≠ [])).Perm
      (ks'.filter fun k => decide (g k ≠ [])) := by
    rw [List.perm_ext_iff_of_nodup ((hsort hks).imp ne_of_lt) ((hsort hks').imp ne_of_lt)]
    intro k
    rw [List.mem_filter, List.mem_filter, decide_eq_true_eq]
    exact and_congr_left (h k)
  rw [hskip ks, hskip ks']
  congr 1
  exact hperm.eq_of_pairwise (fun a b _ _ hab hba => absurd hba (lt_asymm hab)) (hsort hks)
    (hsort hks')

/-- Values written in ascending order of their keys are read back as they were written. -/
theorem flatMap_bucket_of_sorted (hks : ks.Pairwise (· < ·)) {ws : List (κ × α)}
    (hws : ws.Pairwise fun a b => a.1 ≤ b.1) (hmem : ∀ w ∈ ws, w.1 ∈ ks) :
    ks.flatMap (bucket ws) = ws.map Prod.snd := by
  induction ws with
  | nil => simp
  | cons w ws ih =>
    obtain ⟨hle, hws⟩ := List.pairwise_cons.mp hws
    have ih := ih hws fun v hv => hmem v (List.mem_cons_of_mem w hv)
    obtain ⟨pre, post, rfl⟩ := List.append_of_mem (hmem w List.mem_cons_self)
    obtain ⟨-, hpost, hlt⟩ := List.pairwise_append.mp hks
    have hpre : ∀ ws' : List (κ × α), (∀ v ∈ ws', w.1 ≤ v.1) → pre.flatMap (bucket ws') = [] := by
      intro ws' hws'
      apply List.flatMap_eq_nil_iff.mpr
      intro k hk
      simp only [bucket, List.map_eq_nil_iff, List.filter_eq_nil_iff, decide_eq_true_eq]
      intro v hv heq
      have := hlt k hk w.1 List.mem_cons_self
      exact absurd (hws' v hv) (by rw [heq]; exact not_le.mpr this)
    have hhead : bucket (w :: ws) w.1 = w.2 :: bucket ws w.1 := by simp [bucket]
    have htail : post.flatMap (bucket (w :: ws)) = post.flatMap (bucket ws) := by
      apply List.flatMap_congr
      intro k hk
      have hne : w.1 ≠ k := ((List.pairwise_cons.mp hpost).1 k hk).ne
      simp [bucket, hne]
    rw [List.flatMap_append, hpre ws hle, List.nil_append, List.flatMap_cons] at ih
    rw [List.flatMap_append, hpre _ (by
      intro v hv
      rcases List.mem_cons.mp hv with rfl | hv
      · exact le_rfl
      · exact hle v hv), List.nil_append, List.flatMap_cons, hhead, htail, List.cons_append, ih]
    rfl

/-- Distinct values that are read back as they were written were written in ascending order
    of their keys. -/
theorem sorted_of_flatMap_bucket (hks : ks.Pairwise (· < ·)) {ws new : List (κ × α)}
    (hnodup : (ws.map Prod.snd).Nodup) (hnew : ∀ w ∈ new, w ∈ ws) {p : α → Bool}
    (h : (ks.flatMap (bucket ws)).filter p = new.map Prod.snd) :
    new.Pairwise fun a b => a.1 ≤ b.1 := by
  -- the values that are read, each with its key
  set pairs := ks.flatMap fun k => ws.filter fun w => decide (w.1 = k) with hpairs
  have hmem : ∀ w ∈ pairs, w ∈ ws := by
    intro w hw
    obtain ⟨k, -, hw⟩ := List.mem_flatMap.mp hw
    exact List.mem_of_mem_filter hw
  have hsorted : pairs.Pairwise fun a b => a.1 ≤ b.1 := by
    rw [hpairs, List.pairwise_flatMap]
    have hkey : ∀ {k : κ} {w : κ × α}, w ∈ ws.filter (fun w => decide (w.1 = k)) → w.1 = k :=
      fun hw => of_decide_eq_true (List.mem_filter.mp hw).2
    constructor
    · intro k _
      apply List.pairwise_of_forall_mem_list
      intro a ha b hb
      rw [hkey ha, hkey hb]
    · refine hks.imp ?_
      intro k k' hlt a ha b hb
      rw [hkey ha, hkey hb]
      exact hlt.le
  have hread : (pairs.filter fun w => p w.2).map Prod.snd = new.map Prod.snd := by
    rw [← h, ← Function.comp_def p Prod.snd, ← List.filter_map, hpairs, List.map_flatMap]
    rfl
  have heq : (pairs.filter fun w => p w.2) = new := by
    refine eq_of_map_eq (fun w hw v hv => ?_) hread
    exact List.inj_on_of_nodup_map hnodup (hmem w (List.mem_of_mem_filter hw)) (hnew v hv)
  rw [← heq]
  exact hsorted.filter _

end Sorted
end Digdigdig3
