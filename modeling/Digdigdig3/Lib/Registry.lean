import Mathlib.Tactic
import Mathlib.Logic.Function.Basic

/-!
# Registries of counted instances

Instances of a service are started under keys. The registry has at most one entry for each
key: an instance, and how many leases of it are out. Leases are taken and given back by key,
so a lease of an old instance can be given back when the entry is already that of a newer
one. Instances end by themselves.

* `Sound`: what all operations preserve.
* `Exact`: at most one instance of each key runs, and all counts are right.
* `exact_spawn_iff`, `Exact.giveBack`, `giveBack_stale_ne`, `exact_lose_iff`: the operations
  that can break it, and when they do.
* `leasesOf_giveBack_last`: the last lease leaves none.
-/

namespace Digdigdig3

/-- An entry: the instance, and the count of its leases. -/
structure RegistryEntry where
  inst : ℕ
  count : ℕ

/-- A lease of the instance `inst`, taken under `key` and held by `holder`. -/
structure Lease (K H : Type*) where
  key : K
  inst : ℕ
  holder : H
  deriving DecidableEq

/-- A registry: its entries, the leases that are out, the keys of the instances started so
    far, and which of them have ended. Numbers from `next` on are not in use. -/
@[ext] structure Registry (K H : Type*) where
  next : ℕ
  entry : K → Option RegistryEntry
  leases : List (Lease K H)
  keyOf : ℕ → Option K
  ended : ℕ → Bool

/-- `fetch_sub(1)` on a counter with the largest value `top`. -/
def fetchSub (top c : ℕ) : ℕ := if c = 0 then top else c - 1

theorem fetchSub_of_pos {top c : ℕ} (h : 0 < c) : fetchSub top c = c - 1 := by
  rw [fetchSub, if_neg (by omega)]

theorem fetchSub_ne {top : ℕ} (htop : 0 < top) (c : ℕ) : fetchSub top c ≠ c := by
  unfold fetchSub
  split_ifs with h <;> omega

theorem update_eq_some {A B : Type*} [DecidableEq A] {f : A → Option B} {a a' : A}
    {v : Option B} {b : B} (h : Function.update f a v a' = some b) :
    a' = a ∧ v = some b ∨ a' ≠ a ∧ f a' = some b := by
  by_cases ha : a' = a
  · subst ha
    rw [Function.update_self] at h
    exact Or.inl ⟨rfl, h⟩
  · rw [Function.update_of_ne ha] at h
    exact Or.inr ⟨ha, h⟩

namespace Registry

variable {K H : Type*}

/-- How many leases of the instance `i` are out. -/
def leasesOf (r : Registry K H) (i : ℕ) : ℕ := r.leases.countP fun l => l.inst = i

/-- Numbers in use are below `next`, and instances are leased and registered under their
    own keys. -/
structure Sound (r : Registry K H) : Prop where
  fresh : ∀ i, r.next ≤ i → r.keyOf i = none
  lease : ∀ l ∈ r.leases, r.keyOf l.inst = some l.key
  entry : ∀ k e, r.entry k = some e → r.keyOf e.inst = some k

/-- At most one instance of each key has not ended, and every entry counts the leases of its
    instance. -/
structure Exact (r : Registry K H) : Prop where
  unique : ∀ i j k, r.keyOf i = some k → r.keyOf j = some k → r.ended i = false →
    r.ended j = false → i = j
  count : ∀ k e, r.entry k = some e → e.count = r.leasesOf e.inst

variable {r : Registry K H}

/-- Numbers in use are not fresh. -/
theorem Sound.lt_of_keyOf (h : r.Sound) {i : ℕ} {k : K} (hi : r.keyOf i = some k) :
    i < r.next := by
  by_contra hge
  rw [h.fresh i (not_lt.mp hge)] at hi
  cases hi

theorem inst_ne_of_key_ne {i j : ℕ} {k k' : K} (hi : r.keyOf i = some k)
    (hj : r.keyOf j = some k') (hne : k ≠ k') : i ≠ j := by
  rintro rfl
  exact hne (Option.some.inj (hi.symm.trans hj))

/-- No lease of an instance that has not been started is out. -/
theorem Sound.leasesOf_next (h : r.Sound) : r.leasesOf r.next = 0 := by
  refine List.countP_eq_zero.mpr ?_
  intro l hl hinst
  have hlt := h.lt_of_keyOf (h.lease l hl)
  have hinst : l.inst = r.next := of_decide_eq_true hinst
  omega

theorem leasesOf_pos {l : Lease K H} (hl : l ∈ r.leases) : 0 < r.leasesOf l.inst :=
  List.countP_pos_iff.mpr ⟨l, hl, decide_eq_true rfl⟩

/-! ## Operations -/

/-- A registry in which nothing has started. -/
def empty : Registry K H :=
  { next := 0, entry := fun _ => none, leases := [], keyOf := fun _ => none
    ended := fun _ => false }

/-- Take the next number for something else. -/
def skip (r : Registry K H) : Registry K H := { r with next := r.next + 1 }

/-- The instance `i` ends. -/
def finish (r : Registry K H) (i : ℕ) : Registry K H :=
  { r with ended := Function.update r.ended i true }

section Keyed

variable [DecidableEq K]

/-- Start an instance, with one lease of it for `h`, and make it the entry of its key. -/
def spawn (r : Registry K H) (k : K) (h : H) : Registry K H :=
  { next := r.next + 1
    entry := Function.update r.entry k (some { inst := r.next, count := 1 })
    leases := { key := k, inst := r.next, holder := h } :: r.leases
    keyOf := Function.update r.keyOf r.next (some k)
    ended := Function.update r.ended r.next false }

/-- Take a lease of the registered instance for `h`. -/
def take (r : Registry K H) (k : K) (h : H) : Registry K H :=
  match r.entry k with
  | none => r
  | some e =>
    { r with
      entry := Function.update r.entry k (some { e with count := e.count + 1 })
      leases := { key := k, inst := e.inst, holder := h } :: r.leases }

/-- Count one lease less in the entry of `k`. -/
def uncount (r : Registry K H) (top : ℕ) (k : K) : Registry K H :=
  match r.entry k with
  | none => r
  | some e =>
    { r with entry := Function.update r.entry k (some { e with count := fetchSub top e.count }) }

/-- Remove the entry of `k`. -/
def retire (r : Registry K H) (k : K) : Registry K H :=
  { r with entry := Function.update r.entry k none }

end Keyed

section Held

variable [DecidableEq H]

/-- The holder `a` hands its leases to `b`. -/
def handOver (r : Registry K H) (a b : H) : Registry K H :=
  { r with leases := r.leases.map fun l => if l.holder = a then { l with holder := b } else l }

/-- The leases of the holder `h` are lost without being given back. -/
def lose (r : Registry K H) (h : H) : Registry K H :=
  { r with leases := r.leases.filter fun l => l.holder ≠ h }

/-- Give a lease back. -/
def giveBack [DecidableEq K] (r : Registry K H) (top : ℕ) (l : Lease K H) : Registry K H :=
  uncount { r with leases := r.leases.erase l } top l.key

end Held

/-! ## Soundness -/

theorem sound_empty : Sound (empty : Registry K H) := by
  refine ⟨fun _ _ => rfl, ?_, ?_⟩
  · intro l hl
    cases hl
  · intro k e he
    cases he

theorem Sound.skip (h : r.Sound) : r.skip.Sound :=
  ⟨fun i hi => h.fresh i (Nat.le_of_succ_le hi), h.lease, h.entry⟩

theorem Sound.finish (h : r.Sound) (i : ℕ) : (r.finish i).Sound := ⟨h.fresh, h.lease, h.entry⟩

theorem Sound.of_leases_subset (h : r.Sound) {ls : List (Lease K H)} (hls : ls ⊆ r.leases) :
    Sound { r with leases := ls } :=
  ⟨h.fresh, fun l hl => h.lease l (hls hl), h.entry⟩

theorem Sound.handOver [DecidableEq H] (h : r.Sound) (a b : H) : (r.handOver a b).Sound := by
  refine ⟨h.fresh, ?_, h.entry⟩
  intro l hl
  obtain ⟨l', hl', rfl⟩ := List.mem_map.mp hl
  split_ifs
  · exact h.lease l' hl'
  · exact h.lease l' hl'

theorem Sound.lose [DecidableEq H] (h : r.Sound) (a : H) : (r.lose a).Sound :=
  h.of_leases_subset List.filter_sublist.subset

variable [DecidableEq K]

/-- An entry that is replaced by one for the same instance keeps the registry sound. -/
theorem Sound.of_entry (h : r.Sound) {k : K} {e e' : RegistryEntry} (he : r.entry k = some e)
    (hinst : e'.inst = e.inst) : Sound { r with entry := Function.update r.entry k (some e') } := by
  refine ⟨h.fresh, h.lease, ?_⟩
  intro k' e'' he''
  rcases update_eq_some he'' with ⟨rfl, heq⟩ | ⟨-, hold⟩
  · cases heq
    show r.keyOf e'.inst = some k'
    rw [hinst]
    exact h.entry k' e he
  · exact h.entry k' e'' hold

theorem Sound.spawn (h : r.Sound) (k : K) (a : H) : (r.spawn k a).Sound := by
  have hold : ∀ {i k'}, r.keyOf i = some k' →
      Function.update r.keyOf r.next (some k) i = some k' := by
    intro i k' hi
    rw [Function.update_of_ne (h.lt_of_keyOf hi).ne]
    exact hi
  refine ⟨?_, ?_, ?_⟩
  · intro i hi
    have hi : r.next + 1 ≤ i := hi
    show Function.update r.keyOf r.next (some k) i = none
    rw [Function.update_of_ne (by omega)]
    exact h.fresh i (by omega)
  · intro l hl
    rcases List.mem_cons.mp hl with rfl | hl
    · exact Function.update_self _ _ _
    · exact hold (h.lease l hl)
  · intro k' e he
    rcases update_eq_some he with ⟨rfl, heq⟩ | ⟨-, hentry⟩
    · cases heq
      exact Function.update_self _ _ _
    · exact hold (h.entry k' e hentry)

theorem Sound.take (h : r.Sound) (k : K) (a : H) : (r.take k a).Sound := by
  unfold Registry.take
  cases hentry : r.entry k with
  | none => exact h
  | some e =>
    have hcounted : Sound { r with
        entry := Function.update r.entry k (some { e with count := e.count + 1 }) } :=
      h.of_entry hentry rfl
    refine ⟨hcounted.fresh, ?_, hcounted.entry⟩
    intro l hl
    rcases List.mem_cons.mp hl with rfl | hl
    · exact h.entry k e hentry
    · exact h.lease l hl

theorem Sound.uncount (h : r.Sound) (top : ℕ) (k : K) : (r.uncount top k).Sound := by
  unfold Registry.uncount
  cases hentry : r.entry k with
  | none => exact h
  | some e => exact h.of_entry hentry rfl

theorem Sound.giveBack [DecidableEq H] (h : r.Sound) (top : ℕ) (l : Lease K H) :
    (r.giveBack top l).Sound :=
  (h.of_leases_subset (List.erase_subset)).uncount top l.key

theorem Sound.retire (h : r.Sound) (k : K) : (r.retire k).Sound := by
  refine ⟨h.fresh, h.lease, ?_⟩
  intro k' e he
  rcases update_eq_some he with ⟨-, heq⟩ | ⟨-, hold⟩
  · cases heq
  · exact h.entry k' e hold

/-! ## Exactness -/

omit [DecidableEq K] in
theorem exact_empty : Exact (empty : Registry K H) := by
  refine ⟨?_, ?_⟩
  · intro i j k hi
    cases hi
  · intro k e he
    cases he

omit [DecidableEq K] in
theorem Exact.skip (h : r.Exact) : r.skip.Exact := ⟨h.unique, h.count⟩

omit [DecidableEq K] in
/-- Instances that end do not get in each other's way. -/
theorem Exact.finish (h : r.Exact) (i : ℕ) : (r.finish i).Exact := by
  have hrunning : ∀ {j}, Function.update r.ended i true j = false → r.ended j = false := by
    intro j hj
    by_cases hji : j = i
    · subst hji
      rw [Function.update_self] at hj
      cases hj
    · rwa [Function.update_of_ne hji] at hj
  refine ⟨?_, h.count⟩
  intro j j' k hj hj' hend hend'
  exact h.unique j j' k hj hj' (hrunning hend) (hrunning hend')

omit [DecidableEq K] in
theorem leasesOf_handOver [DecidableEq H] (a b : H) (i : ℕ) :
    (r.handOver a b).leasesOf i = r.leasesOf i := by
  unfold leasesOf Registry.handOver
  rw [List.countP_map]
  refine List.countP_congr ?_
  intro l _
  show decide ((if l.holder = a then { l with holder := b } else l).inst = i) = true ↔ _
  split_ifs <;> rfl

omit [DecidableEq K] in
theorem Exact.handOver [DecidableEq H] (h : r.Exact) (a b : H) : (r.handOver a b).Exact := by
  refine ⟨h.unique, ?_⟩
  intro k e he
  rw [leasesOf_handOver]
  exact h.count k e he

theorem leasesOf_spawn (k : K) (a : H) (i : ℕ) :
    (r.spawn k a).leasesOf i = r.leasesOf i + if r.next = i then 1 else 0 := by
  unfold leasesOf Registry.spawn
  rw [List.countP_cons]
  simp only [decide_eq_true_eq]

/-- Starting an instance is exact unless another of its key still runs. -/
theorem exact_spawn_iff (hs : r.Sound) (h : r.Exact) (k : K) (a : H) :
    (r.spawn k a).Exact ↔ ∀ i, r.keyOf i = some k → r.ended i = true := by
  have hkeyNew : (r.spawn k a).keyOf r.next = some k := Function.update_self _ _ _
  have hendedNew : (r.spawn k a).ended r.next = false := Function.update_self _ _ _
  have hkeyOld : ∀ {i}, i ≠ r.next → (r.spawn k a).keyOf i = r.keyOf i :=
    fun hi => Function.update_of_ne hi _ _
  have hendedOld : ∀ {i}, i ≠ r.next → (r.spawn k a).ended i = r.ended i :=
    fun hi => Function.update_of_ne hi _ _
  constructor
  · intro hspawn i hi
    by_contra hrunning
    have hne : i ≠ r.next := (hs.lt_of_keyOf hi).ne
    refine hne (hspawn.unique i r.next k ?_ hkeyNew ?_ hendedNew)
    · rw [hkeyOld hne, hi]
    · rw [hendedOld hne]
      exact Bool.eq_false_of_not_eq_true hrunning
  · intro hall
    -- an instance of `k` that still runs is the new one
    have hnew : ∀ {i}, (r.spawn k a).keyOf i = some k → (r.spawn k a).ended i = false →
        i = r.next := by
      intro i hi hend
      by_contra hne
      rw [hkeyOld hne] at hi
      rw [hendedOld hne, hall i hi] at hend
      cases hend
    refine ⟨?_, ?_⟩
    · intro i j k' hi hj hendi hendj
      by_cases hk : k' = k
      · subst hk
        rw [hnew hi hendi, hnew hj hendj]
      · have hother : ∀ {i}, (r.spawn k a).keyOf i = some k' → i ≠ r.next := by
          rintro i hi rfl
          exact hk (Option.some.inj (hi.symm.trans hkeyNew))
        have hnei := hother hi
        have hnej := hother hj
        rw [hkeyOld hnei] at hi
        rw [hendedOld hnei] at hendi
        rw [hkeyOld hnej] at hj
        rw [hendedOld hnej] at hendj
        exact h.unique i j k' hi hj hendi hendj
    · intro k' e he
      rw [leasesOf_spawn]
      rcases update_eq_some he with ⟨rfl, heq⟩ | ⟨-, hold⟩
      · cases heq
        rw [hs.leasesOf_next, if_pos rfl]
      · have hne : r.next ≠ e.inst := (hs.lt_of_keyOf (hs.entry k' e hold)).ne'
        rw [if_neg hne, add_zero]
        exact h.count k' e hold

/-- A lease of the registered instance is counted. -/
theorem Exact.take (hs : r.Sound) (h : r.Exact) (k : K) (a : H) : (r.take k a).Exact := by
  unfold Registry.take
  cases hentry : r.entry k with
  | none => exact h
  | some e =>
    refine ⟨h.unique, ?_⟩
    intro k' e' he'
    show e'.count = List.countP _ (_ :: r.leases)
    rw [List.countP_cons]
    rcases update_eq_some he' with ⟨rfl, heq⟩ | ⟨hk, hold⟩
    · cases heq
      show e.count + 1 = r.leasesOf e.inst + _
      rw [h.count k' e hentry, if_pos (decide_eq_true rfl)]
    · have hne : e.inst ≠ e'.inst :=
        (inst_ne_of_key_ne (hs.entry k e hentry) (hs.entry k' e' hold) (Ne.symm hk))
      show e'.count = r.leasesOf e'.inst + _
      rw [if_neg (by simpa using hne), add_zero]
      exact h.count k' e' hold

theorem Exact.retire (h : r.Exact) (k : K) : (r.retire k).Exact := by
  refine ⟨h.unique, ?_⟩
  intro k' e he
  rcases update_eq_some he with ⟨-, heq⟩ | ⟨-, hold⟩
  · cases heq
  · exact h.count k' e hold

/-! ## Giving leases back -/

section Held

variable [DecidableEq H]

theorem leasesOf_giveBack (top : ℕ) {l : Lease K H} (hl : l ∈ r.leases) (i : ℕ) :
    (r.giveBack top l).leasesOf i = r.leasesOf i - if l.inst = i then 1 else 0 := by
  have hleases : (r.giveBack top l).leases = r.leases.erase l := by
    unfold Registry.giveBack Registry.uncount
    cases r.entry l.key <;> rfl
  unfold leasesOf
  rw [hleases, List.countP_erase]
  simp only [hl, true_and, decide_eq_true_eq]

theorem giveBack_entry_of_some {top : ℕ} {l : Lease K H} {e : RegistryEntry}
    (he : r.entry l.key = some e) :
    (r.giveBack top l).entry =
      Function.update r.entry l.key (some { e with count := fetchSub top e.count }) := by
  unfold Registry.giveBack Registry.uncount
  simp only [he]

theorem giveBack_entry_of_none {top : ℕ} {l : Lease K H} (he : r.entry l.key = none) :
    (r.giveBack top l).entry = r.entry := by
  unfold Registry.giveBack Registry.uncount
  simp only [he]

theorem giveBack_unique (h : r.Exact) (top : ℕ) (l : Lease K H) (i j : ℕ) (k : K)
    (hi : (r.giveBack top l).keyOf i = some k) (hj : (r.giveBack top l).keyOf j = some k)
    (hendi : (r.giveBack top l).ended i = false) (hendj : (r.giveBack top l).ended j = false) :
    i = j := by
  have hkey : (r.giveBack top l).keyOf = r.keyOf := by
    unfold Registry.giveBack Registry.uncount
    cases r.entry l.key <;> rfl
  have hended : (r.giveBack top l).ended = r.ended := by
    unfold Registry.giveBack Registry.uncount
    cases r.entry l.key <;> rfl
  rw [hkey] at hi hj
  rw [hended] at hendi hendj
  exact h.unique i j k hi hj hendi hendj

/-- A lease given back while its own instance, or none, is the entry of its key. -/
theorem Exact.giveBack (hs : r.Sound) (h : r.Exact) {top : ℕ} {l : Lease K H}
    (hl : l ∈ r.leases) (hown : ∀ e, r.entry l.key = some e → e.inst = l.inst) :
    (r.giveBack top l).Exact := by
  -- entries of other keys are of other instances
  have hother : ∀ k e, k ≠ l.key → r.entry k = some e →
      e.count = (r.giveBack top l).leasesOf e.inst := by
    intro k e hk he
    have hne : l.inst ≠ e.inst :=
      inst_ne_of_key_ne (hs.lease l hl) (hs.entry k e he) (Ne.symm hk)
    rw [leasesOf_giveBack top hl, if_neg hne, Nat.sub_zero]
    exact h.count k e he
  refine ⟨giveBack_unique h top l, ?_⟩
  intro k' e' he'
  cases he : r.entry l.key with
  | none =>
    rw [giveBack_entry_of_none he] at he'
    refine hother k' e' ?_ he'
    rintro rfl
    rw [he] at he'
    cases he'
  | some e =>
    rw [giveBack_entry_of_some he] at he'
    rcases update_eq_some he' with ⟨rfl, heq⟩ | ⟨hk, hold⟩
    · cases heq
      have hinst := hown e he
      have hpos : 0 < e.count := by
        rw [h.count _ e he, hinst]
        exact leasesOf_pos hl
      show fetchSub top e.count = (r.giveBack top l).leasesOf e.inst
      rw [fetchSub_of_pos hpos, leasesOf_giveBack top hl, if_pos hinst.symm, h.count _ e he]
    · exact hother k' e' hk hold

omit [DecidableEq H] in
/-- A lease given back while another instance is the entry of its key changes the count of
    that instance. -/
theorem giveBack_stale_ne [DecidableEq H] {top : ℕ} (htop : 0 < top) {l : Lease K H}
    {e : RegistryEntry} (he : r.entry l.key = some e) :
    (r.giveBack top l).entry l.key ≠ some e := by
  rw [giveBack_entry_of_some he, Function.update_self]
  intro heq
  exact fetchSub_ne htop e.count (congrArg RegistryEntry.count (Option.some.inj heq))

/-- No lease is left when the last one counted was given back. -/
theorem leasesOf_giveBack_last (h : r.Exact) {top : ℕ} {l : Lease K H} (hl : l ∈ r.leases)
    {e : RegistryEntry} (he : r.entry l.key = some e) (hinst : e.inst = l.inst)
    (hlast : e.count ≤ 1) : (r.giveBack top l).leasesOf l.inst = 0 := by
  have hcount := h.count l.key e he
  rw [hinst] at hcount
  rw [leasesOf_giveBack top hl, if_pos rfl]
  omega

omit [DecidableEq K] in
/-- Losing leases is exact unless one of a registered instance is among them. -/
theorem exact_lose_iff (hs : r.Sound) (h : r.Exact) (a : H) :
    (r.lose a).Exact ↔
      ∀ l ∈ r.leases, l.holder = a → ∀ e, r.entry l.key = some e → e.inst ≠ l.inst := by
  have hsplit : ∀ i, r.leasesOf i = (r.lose a).leasesOf i +
      (r.leases.filter fun l => !decide (l.holder ≠ a)).countP fun l => l.inst = i := by
    intro i
    unfold leasesOf Registry.lose
    rw [List.countP_eq_countP_filter_add r.leases _ fun l => decide (l.holder ≠ a)]
  constructor
  · intro hlose l hl hholder e he hinst
    have hcount := h.count l.key e he
    have hcount' := hlose.count l.key e he
    have hpos : 0 <
        (r.leases.filter fun l => !decide (l.holder ≠ a)).countP fun l => l.inst = e.inst := by
      refine List.countP_pos_iff.mpr ⟨l, List.mem_filter.mpr ⟨hl, ?_⟩, ?_⟩
      · simpa using hholder
      · simpa using hinst.symm
    have := hsplit e.inst
    omega
  · intro hall
    refine ⟨h.unique, ?_⟩
    intro k e he
    have hzero : (r.leases.filter fun l => !decide (l.holder ≠ a)).countP
        (fun l => l.inst = e.inst) = 0 := by
      refine List.countP_eq_zero.mpr ?_
      intro l hl hinst
      obtain ⟨hmem, hholder⟩ := List.mem_filter.mp hl
      have hinst : l.inst = e.inst := of_decide_eq_true hinst
      have hkey : l.key = k := by
        have := hs.lease l hmem
        rw [hinst, hs.entry k e he] at this
        exact (Option.some.inj this).symm
      exact hall l hmem (by simpa using hholder) e (hkey ▸ he) hinst.symm
    have := hsplit e.inst
    have := h.count k e he
    omega

end Held

end Registry

end Digdigdig3
