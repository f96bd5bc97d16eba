import Mathlib.Data.List.Destutter
import Digdigdig3.Station.Rewarm

/-!
# Points in front of a ring

What `rewarm_dedup` and `rewarm_splice` (`crates/digdigdig3-station/src/station.rs` lines 936–997)
make of any list of emissions: points go by their time, and by an identity that may be another one.

* `rewarmDedup_cons_cons`: a point stays unless the next one has its identity.
* `rewarmSplice_some`: the points that are put in front of a ring, and the ring.
* `prepends_iff_of_inStep`: where the identity changes with the time.
* `prepends_iff_of_key`: where the identity is the time, in whatever order the points come.
-/

namespace Digdigdig3.Rewarm

variable {T Id : Type} [DecidableEq Id] {key : T → ℤ} {ident : T → Id}

/-! ## Neighbours -/

theorem foldl_dedup (ident : T → Id) (out : List T) (x : T) (ps : List T) :
    ps.foldl (fun out p =>
      match out.getLast? with
      | some last => if ident last = ident p then out.dropLast ++ [p] else out ++ [p]
      | none => out ++ [p]) (out ++ [x]) = out ++ rewarmDedup ident (x :: ps) := by
  induction ps generalizing out x with
  | nil => rfl
  | cons p ps ih =>
    rw [List.foldl_cons, List.getLast?_concat]
    simp only [List.dropLast_concat]
    unfold rewarmDedup
    rw [List.foldl_cons, List.foldl_cons]
    simp only [List.getLast?_nil, List.nil_append, List.getLast?_singleton]
    split_ifs with hsame
    · rw [ih]
      congr 1
    · rw [ih, List.append_assoc]
      congr 1
      exact (ih [x] p).symm

/-- A point stays unless the next one has its identity. -/
theorem rewarmDedup_cons_cons (ident : T → Id) (x y : T) (ys : List T) :
    rewarmDedup ident (x :: y :: ys) =
      if ident x = ident y then rewarmDedup ident (y :: ys)
      else x :: rewarmDedup ident (y :: ys) := by
  have hfold : rewarmDedup ident (x :: y :: ys) =
      ys.foldl (fun out p =>
        match out.getLast? with
        | some last => if ident last = ident p then out.dropLast ++ [p] else out ++ [p]
        | none => out ++ [p]) (if ident x = ident y then [y] else [x, y]) := rfl
  rw [hfold]
  split_ifs
  · exact foldl_dedup ident [] y ys
  · exact foldl_dedup ident [x] y ys

theorem rewarmDedup_sublist (ident : T → Id) (xs : List T) :
    (rewarmDedup ident xs).Sublist xs := by
  induction xs with
  | nil => exact List.Sublist.refl _
  | cons x xs ih =>
    cases xs with
    | nil => exact List.Sublist.refl _
    | cons y ys =>
      rw [rewarmDedup_cons_cons]
      split_ifs
      · exact ih.cons x
      · exact ih.cons_cons x

theorem exists_rewarmDedup_cons (ident : T → Id) (x : T) (xs : List T) :
    ∃ y ys, rewarmDedup ident (x :: xs) = y :: ys ∧ ident y = ident x := by
  induction xs generalizing x with
  | nil => exact ⟨x, [], rfl, rfl⟩
  | cons y ys ih =>
    rw [rewarmDedup_cons_cons]
    split_ifs with hsame
    · obtain ⟨z, zs, hz, hid⟩ := ih y
      exact ⟨z, zs, hz, hid.trans hsame.symm⟩
    · exact ⟨x, _, rfl, rfl⟩

/-- The identities are those of the emissions without repetitions of a neighbour. -/
theorem map_rewarmDedup (ident : T → Id) (xs : List T) :
    (rewarmDedup ident xs).map ident = (xs.map ident).destutter (· ≠ ·) := by
  induction xs with
  | nil => rfl
  | cons x xs ih =>
    cases xs with
    | nil => rfl
    | cons y ys =>
      rw [List.map_cons, List.destutter_cons'] at ih
      rw [rewarmDedup_cons_cons, List.map_cons, List.map_cons, List.destutter_cons']
      split_ifs with hsame
      · rw [ih, List.destutter'_cons_neg _ (not_not.mpr hsame), hsame]
      · rw [List.map_cons, ih, List.destutter'_cons_pos _ hsame]

/-! ## Emissions in step -/

/-- Of two emissions either both the identity and the time are the same, or the identity is
    another one and the time later. -/
def InStep (key : T → ℤ) (ident : T → Id) (xs : List T) : Prop :=
  xs.Pairwise fun a b => ident a = ident b ∧ key a = key b ∨ ident a ≠ ident b ∧ key a < key b

/-- No two points share an identity, and each is later than the one before it. -/
def Apart (key : T → ℤ) (ident : T → Id) (xs : List T) : Prop :=
  xs.Pairwise fun a b => ident a ≠ ident b ∧ key a < key b

omit [DecidableEq Id] in
theorem InStep.key_le {xs : List T} {x y : T} (h : InStep key ident (x :: xs)) (hy : y ∈ xs) :
    key x ≤ key y := by
  rcases (List.pairwise_cons.mp h).1 y hy with ⟨-, heq⟩ | ⟨-, hlt⟩
  · exact heq.le
  · exact hlt.le

theorem InStep.apart {xs : List T} (h : InStep key ident xs) :
    Apart key ident (rewarmDedup ident xs) := by
  induction xs with
  | nil => exact List.Pairwise.nil
  | cons x xs ih =>
    cases xs with
    | nil => exact List.pairwise_singleton _ x
    | cons y ys =>
      obtain ⟨hx, htail⟩ := List.pairwise_cons.mp h
      rw [rewarmDedup_cons_cons]
      split_ifs with hsame
      · exact ih htail
      · refine List.pairwise_cons.mpr ⟨fun z hz => ?_, ih htail⟩
        have hxy : key x < key y := by
          rcases hx y List.mem_cons_self with ⟨hid, -⟩ | ⟨-, hlt⟩
          · exact absurd hid hsame
          · exact hlt
        have hmem := (rewarmDedup_sublist ident (y :: ys)).subset hz
        have hyz : key y ≤ key z := by
          rcases List.mem_cons.mp hmem with rfl | hz
          · exact le_rfl
          · exact InStep.key_le htail hz
        rcases hx z hmem with ⟨-, heq⟩ | hapart
        · exact absurd heq (hxy.trans_le hyz).ne
        · exact hapart

/-- Every emission has a last one of its identity. -/
theorem InStep.exists_mem {xs : List T} (h : InStep key ident xs) {x : T} (hx : x ∈ xs) :
    ∃ y ∈ rewarmDedup ident xs, ident y = ident x ∧ key y = key x := by
  induction xs with
  | nil => exact absurd hx List.not_mem_nil
  | cons z zs ih =>
    obtain ⟨hz, htail⟩ := List.pairwise_cons.mp h
    rcases List.mem_cons.mp hx with rfl | hx
    · obtain ⟨y, ys, hdedup, hid⟩ := exists_rewarmDedup_cons ident x zs
      have hy : y ∈ rewarmDedup ident (x :: zs) := by
        rw [hdedup]
        exact List.mem_cons_self
      refine ⟨y, hy, hid, ?_⟩
      rcases List.mem_cons.mp ((rewarmDedup_sublist ident (x :: zs)).subset hy) with rfl | hmem
      · rfl
      · rcases hz y hmem with ⟨-, heq⟩ | ⟨hne, -⟩
        · exact heq.symm
        · exact absurd hid.symm hne
    · obtain ⟨y, hy, hyx⟩ := ih htail hx
      refine ⟨y, ?_, hyx⟩
      cases zs with
      | nil => exact absurd hx List.not_mem_nil
      | cons w ws =>
        rw [rewarmDedup_cons_cons]
        split_ifs
        · exact hy
        · exact List.mem_cons_of_mem z hy

/-- Points whose times do not go back are in step with their times. -/
theorem inStep_of_sorted {xs : List T} (h : xs.Pairwise fun a b => key a ≤ key b) :
    InStep key key xs :=
  h.imp fun {a b} hle => by
    rcases hle.eq_or_lt with heq | hlt
    · exact .inl ⟨heq, heq⟩
    · exact .inr ⟨hlt.ne, hlt⟩

/-! ## The cut -/

/-- What `rewarm_splice` keeps of the points (lines 951–972): those that are not later than the
    head of the ring, without the last of them if it has the identity of the head. -/
def cut (key : T → ℤ) (ident : T → Id) (ring points : List T) : List T :=
  let older := points.filter fun p => (ring.head?.map key).all fun h => key p ≤ h
  if (ring.head?.map ident).any fun h => older.getLast?.any fun p => ident p = h then older.dropLast
  else older

theorem cut_sublist (key : T → ℤ) (ident : T → Id) (ring points : List T) :
    (cut key ident ring points).Sublist points := by
  unfold cut
  simp only
  split_ifs
  · exact (List.dropLast_sublist _).trans List.filter_sublist
  · exact List.filter_sublist

theorem cut_of_empty {ring : List T} (h : ring.head? = none) (points : List T) :
    cut key ident ring points = points := by
  unfold cut
  simp only [h, Option.map_none, Option.all_none, List.filter_true, Option.any_none,
    Bool.false_eq_true, if_false]

/-- The points that are put in front of a ring, and the ring behind them. -/
theorem rewarmSplice_some (key : T → ℤ) (ident : T → Id) (guard : Series T) (points : List T) :
    ∃ after, rewarmSplice key ident (some guard) points =
        (cut key ident guard.ring points, some after) ∧
      after.ring = cut key ident guard.ring points ++ guard.ring := by
  have hfst : (rewarmSplice key ident (some guard) points).1 =
      cut key ident guard.ring points := by
    have hcut : (points.filter fun p => (guard.ring.head?.map key).all fun h => key p ≤ h) = [] →
        cut key ident guard.ring points = [] := by
      intro hnil
      unfold cut
      simp only [hnil]
      split_ifs <;> rfl
    unfold rewarmSplice
    simp only
    split_ifs with hnil hfilter hlast hdrop
    · exact (hcut (by rw [hnil]; rfl)).symm
    · exact (hcut hfilter).symm
    · rw [cut, if_pos hlast, hdrop]
    · rw [cut, if_pos hlast]
    · rw [cut, if_neg hlast]
  have hkeep : (rewarmSplice key ident (some guard) points).1 = [] →
      (rewarmSplice key ident (some guard) points).2 = some guard := by
    unfold rewarmSplice
    simp only
    split_ifs <;> simp_all
  by_cases hnil : (rewarmSplice key ident (some guard) points).1 = []
  · refine ⟨guard, Prod.ext hfst (hkeep hnil), ?_⟩
    rw [← hfst, hnil, List.nil_append]
  · obtain ⟨guard', hguard, hring⟩ := ring_rewarmSplice hnil
    cases hguard
    obtain ⟨after, hafter, heq⟩ := Option.map_eq_some_iff.mp hring
    exact ⟨after, Prod.ext hfst hafter, by rw [heq, hfst]⟩

/-- Of points apart those stay that are not later than the head, but not the last of them when it
    has the identity of the head. -/
theorem mem_cut_iff {ring points : List T} (h : Apart key ident points) {x : T} :
    x ∈ cut key ident ring points ↔ x ∈ points ∧ ∀ first, ring.head? = some first →
      key x ≤ key first ∧ ¬ (ident x = ident first ∧
        ∀ y ∈ points, key x < key y → key first < key y) := by
  cases hhead : ring.head? with
  | none =>
    rw [cut_of_empty hhead]
    exact (and_iff_left fun first hfirst => by cases hfirst).symm
  | some first =>
    simp only [Option.some.injEq, forall_eq']
    have hmem : ∀ y, y ∈ points.filter (fun p => decide (key p ≤ key first)) ↔
        y ∈ points ∧ key y ≤ key first := fun y => by simp
    unfold cut
    simp only [hhead, Option.map_some, Option.all_some, Option.any_some]
    rcases hlast : (points.filter fun p => decide (key p ≤ key first)).getLast? with _ | last
    · have hnil := List.getLast?_eq_none_iff.mp hlast
      rw [hnil]
      simp only [Option.any_none, Bool.false_eq_true, if_false, List.not_mem_nil, false_iff]
      rintro ⟨hx, hle, -⟩
      have := (hmem x).mpr ⟨hx, hle⟩
      rw [hnil] at this
      exact absurd this List.not_mem_nil
    · obtain ⟨front, hsplit⟩ := List.getLast?_eq_some_iff.mp hlast
      have hapart := h.sublist (List.filter_sublist (p := fun p => decide (key p ≤ key first)))
      rw [hsplit] at hapart hmem ⊢
      have hbefore : ∀ y ∈ front, key y < key last := fun y hy =>
        ((List.pairwise_append.mp hapart).2.2 y hy last (List.mem_singleton_self _)).2
      have hlastle := (hmem last).mp (by simp)
      -- the last one is that no other of them is later than
      have hgreatest : ∀ y ∈ front ++ [last], (∀ z ∈ points, key y < key z → key first < key z) ↔
          y = last := by
        intro y hy
        constructor
        · intro hz
          rcases List.mem_append.mp hy with hy | hy
          · exact absurd (hz last hlastle.1 (hbefore y hy)) (not_lt.mpr hlastle.2)
          · exact List.mem_singleton.mp hy
        · rintro rfl z hz hlt
          by_contra hle
          rcases List.mem_append.mp ((hmem z).mpr ⟨hz, not_lt.mp hle⟩) with hz | hz
          · exact absurd hlt (hbefore z hz).le.not_gt
          · exact absurd hlt (by rw [List.mem_singleton.mp hz]; exact lt_irrefl _)
      rw [List.dropLast_concat, Option.any_some, ← and_assoc, ← hmem]
      by_cases hid : ident last = ident first
      · rw [if_pos (by simpa using hid)]
        constructor
        · intro hx
          refine ⟨List.mem_append_left _ hx, fun ⟨_, hz⟩ => ?_⟩
          have heq := (hgreatest x (List.mem_append_left _ hx)).mp hz
          exact absurd (hbefore x hx) (by rw [heq]; exact lt_irrefl _)
        · rintro ⟨hx, hnot⟩
          rcases List.mem_append.mp hx with hx' | hx'
          · exact hx'
          · have heq := List.mem_singleton.mp hx'
            exact absurd ⟨by rw [heq, hid], (hgreatest x hx).mpr heq⟩ hnot
      · rw [if_neg (by simpa using hid)]
        refine (and_iff_left_of_imp fun hx => ?_).symm
        rintro ⟨hidx, hz⟩
        rw [(hgreatest x hx).mp hz] at hidx
        exact hid hidx

/-! ## In front of a ring -/

/-- The ring is as it was, behind the points that were put in front of it; its times ascend, its
    points have identities of their own, and it holds none of the new ones twice. -/
structure Prepends (key : T → ℤ) (ident : T → Id) (handle : Option (Series T))
    (result : List T × Option (Series T)) : Prop where
  rings : result.2.map Series.ring = handle.map fun guard => result.1 ++ guard.ring
  nothing : handle = none → result.1 = []
  ascending : ∀ after, result.2 = some after → Ascending key after.ring
  distinct : ∀ after, result.2 = some after → (after.ring.map ident).Nodup
  noCopy : ∀ guard, handle = some guard → ∀ p ∈ result.1, p ∉ guard.ring

omit [DecidableEq Id] in
theorem prepends_none (key : T → ℤ) (ident : T → Id) : Prepends key ident none ([], none) where
  rings := rfl
  nothing _ := rfl
  ascending := nofun
  distinct := nofun
  noCopy := nofun

omit [DecidableEq Id] in
theorem prepends_some_iff {guard after : Series T} {points : List T}
    (hring : after.ring = points ++ guard.ring) :
    Prepends key ident (some guard) (points, some after) ↔
      Ascending key (points ++ guard.ring) ∧ ((points ++ guard.ring).map ident).Nodup := by
  constructor
  · intro h
    rw [← hring]
    exact ⟨h.ascending after rfl, h.distinct after rfl⟩
  · rintro ⟨hasc, hnodup⟩
    refine ⟨congrArg some hring, nofun, ?_, ?_, ?_⟩
    · rintro _ ⟨⟩
      rwa [hring]
    · rintro _ ⟨⟩
      rwa [hring]
    · rintro _ ⟨⟩ p hp hmem
      exact absurd ((List.pairwise_append.mp hasc).2.2 p hp p hmem) (lt_irrefl _)

omit [DecidableEq Id] in
/-- A ring that is left as it is. -/
theorem prepends_nothing_iff {handle : Option (Series T)}
    (hasc : ∀ guard, handle = some guard → Ascending key guard.ring) :
    Prepends key ident handle ([], handle) ↔
      ∀ guard, handle = some guard → (guard.ring.map ident).Nodup := by
  cases handle with
  | none => exact iff_of_true (prepends_none key ident) nofun
  | some guard =>
    rw [prepends_some_iff (List.nil_append _).symm, List.nil_append]
    exact (and_iff_right (hasc guard rfl)).trans
      ⟨fun h guard' heq => Option.some.inj heq ▸ h, fun h => h guard rfl⟩

/-- `rewarm_dedup` and `rewarm_splice` for the emissions of a fold, as every kind calls them. -/
def spliceFold (key : T → ℤ) (ident : T → Id) (handle : Option (Series T)) (emissions : List T) :
    List T × Option (Series T) :=
  let rebuilt := rewarmDedup ident emissions
  if rebuilt = [] then ([], handle) else rewarmSplice key ident handle rebuilt

theorem spliceFold_eq (key : T → ℤ) (ident : T → Id) (handle : Option (Series T))
    (emissions : List T) :
    spliceFold key ident handle emissions =
      rewarmSplice key ident handle (rewarmDedup ident emissions) := by
  unfold spliceFold
  simp only
  split_ifs with hnil
  · rw [hnil]
    cases handle <;> rfl
  · rfl

/-- The stamps (identity and time) of points that go in front of a ring: each that is not later
    than the head of the ring is earlier and has an identity that is not in the ring, or is the
    last of them and has the identity of the head. -/
def StampsFit (key : T → ℤ) (ident : T → Id) (ring : List T) (stamps : List (Id × ℤ)) : Prop :=
  ∀ first, ring.head? = some first → ∀ x ∈ stamps, x.2 ≤ key first →
    (x.1 = ident first ∧ ∀ y ∈ stamps, x.2 < y.2 → key first < y.2) ∨
      x.2 < key first ∧ ∀ p ∈ ring, ident p ≠ x.1

omit [DecidableEq Id] in
theorem stampsFit_congr {ring : List T} {stamps stamps' : List (Id × ℤ)}
    (h : ∀ x, x ∈ stamps ↔ x ∈ stamps') :
    StampsFit key ident ring stamps ↔ StampsFit key ident ring stamps' := by
  simp only [StampsFit, h]

/-- No point of a ring is earlier than its head. -/
theorem head_le {ring : List T} (h : Ascending key ring) {first p : T}
    (hfirst : ring.head? = some first) (hp : p ∈ ring) : key first ≤ key p := by
  obtain ⟨rest, rfl⟩ := List.head?_eq_some_iff.mp hfirst
  rcases List.mem_cons.mp hp with rfl | hp
  · exact le_rfl
  · exact ((List.pairwise_cons.mp h).1 p hp).le

omit [DecidableEq Id] in
/-- Points apart and a ring, one behind the other. -/
theorem beside_iff {points ring : List T} (hpoints : Apart key ident points)
    (hring : Ascending key ring) :
    Ascending key (points ++ ring) ∧ (points.map ident ++ ring.map ident).Nodup ↔
      (ring.map ident).Nodup ∧
        ∀ x ∈ points, ∀ p ∈ ring, key x < key p ∧ ident p ≠ ident x := by
  constructor
  · rintro ⟨hkeys, hids⟩
    obtain ⟨-, hnodup, hdisjoint⟩ := List.nodup_append.mp hids
    refine ⟨hnodup, fun x hx p hp => ⟨(List.pairwise_append.mp hkeys).2.2 x hx p hp, ?_⟩⟩
    exact (hdisjoint _ (List.mem_map_of_mem hx) _ (List.mem_map_of_mem hp)).symm
  · rintro ⟨hnodup, hall⟩
    refine ⟨List.pairwise_append.mpr ⟨hpoints.imp And.right, hring, fun x hx p hp =>
      (hall x hx p hp).1⟩, List.nodup_append.mpr ⟨?_, hnodup, ?_⟩⟩
    · exact List.pairwise_map.mpr (hpoints.imp And.left)
    · intro i hi j hj
      obtain ⟨x, hx, rfl⟩ := List.mem_map.mp hi
      obtain ⟨p, hp, rfl⟩ := List.mem_map.mp hj
      exact (hall x hx p hp).2.symm

/-- **Main lemma.** Emissions in step with their times are put in front of a ring as they should
    just when the identities of the ring are distinct and their stamps fit. -/
theorem prepends_iff_of_inStep {handle : Option (Series T)}
    (hasc : ∀ guard, handle = some guard → Ascending key guard.ring) {emissions : List T}
    (h : InStep key ident emissions) :
    Prepends key ident handle (spliceFold key ident handle emissions) ↔
      ∀ guard, handle = some guard → (guard.ring.map ident).Nodup ∧
        StampsFit key ident guard.ring (emissions.map fun p => (ident p, key p)) := by
  rw [spliceFold_eq]
  cases handle with
  | none => exact iff_of_true (prepends_none key ident) nofun
  | some guard =>
    have hring := hasc guard rfl
    have hapart := h.apart
    have hstamps : ∀ x, x ∈ emissions.map (fun p => (ident p, key p)) ↔
        x ∈ (rewarmDedup ident emissions).map fun p => (ident p, key p) := by
      intro x
      constructor
      · intro hx
        obtain ⟨p, hp, rfl⟩ := List.mem_map.mp hx
        obtain ⟨q, hq, hid, hkey⟩ := h.exists_mem hp
        exact List.mem_map.mpr ⟨q, hq, by rw [hid, hkey]⟩
      · intro hx
        obtain ⟨p, hp, rfl⟩ := List.mem_map.mp hx
        exact List.mem_map_of_mem ((rewarmDedup_sublist ident emissions).subset hp)
    obtain ⟨after, hsplice, hafter⟩ :=
      rewarmSplice_some key ident guard (rewarmDedup ident emissions)
    rw [hsplice, prepends_some_iff hafter]
    simp only [Option.some.injEq, forall_eq']
    rw [stampsFit_congr hstamps, List.map_append]
    rw [beside_iff (hapart.sublist (cut_sublist _ _ _ _)) hring]
    refine and_congr_right fun _ => ?_
    constructor
    · intro hall first hfirst x hx hle
      obtain ⟨p, hp, rfl⟩ := List.mem_map.mp hx
      have hhead := List.mem_of_head? hfirst
      by_cases hlast : ident p = ident first ∧
          ∀ y ∈ rewarmDedup ident emissions, key p < key y → key first < key y
      · refine .inl ⟨hlast.1, fun y hy => ?_⟩
        obtain ⟨q, hq, rfl⟩ := List.mem_map.mp hy
        exact hlast.2 q hq
      · have hmem := (mem_cut_iff hapart).mpr ⟨hp, fun f hf => by
          rw [hfirst] at hf
          cases hf
          exact ⟨hle, hlast⟩⟩
        exact .inr ⟨(hall p hmem first hhead).1, fun q hq => (hall p hmem q hq).2⟩
    · intro hfit x hx p hp
      obtain ⟨first, hfirst⟩ : ∃ first, guard.ring.head? = some first :=
        Option.ne_none_iff_exists'.mp fun hnone => by
          rw [List.head?_eq_none_iff.mp hnone] at hp
          exact absurd hp List.not_mem_nil
      obtain ⟨hmem, hkeep⟩ := (mem_cut_iff hapart).mp hx
      obtain ⟨hle, hnot⟩ := hkeep first hfirst
      rcases hfit first hfirst _ (List.mem_map_of_mem hmem) hle with ⟨hid, hlast⟩ | ⟨hlt, hids⟩
      · refine absurd ⟨hid, fun y hy => ?_⟩ hnot
        exact hlast _ (List.mem_map_of_mem (f := fun p => (ident p, key p)) hy)
      · exact ⟨hlt.trans_le (head_le hring hfirst hp), hids p hp⟩

/-- Where the time is the identity, emissions whose times do not go back are always put in front
    of a ring as they should. -/
theorem prepends_of_sorted {handle : Option (Series T)}
    (hasc : ∀ guard, handle = some guard → Ascending key guard.ring) {emissions : List T}
    (h : emissions.Pairwise fun a b => key a ≤ key b) :
    Prepends key key handle (spliceFold key key handle emissions) := by
  refine (prepends_iff_of_inStep hasc (inStep_of_sorted h)).mpr fun guard hguard => ?_
  have hring := hasc guard hguard
  refine ⟨List.pairwise_map.mpr (hring.imp fun hlt => hlt.ne), fun first hfirst x hx hle => ?_⟩
  obtain ⟨q, -, rfl⟩ := List.mem_map.mp hx
  rcases hle.eq_or_lt with heq | hlt
  · refine .inl ⟨heq, fun y hy hlt => ?_⟩
    rwa [← heq]
  · exact .inr ⟨hlt, fun p hp => (hlt.trans_le (head_le hring hfirst hp)).ne'⟩

/-- Where the time is the identity, emissions in any order are put in front of a ring as they
    should just when those that are not later than its head, taken together while they repeat,
    ascend. -/
theorem prepends_iff_of_key {handle : Option (Series T)}
    (hasc : ∀ guard, handle = some guard → Ascending key guard.ring) (emissions : List T) :
    Prepends key key handle (spliceFold key key handle emissions) ↔
      ∀ guard, handle = some guard →
        (((emissions.map key).destutter (· ≠ ·)).filter fun t =>
          (guard.ring.head?.map key).all fun h => t ≤ h).Pairwise (· < ·) := by
  rw [spliceFold_eq]
  cases handle with
  | none => exact iff_of_true (prepends_none key key) nofun
  | some guard =>
    have hring := hasc guard rfl
    obtain ⟨after, hsplice, hafter⟩ :=
      rewarmSplice_some key key guard (rewarmDedup key emissions)
    simp only [Option.some.injEq, forall_eq']
    rw [hsplice, prepends_some_iff hafter, ← map_rewarmDedup, List.filter_map,
      List.pairwise_map]
    have hnodup : ∀ {xs : List T}, Ascending key xs → (xs.map key).Nodup := fun hxs =>
      List.pairwise_map.mpr (hxs.imp fun hlt => hlt.ne)
    rw [and_iff_left_of_imp hnodup]
    show _ ↔ Ascending key _
    cases hhead : guard.ring.head? with
    | none =>
      rw [cut_of_empty hhead, List.head?_eq_none_iff.mp hhead, List.append_nil]
      simp [Function.comp_def]
    | some first =>
      have hfirst : ∀ p ∈ guard.ring, key first ≤ key p := fun _ => head_le hring hhead
      have hmem : first ∈ guard.ring := List.mem_of_head? hhead
      have hle : ∀ p ∈ (rewarmDedup key emissions).filter fun p => decide (key p ≤ key first),
          key p ≤ key first := fun p hp => by simpa using (List.mem_filter.mp hp).2
      simp only [Option.map_some, Option.all_some, Function.comp_def]
      unfold cut
      simp only [hhead, Option.map_some, Option.all_some, Option.any_some]
      rcases hlast : ((rewarmDedup key emissions).filter fun p =>
          decide (key p ≤ key first)).getLast? with _ | last
      · have hnil := List.getLast?_eq_none_iff.mp hlast
        rw [hnil]
        simp only [Option.any_none, Bool.false_eq_true, if_false, List.nil_append]
        exact iff_of_true hring List.Pairwise.nil
      · obtain ⟨front, hsplit⟩ := List.getLast?_eq_some_iff.mp hlast
        rw [hsplit] at hle ⊢
        rw [List.dropLast_concat, Option.any_some]
        by_cases hid : key last = key first
        · rw [if_pos (by simpa using hid)]
          constructor
          · intro hasc
            obtain ⟨hfront, -, hlt⟩ := List.pairwise_append.mp hasc
            refine List.pairwise_append.mpr
              ⟨hfront, List.pairwise_singleton _ _, fun a ha b hb => ?_⟩
            rw [List.mem_singleton.mp hb, hid]
            exact hlt a ha first hmem
          · intro hasc
            obtain ⟨hfront, -, hlt⟩ := List.pairwise_append.mp hasc
            refine List.pairwise_append.mpr ⟨hfront, hring, fun a ha p hp => ?_⟩
            have := hlt a ha last (List.mem_singleton_self _)
            rw [hid] at this
            exact this.trans_le (hfirst p hp)
        · rw [if_neg (by simpa using hid)]
          constructor
          · intro hasc
            exact (List.pairwise_append.mp hasc).1
          · intro hasc
            refine List.pairwise_append.mpr ⟨hasc, hring, fun a ha p hp => ?_⟩
            have hlt : key last < key first := lt_of_le_of_ne (hle last (by simp)) hid
            have hmax : key a ≤ key last := le_getLast hasc (by simp) ha
            exact (hmax.trans_lt hlt).trans_le (hfirst p hp)

end Digdigdig3.Rewarm
