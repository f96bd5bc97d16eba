import Mathlib.Tactic

/-!
# The REST cache

`RestCache` (`crates/digdigdig3-station/src/rest_cache.rs`) holds values with a time to live, and
tasks share it. `get_or_fetch` lets go of the cache while its loader runs, so that other tasks,
and other calls on the key, come between its lookup and its insertion; so they do between the
entries that a sweep comes to. An `Instant` is a number of nanoseconds, and a `DashMap` is a map.

Results:
* `step_inner`: what a step leaves under a key.
* `get_eq_served`: what the cache answers is a matter of the last write of the key; the sweeps
  make no difference.
* `fetched_since`: a load that ends was begun.
* `restCache_serves`: both, over any interleaving, and what a sweep removes.
-/

namespace Digdigdig3.Rest

/-! ## Model -/

/-- `Entry` (lines 54–59). -/
structure Entry (V : Type*) where
  value : V
  insertedAt : ℕ
  ttl : ℕ

/-- `Entry::is_fresh` (lines 61–65): `elapsed` is zero before the instant. -/
def Entry.isFresh {V : Type*} (e : Entry V) (now : ℕ) : Bool := decide (now - e.insertedAt < e.ttl)

/-- `RestCache` (lines 73–80). -/
structure RestCache (K V : Type*) [LinearOrder K] where
  inner : Std.ExtTreeMap K (Entry V)
  defaultTtl : ℕ

variable {K V E : Type*} [LinearOrder K]

local instance transCmp_compare : Std.TransCmp (compare : K → K → Ordering) := inferInstance

namespace RestCache

/-- `RestCache::new` (lines 88–93). -/
def new (K V : Type*) [LinearOrder K] (defaultTtl : ℕ) : RestCache K V := ⟨∅, defaultTtl⟩

variable (c : RestCache K V)

/-- `RestCache::get` (lines 96–103). -/
def get (key : K) (now : ℕ) : Option V :=
  match c.inner[key]? with
  | some entry => if entry.isFresh now then some entry.value else none
  | none => none

/-- `RestCache::insert_with_ttl` (lines 111–120). -/
def insertWithTtl (key : K) (value : V) (ttl now : ℕ) : RestCache K V :=
  { c with inner := c.inner.insert key { value := value, insertedAt := now, ttl := ttl } }

/-- `RestCache::insert` (lines 106–108). -/
def insert (key : K) (value : V) (now : ℕ) : RestCache K V :=
  c.insertWithTtl key value c.defaultTtl now

/-- `RestCache::get_or_fetch` behind its await (lines 136–138). -/
def insertLoaded (key : K) (result : Except E V) (now : ℕ) : RestCache K V :=
  match result with
  | .ok value => c.insert key value now
  | .error _ => c

/-- `RestCache::invalidate` (lines 142–144). -/
def invalidate (key : K) : RestCache K V := { c with inner := c.inner.erase key }

/-- `RestCache::clear` (lines 147–149). -/
def clear : RestCache K V := { c with inner := ∅ }

/-- `RestCache::len` (lines 152–154). -/
def len : ℕ := c.inner.size

/-- What `retain` does when it comes to the key (line 167). -/
def sweepEntry (key : K) (now : ℕ) : RestCache K V :=
  match c.inner[key]? with
  | some entry => if entry.isFresh now then c else c.invalidate key
  | none => c

/-- `RestCache::sweep_expired` (lines 165–169) when nothing comes between. -/
def sweepExpired (now : ℕ) : RestCache K V × ℕ :=
  let before := c.inner.size
  let inner := c.inner.filter fun _ entry => entry.isFresh now
  ({ c with inner := inner }, before - inner.size)

end RestCache

/-- What tasks do with the cache; a call of `get_or_fetch` is a `fetch`, and if that finds nothing
    a `loaded` when its loader is done. A sweep comes to one key at a time. -/
inductive Act (K V E : Type*)
  | get (key : K)
  | insert (key : K) (value : V)
  | insertWithTtl (key : K) (value : V) (ttl : ℕ)
  | fetch (call : ℕ) (key : K)
  | loaded (call : ℕ) (key : K) (result : Except E V)
  | invalidate (key : K)
  | clear
  | sweepEntry (key : K)

/-- The cache, and the calls whose loader runs. -/
structure Tasks (K V : Type*) [LinearOrder K] where
  cache : RestCache K V
  loading : List (ℕ × K)

/-- One step at the time `now`; a call that is running is not begun again, and only such a call
    ends. -/
def Tasks.step (s : Tasks K V) (now : ℕ) : Act K V E → Option (Tasks K V)
  | .get _ => some s
  | .insert key value => some { s with cache := s.cache.insert key value now }
  | .insertWithTtl key value ttl => some { s with cache := s.cache.insertWithTtl key value ttl now }
  | .fetch call key =>
    if call ∈ s.loading.map Prod.fst then none
    else
      match s.cache.get key now with
      | some _ => some s
      | none => some { s with loading := (call, key) :: s.loading }
  | .loaded call key result =>
    if (call, key) ∈ s.loading then
      some { cache := s.cache.insertLoaded key result now, loading := s.loading.erase (call, key) }
    else none
  | .invalidate key => some { s with cache := s.cache.invalidate key }
  | .clear => some { s with cache := s.cache.clear }
  | .sweepEntry key => some { s with cache := s.cache.sweepEntry key now }

/-- The steps of a history, each with its time. -/
def Tasks.after (defaultTtl : ℕ) (h : List (ℕ × Act K V E)) : Option (Tasks K V) :=
  h.foldlM (fun s e => s.step e.1 e.2) { cache := RestCache.new K V defaultTtl, loading := [] }

/-! ## Specification -/

variable (defaultTtl : ℕ)

/-- What an event leaves under the key: `some none` when it takes it out, and `none` when it does
    not touch it. A sweep touches nothing. -/
def writes (key : K) : ℕ × Act K V E → Option (Option (Entry V))
  | (now, .insert k value) => if k = key then some (some ⟨value, now, defaultTtl⟩) else none
  | (now, .insertWithTtl k value ttl) => if k = key then some (some ⟨value, now, ttl⟩) else none
  | (now, .loaded _ k (.ok value)) =>
    if k = key then some (some ⟨value, now, defaultTtl⟩) else none
  | (_, .invalidate k) => if k = key then some none else none
  | (_, .clear) => some none
  | _ => none

/-- The entry that the last write of the key leaves. -/
def lastEntry (h : List (ℕ × Act K V E)) (key : K) : Option (Entry V) :=
  (h.filterMap (writes defaultTtl key)).getLast?.join

/-- The value of the last write of the key, for as long as it lives. -/
def served (h : List (ℕ × Act K V E)) (key : K) (now : ℕ) : Option V :=
  (lastEntry defaultTtl h key).bind fun e => if e.isFresh now then some e.value else none

variable {defaultTtl}

/-! ## One step -/

/-- What has expired stays so. -/
theorem Entry.isFresh_antitone {e : Entry V} {now later : ℕ} (hle : now ≤ later)
    (h : e.isFresh now = false) : e.isFresh later = false := by
  rw [Entry.isFresh, decide_eq_false_iff_not] at h ⊢
  omega

theorem get_eq_bind (c : RestCache K V) (key : K) (now : ℕ) :
    c.get key now = c.inner[key]?.bind fun e => if e.isFresh now then some e.value else none := by
  rw [RestCache.get]
  cases c.inner[key]? <;> rfl

theorem lastEntry_concat (h : List (ℕ × Act K V E)) (e : ℕ × Act K V E) (key : K) :
    lastEntry defaultTtl (h ++ [e]) key =
      (writes defaultTtl key e).getD (lastEntry defaultTtl h key) := by
  rw [lastEntry, List.filterMap_append]
  cases hw : writes defaultTtl key e with
  | none =>
    rw [List.filterMap_cons_none hw, List.filterMap_nil, List.append_nil]
    rfl
  | some w =>
    rw [List.filterMap_cons_some hw, List.filterMap_nil, List.getLast?_concat]
    rfl

theorem getElem?_insertWithTtl (c : RestCache K V) (k : K) (value : V) (ttl now : ℕ) (key : K) :
    (c.insertWithTtl k value ttl now).inner[key]? =
      if k = key then some ⟨value, now, ttl⟩ else c.inner[key]? := by
  simp [RestCache.insertWithTtl, Std.ExtTreeMap.getElem?_insert]

/-- A visit keeps what is fresh. -/
theorem getElem?_sweepEntry (c : RestCache K V) (k : K) (now : ℕ) (key : K) :
    (c.sweepEntry k now).inner[key]? =
      if k = key then c.inner[key]?.filter (fun e => e.isFresh now) else c.inner[key]? := by
  rw [RestCache.sweepEntry]
  split_ifs with hkey
  · subst hkey
    rcases he : c.inner[k]? with _ | e
    · simp [he]
    · cases hfresh : e.isFresh now <;> simp [he, hfresh, RestCache.invalidate, Option.filter]
  · rcases c.inner[k]? with _ | e
    · rfl
    · cases hfresh : e.isFresh now
      · simp [hfresh, RestCache.invalidate, Std.ExtTreeMap.getElem?_erase, hkey]
      · simp [hfresh]

theorem sweepEntry_defaultTtl (c : RestCache K V) (k : K) (now : ℕ) :
    (c.sweepEntry k now).defaultTtl = c.defaultTtl := by
  rw [RestCache.sweepEntry]
  split
  · split_ifs <;> rfl
  · rfl

/-- The default is that of `new`. -/
theorem step_defaultTtl {s s' : Tasks K V} {now : ℕ} {a : Act K V E}
    (hstep : s.step now a = some s') : s'.cache.defaultTtl = s.cache.defaultTtl := by
  cases a with
  | fetch call key =>
    simp only [Tasks.step] at hstep
    split_ifs at hstep
    split at hstep <;> cases hstep <;> rfl
  | loaded call key result =>
    simp only [Tasks.step] at hstep
    split_ifs at hstep
    cases hstep
    cases result <;> rfl
  | sweepEntry key =>
    cases hstep
    exact sweepEntry_defaultTtl s.cache key now
  | _ => cases hstep; rfl

/-- A step leaves under the key what it writes, and only a sweep takes out what it does not
    write, if that has expired. -/
theorem step_inner {s s' : Tasks K V} {now : ℕ} {a : Act K V E}
    (httl : s.cache.defaultTtl = defaultTtl) (hstep : s.step now a = some s') (key : K) :
    s'.cache.inner[key]? = (writes defaultTtl key (now, a)).getD s.cache.inner[key]? ∨
      writes defaultTtl key (now, a) = none ∧ s'.cache.inner[key]? = none ∧
        ∀ e, s.cache.inner[key]? = some e → e.isFresh now = false := by
  cases a with
  | get k =>
    cases hstep
    exact Or.inl rfl
  | insert k value =>
    cases hstep
    left
    show (s.cache.insertWithTtl k value s.cache.defaultTtl now).inner[key]? = _
    rw [getElem?_insertWithTtl, httl, writes]
    split_ifs <;> rfl
  | insertWithTtl k value ttl =>
    cases hstep
    left
    show (s.cache.insertWithTtl k value ttl now).inner[key]? = _
    rw [getElem?_insertWithTtl, writes]
    split_ifs <;> rfl
  | fetch call k =>
    simp only [Tasks.step] at hstep
    split_ifs at hstep
    split at hstep <;> cases hstep <;> exact Or.inl rfl
  | loaded call k result =>
    simp only [Tasks.step] at hstep
    split_ifs at hstep
    cases hstep
    left
    cases result with
    | error e => rfl
    | ok value =>
      show (s.cache.insertWithTtl k value s.cache.defaultTtl now).inner[key]? = _
      rw [getElem?_insertWithTtl, httl, writes]
      split_ifs <;> rfl
  | invalidate k =>
    cases hstep
    left
    simp only [RestCache.invalidate, Std.ExtTreeMap.getElem?_erase, writes]
    split_ifs with heq heq' heq'
    all_goals simp_all
  | clear =>
    cases hstep
    left
    simp [RestCache.clear, writes]
  | sweepEntry k =>
    cases hstep
    show (s.cache.sweepEntry k now).inner[key]? = s.cache.inner[key]? ∨
      none = none ∧ (s.cache.sweepEntry k now).inner[key]? = none ∧ _
    rw [getElem?_sweepEntry]
    split_ifs with hkey
    · rcases s.cache.inner[key]? with _ | e
      · exact Or.inl rfl
      · cases hfresh : e.isFresh now with
        | true => exact Or.inl (Option.filter_some_pos hfresh)
        | false =>
          refine Or.inr ⟨rfl, Option.filter_some_neg (by simpa using hfresh), fun e' he => ?_⟩
          rwa [← Option.some.inj he]
    · exact Or.inl rfl

/-! ## A run -/

variable {h : List (ℕ × Act K V E)} {s : Tasks K V}

theorem after_concat (h : List (ℕ × Act K V E)) (e : ℕ × Act K V E) :
    Tasks.after defaultTtl (h ++ [e]) =
      (Tasks.after defaultTtl h).bind fun s => s.step e.1 e.2 := by
  rw [Tasks.after, List.foldlM_append, Tasks.after]
  simp

/-- The key holds its last write, or nothing when that has expired. -/
structure Keeps (defaultTtl : ℕ) (h : List (ℕ × Act K V E)) (s : Tasks K V) : Prop where
  ttl_eq : s.cache.defaultTtl = defaultTtl
  entry : ∀ key, s.cache.inner[key]? = lastEntry defaultTtl h key ∨
    s.cache.inner[key]? = none ∧
      ∀ e, lastEntry defaultTtl h key = some e → ∃ x ∈ h, e.isFresh x.1 = false

/-- **Step lemma.** -/
theorem Keeps.step {s' : Tasks K V} {now : ℕ} {a : Act K V E}
    (hk : Keeps defaultTtl h s) (hstep : s.step now a = some s') :
    Keeps defaultTtl (h ++ [(now, a)]) s' := by
  refine ⟨(step_defaultTtl hstep).trans hk.ttl_eq, fun key => ?_⟩
  rw [lastEntry_concat]
  rcases step_inner hk.ttl_eq hstep key with hwrite | ⟨hnone, hout, hexpired⟩
  · rw [hwrite]
    cases hw : writes defaultTtl key (now, a) with
    | some w => exact Or.inl rfl
    | none =>
      rcases hk.entry key with heq | ⟨hout, hexpired⟩
      · exact Or.inl heq
      · refine Or.inr ⟨hout, fun e he => ?_⟩
        obtain ⟨x, hx, hlate⟩ := hexpired e he
        exact ⟨x, List.mem_append_left _ hx, hlate⟩
  · rw [hnone]
    refine Or.inr ⟨hout, fun e he => ?_⟩
    rcases hk.entry key with heq | ⟨-, hbefore⟩
    · exact ⟨(now, a), by simp, hexpired e (heq.trans he)⟩
    · obtain ⟨x, hx, hlate⟩ := hbefore e he
      exact ⟨x, List.mem_append_left _ hx, hlate⟩

/-- **Run lemma.** -/
theorem keeps_after (hrun : Tasks.after defaultTtl h = some s) : Keeps defaultTtl h s := by
  induction h using List.reverseRecOn generalizing s with
  | nil =>
    cases hrun
    exact ⟨rfl, fun key => Or.inl (by simp [RestCache.new, lastEntry])⟩
  | append_singleton h e ih =>
    rw [after_concat] at hrun
    obtain ⟨s₀, hs₀, hstep⟩ := Option.bind_eq_some_iff.mp hrun
    exact (ih hs₀).step hstep

/-- The cache answers with the last write, and the sweeps make no difference. -/
theorem get_eq_served (hrun : Tasks.after defaultTtl h = some s) {now : ℕ}
    (hnow : ∀ e ∈ h, e.1 ≤ now) (key : K) :
    s.cache.get key now = served defaultTtl h key now := by
  rw [get_eq_bind, served]
  rcases (keeps_after hrun).entry key with heq | ⟨hout, hexpired⟩
  · rw [heq]
  · rw [hout, Option.bind_none]
    cases he : lastEntry defaultTtl h key with
    | none => rfl
    | some e =>
      obtain ⟨x, hx, hlate⟩ := hexpired e he
      have hnever := Entry.isFresh_antitone (hnow x hx) hlate
      simp [hnever]

/-- An event of a longer history is its last, or one of those before. -/
theorem eq_or_before_of_concat {α : Type*} {h pre post : List α} {e x : α}
    (heq : h ++ [e] = pre ++ x :: post) :
    e = x ∨ ∃ front, h = pre ++ x :: front ∧ post = front ++ [e] := by
  rcases List.eq_nil_or_concat post with rfl | ⟨front, y, rfl⟩
  · exact Or.inl (List.append_singleton_inj.mp heq).2
  · rw [List.concat_eq_append, ← List.cons_append, ← List.append_assoc] at heq
    obtain ⟨hbefore, rfl⟩ := List.append_singleton_inj.mp heq
    exact Or.inr ⟨front, hbefore, List.concat_eq_append⟩

/-- The last write of the key, pointed at. -/
theorem served_eq_some_iff {key : K} {now : ℕ} {v : V} :
    served defaultTtl h key now = some v ↔
      ∃ pre e post entry, h = pre ++ e :: post ∧ writes defaultTtl key e = some (some entry) ∧
        (∀ x ∈ post, writes defaultTtl key x = none) ∧ entry.value = v ∧
        entry.isFresh now = true := by
  have hlast : served defaultTtl h key now = some v ↔ ∃ entry,
      lastEntry defaultTtl h key = some entry ∧ entry.value = v ∧ entry.isFresh now = true := by
    rw [served, Option.bind_eq_some_iff]
    refine exists_congr fun entry => and_congr_right fun _ => ?_
    cases entry.isFresh now <;> simp
  rw [hlast]
  clear hlast
  induction h using List.reverseRecOn with
  | nil => simp [lastEntry]
  | append_singleton h e ih =>
    rw [lastEntry_concat]
    cases hw : writes defaultTtl key e with
    | some w =>
      constructor
      · rintro ⟨entry, hentry, hvalue, hfresh⟩
        have hw' : w = some entry := hentry
        exact ⟨h, e, [], entry, rfl, by rw [hw, hw'], by simp, hvalue, hfresh⟩
      · rintro ⟨pre, e', post, entry, heq, hwrite, hpost, hvalue, hfresh⟩
        rcases eq_or_before_of_concat heq with rfl | ⟨front, -, rfl⟩
        · rw [hw] at hwrite
          exact ⟨entry, Option.some.inj hwrite, hvalue, hfresh⟩
        · have hnone := hpost e (by simp)
          rw [hw] at hnone
          cases hnone
    | none =>
      rw [Option.getD_none]
      refine ih.trans ?_
      constructor
      · rintro ⟨pre, e', post, entry, rfl, hwrite, hpost, hvalue, hfresh⟩
        refine ⟨pre, e', post ++ [e], entry, by simp, hwrite, fun x hx => ?_, hvalue, hfresh⟩
        rcases List.mem_append.mp hx with hx | hx
        · exact hpost x hx
        · rwa [List.mem_singleton.mp hx]
      · rintro ⟨pre, e', post, entry, heq, hwrite, hpost, hvalue, hfresh⟩
        rcases eq_or_before_of_concat heq with rfl | ⟨front, hbefore, rfl⟩
        · rw [hw] at hwrite
          cases hwrite
        · exact ⟨pre, e', front, entry, hbefore, hwrite,
            fun y hy => hpost y (by simp [hy]), hvalue, hfresh⟩

/-! ## Loads -/

/-- A call comes to run only by being begun. -/
theorem step_loading {s s' : Tasks K V} {now : ℕ} {a : Act K V E}
    (hstep : s.step now a = some s') {c : ℕ × K} (hc : c ∈ s'.loading) :
    c ∈ s.loading ∨ a = .fetch c.1 c.2 := by
  cases a with
  | fetch call key =>
    simp only [Tasks.step] at hstep
    split_ifs at hstep
    split at hstep
    · cases hstep
      exact Or.inl hc
    · cases hstep
      rcases List.mem_cons.mp hc with rfl | hc
      · exact Or.inr rfl
      · exact Or.inl hc
  | loaded call key result =>
    simp only [Tasks.step] at hstep
    split_ifs at hstep
    cases hstep
    exact Or.inl (List.mem_of_mem_erase hc)
  | _ =>
    cases hstep
    exact Or.inl hc

/-- A call that runs was running before, or was begun since. -/
theorem begun_of_loading {pre post : List (ℕ × Act K V E)} {s₀ s : Tasks K V}
    (hpre : Tasks.after defaultTtl pre = some s₀)
    (hrun : Tasks.after defaultTtl (pre ++ post) = some s) {c : ℕ × K} (hc : c ∈ s.loading) :
    c ∈ s₀.loading ∨ ∃ t, (t, Act.fetch c.1 c.2) ∈ post := by
  induction post using List.reverseRecOn generalizing s with
  | nil =>
    rw [List.append_nil, hpre] at hrun
    cases hrun
    exact Or.inl hc
  | append_singleton post e ih =>
    rw [← List.append_assoc, after_concat] at hrun
    obtain ⟨s₁, hs₁, hstep⟩ := Option.bind_eq_some_iff.mp hrun
    rcases step_loading hstep hc with hc | hfetch
    · rcases ih hs₁ hc with hold | ⟨t, ht⟩
      · exact Or.inl hold
      · exact Or.inr ⟨t, List.mem_append_left _ ht⟩
    · exact Or.inr ⟨e.1, by simp [← hfetch]⟩

theorem exists_after_of_append {pre post : List (ℕ × Act K V E)} {s : Tasks K V}
    (hrun : Tasks.after defaultTtl (pre ++ post) = some s) :
    ∃ s₀, Tasks.after defaultTtl pre = some s₀ := by
  induction post using List.reverseRecOn generalizing s with
  | nil => exact ⟨s, by rwa [List.append_nil] at hrun⟩
  | append_singleton post e ih =>
    rw [← List.append_assoc, after_concat] at hrun
    obtain ⟨s₁, hs₁, -⟩ := Option.bind_eq_some_iff.mp hrun
    exact ih hs₁

/-- A load that ends after a moment at which no call on the key ran was begun after it. -/
theorem fetched_since {pre mid rest : List (ℕ × Act K V E)} {s₀ s : Tasks K V} {t call : ℕ}
    {key : K} {result : Except E V} (hpre : Tasks.after defaultTtl pre = some s₀)
    (hidle : ∀ c ∈ s₀.loading, c.2 ≠ key)
    (hrun : Tasks.after defaultTtl (pre ++ (mid ++ (t, .loaded call key result) :: rest)) =
      some s) :
    ∃ t₀, (t₀, Act.fetch call key) ∈ mid := by
  have hsplit : pre ++ (mid ++ (t, Act.loaded call key result) :: rest) =
      (pre ++ mid ++ [(t, .loaded call key result)]) ++ rest := by simp
  rw [hsplit] at hrun
  obtain ⟨s₂, hs₂⟩ := exists_after_of_append hrun
  rw [after_concat] at hs₂
  obtain ⟨s₁, hs₁, hstep⟩ := Option.bind_eq_some_iff.mp hs₂
  simp only [Tasks.step] at hstep
  split_ifs at hstep with hloading
  rcases begun_of_loading hpre hs₁ hloading with hold | hbegun
  · exact absurd rfl (hidle _ hold)
  · exact hbegun

/-! ## Sweeps -/

theorem getElem?_sweepExpired (c : RestCache K V) (now : ℕ) (key : K) :
    (c.sweepExpired now).1.inner[key]? = c.inner[key]?.filter fun e => e.isFresh now := by
  simp [RestCache.sweepExpired]

/-- A sweep takes out what is expired, and counts it. -/
theorem sweepExpired_spec (c : RestCache K V) (now : ℕ) :
    (∀ key, key ∈ (c.sweepExpired now).1.inner ↔ ∃ v, c.get key now = some v) ∧
      (c.sweepExpired now).1.len + (c.sweepExpired now).2 = c.len := by
  constructor
  · intro key
    rw [Std.ExtTreeMap.mem_iff_isSome_getElem?, get_eq_bind, getElem?_sweepExpired]
    rcases c.inner[key]? with _ | e
    · simp
    · cases hfresh : e.isFresh now <;> simp [hfresh, Option.filter]
  · have hle : (c.sweepExpired now).1.inner.size ≤ c.inner.size :=
      Std.ExtTreeMap.size_filter_le_size
    show (c.sweepExpired now).1.inner.size + (c.inner.size - (c.sweepExpired now).1.inner.size) =
      c.inner.size
    omega

theorem getElem?_visits (c : RestCache K V) (now : ℕ) (keys : List K) (key : K) :
    (keys.foldl (fun c k => c.sweepEntry k now) c).inner[key]? =
      if key ∈ keys then c.inner[key]?.filter (fun e => e.isFresh now) else c.inner[key]? := by
  induction keys generalizing c with
  | nil => simp
  | cons k keys ih =>
    rw [List.foldl_cons, ih, getElem?_sweepEntry]
    by_cases hkey : k = key
    · simp [hkey]
    · have hne : key ≠ k := fun h => hkey h.symm
      simp [hkey, hne]

/-- A sweep is a visit to each key. -/
theorem foldl_sweepEntry (c : RestCache K V) (now : ℕ) :
    c.inner.keys.foldl (fun c k => c.sweepEntry k now) c = (c.sweepExpired now).1 := by
  have hinner : (c.inner.keys.foldl (fun c k => c.sweepEntry k now) c).inner =
      (c.sweepExpired now).1.inner := by
    refine Std.ExtTreeMap.ext_getElem? fun key => ?_
    rw [getElem?_visits, getElem?_sweepExpired]
    split_ifs with hkey
    · rfl
    · rw [Std.ExtTreeMap.getElem?_eq_none fun hmem => hkey (Std.ExtTreeMap.mem_keys.mpr hmem)]
      rfl
  have hdefault : ∀ (keys : List K) (c : RestCache K V),
      (keys.foldl (fun c k => c.sweepEntry k now) c).defaultTtl = c.defaultTtl := by
    intro keys
    induction keys with
    | nil => exact fun _ => rfl
    | cons k keys ih => exact fun c => (ih _).trans (sweepEntry_defaultTtl c k now)
  exact congrArg₂ RestCache.mk hinner (hdefault _ _)

theorem after_visits (hrun : Tasks.after defaultTtl h = some s) (now : ℕ) (keys : List K) :
    Tasks.after defaultTtl (h ++ keys.map fun k => (now, (.sweepEntry k : Act K V E))) =
      some { s with cache := keys.foldl (fun c k => c.sweepEntry k now) s.cache } := by
  induction keys generalizing h s with
  | nil => rwa [List.map_nil, List.append_nil]
  | cons k keys ih =>
    have hvisit : Tasks.after defaultTtl (h ++ [(now, (.sweepEntry k : Act K V E))]) =
        some { s with cache := s.cache.sweepEntry k now } := by
      rw [after_concat, hrun]
      rfl
    rw [List.map_cons, List.append_cons]
    exact ih hvisit

/-- Once expired is expired for good. -/
theorem get_sweepExpired (c : RestCache K V) (key : K) {now later : ℕ} (hle : now ≤ later) :
    (c.sweepExpired now).1.get key later = c.get key later := by
  rw [get_eq_bind, get_eq_bind, getElem?_sweepExpired]
  rcases c.inner[key]? with _ | e
  · rfl
  · cases hfresh : e.isFresh now with
    | true => simp [hfresh, Option.filter]
    | false =>
      have hnever := Entry.isFresh_antitone hle hfresh
      simp [hfresh, hnever, Option.filter]

/-- **Main theorem.** Over any interleaving, the cache answers with the value of the last write of
    the key as long as that lives, and with nothing else: a visit of a sweep changes no answer.
    A sweep that nothing comes between leaves what has an answer, and counts the rest. After an
    invalidation during which no call on the key ran, what is loaded is loaded by calls that began
    after it. -/
theorem restCache_serves (hrun : Tasks.after defaultTtl h = some s) {now : ℕ}
    (hnow : ∀ e ∈ h, e.1 ≤ now) (key : K) :
    (∀ v, s.cache.get key now = some v ↔
      ∃ pre e post entry, h = pre ++ e :: post ∧ writes defaultTtl key e = some (some entry) ∧
        (∀ x ∈ post, writes defaultTtl key x = none) ∧ entry.value = v ∧
        entry.isFresh now = true) ∧
    (∃ keys : List K,
      Tasks.after defaultTtl (h ++ keys.map fun k => (now, (.sweepEntry k : Act K V E))) =
        some { s with cache := (s.cache.sweepExpired now).1 }) ∧
    (∀ later, now ≤ later → (s.cache.sweepExpired now).1.get key later = s.cache.get key later) ∧
    (key ∈ (s.cache.sweepExpired now).1.inner ↔ ∃ v, s.cache.get key now = some v) ∧
    (s.cache.sweepExpired now).1.len + (s.cache.sweepExpired now).2 = s.cache.len ∧
    ∀ pre e mid t call result rest s₀,
      h = pre ++ (e :: mid ++ (t, .loaded call key result) :: rest) →
      writes defaultTtl key e = some none → Tasks.after defaultTtl pre = some s₀ →
      (∀ c ∈ s₀.loading, c.2 ≠ key) → ∃ t₀, (t₀, Act.fetch call key) ∈ mid := by
  refine ⟨fun v => ?_, ⟨s.cache.inner.keys, ?_⟩, fun later hle => get_sweepExpired s.cache key hle,
    (sweepExpired_spec _ _).1 key, (sweepExpired_spec _ _).2, ?_⟩
  · rw [get_eq_served hrun hnow, served_eq_some_iff]
  · rw [after_visits hrun, foldl_sweepEntry]
  · rintro pre e mid t call result rest s₀ rfl hwrite hpre hidle
    obtain ⟨t₀, ht₀⟩ := fetched_since hpre hidle hrun
    rcases List.mem_cons.mp ht₀ with heq | hmid
    · rw [← heq] at hwrite
      cases hwrite
    · exact ⟨t₀, hmid⟩

/-- A load, an invalidation and a load again. -/
def reloads : List (ℕ × Act ℕ ℕ Unit) :=
  [(0, .fetch 1 5), (2, .loaded 1 5 (.ok 70)), (3, .invalidate 5), (4, .fetch 2 5),
    (6, .loaded 2 5 (.ok 71))]

def reloaded : Tasks ℕ ℕ where
  cache :=
    { inner := ((Std.ExtTreeMap.empty.insert 5 ⟨70, 2, 10⟩).erase 5).insert 5 ⟨71, 6, 10⟩
      defaultTtl := 10 }
  loading := []

/-- The second value is served, as the last write of its key. -/
theorem restCache_serves_reloads : reloaded.cache.get 5 12 = some 71 :=
  ((restCache_serves (h := reloads) rfl (by decide) 5).1 71).mpr
    ⟨reloads.take 4, _, [], ⟨71, 6, 10⟩, rfl, rfl, by simp, rfl, by decide⟩

end Digdigdig3.Rest
