import Mathlib.Data.Finset.Card
import Digdigdig3.Lib.SortedWindow

/-!
# Reading a source page by page

A pager asks a source for one page after the other, with a cursor that it takes from the last page,
and keeps the first record of each key. It ends with the last page that it may ask for, or where
the source fails, has nothing more, or is read up to a limit of its own.

* `loop_eq`: the loop keeps the records of the pages of its walk.
* `walk_cases`: how many pages there are for each way to end.
* `map_keepAll`: of each key one record is kept.
* `walk_reads`: over a list, the walk reads the newest records down to where it ends.
-/

namespace Digdigdig3.Paging

variable {P K C E : Type}

/-! ## Records by their key -/

section Keep

variable [LinearOrder K]

/-- `map.entry(key).or_insert(p)`, with the values of the map in the order of their keys. -/
def orInsert (key : P → K) (xs : List P) (p : P) : List P :=
  if xs.any fun x => key x = key p then xs else insertByKey key xs p

/-- The first record of each key. -/
def keepAll (key : P → K) (xs : List P) (ps : List P) : List P := ps.foldl (orInsert key) xs

variable {key : P → K}

theorem ascending_orInsert {xs : List P} (h : Ascending key xs) (p : P) :
    Ascending key (orInsert key xs p) := by
  unfold orInsert
  split_ifs
  · exact h
  · exact ascending_insertByKey h p

theorem ascending_keepAll {xs : List P} (h : Ascending key xs) (ps : List P) :
    Ascending key (keepAll key xs ps) := by
  induction ps generalizing xs with
  | nil => exact h
  | cons p ps ih => exact ih (ascending_orInsert h p)

/-- A record that is kept was kept before or is new. -/
theorem mem_of_mem_orInsert {xs : List P} {p q : P} (h : q ∈ orInsert key xs p) :
    q ∈ xs ∨ q = p ∧ ∀ x ∈ xs, key x ≠ key p := by
  unfold orInsert at h
  split_ifs at h with hany
  · exact Or.inl h
  · rw [List.any_eq_true] at hany
    rcases mem_of_mem_insertByKey h with rfl | hq
    · exact Or.inr ⟨rfl, fun x hx hkey => hany ⟨x, hx, by simpa using hkey⟩⟩
    · exact Or.inl hq

/-- No record is thrown out. -/
theorem mem_orInsert_of_mem {xs : List P} {p q : P} (h : q ∈ xs) : q ∈ orInsert key xs p := by
  unfold orInsert
  split_ifs with hany
  · exact h
  · refine mem_insertByKey_of_ne h fun hkey => hany ?_
    exact List.any_eq_true.mpr ⟨q, h, by simpa using hkey⟩

/-- A record of a new key is kept. -/
theorem mem_orInsert_self {xs : List P} {p : P} (h : ∀ x ∈ xs, key x ≠ key p) :
    p ∈ orInsert key xs p := by
  unfold orInsert
  rw [if_neg]
  · exact mem_insertByKey_self xs p
  · rw [List.any_eq_true]
    rintro ⟨x, hx, hkey⟩
    exact h x hx (by simpa using hkey)

theorem exists_key_orInsert {xs : List P} {p : P} : ∃ q ∈ orInsert key xs p, key q = key p := by
  by_cases h : ∃ x ∈ xs, key x = key p
  · obtain ⟨x, hx, hkey⟩ := h
    exact ⟨x, mem_orInsert_of_mem hx, hkey⟩
  · push Not at h
    exact ⟨p, mem_orInsert_self h, rfl⟩

theorem mem_keepAll_of_mem {xs : List P} (ps : List P) {q : P} (h : q ∈ xs) :
    q ∈ keepAll key xs ps := by
  induction ps generalizing xs with
  | nil => exact h
  | cons p ps ih => exact ih (mem_orInsert_of_mem h)

theorem mem_of_mem_keepAll {xs ps : List P} {q : P} (h : q ∈ keepAll key xs ps) :
    q ∈ xs ∨ q ∈ ps := by
  induction ps generalizing xs with
  | nil => exact Or.inl h
  | cons p ps ih =>
    rcases ih h with hq | hq
    · rcases mem_of_mem_orInsert hq with hq | ⟨rfl, -⟩
      · exact Or.inl hq
      · exact Or.inr List.mem_cons_self
    · exact Or.inr (List.mem_cons_of_mem p hq)

/-- A record is kept for each key. -/
theorem exists_key_keepAll {xs ps : List P} {p : P} (h : p ∈ xs ∨ p ∈ ps) :
    ∃ q ∈ keepAll key xs ps, key q = key p := by
  induction ps generalizing xs with
  | nil => exact ⟨p, h.resolve_right List.not_mem_nil, rfl⟩
  | cons first ps ih =>
    rcases h with h | h
    · exact ⟨p, mem_keepAll_of_mem _ h, rfl⟩
    · rcases List.mem_cons.mp h with rfl | h
      · obtain ⟨q, hq, hkey⟩ : ∃ q ∈ orInsert key xs p, key q = key p := exists_key_orInsert
        exact ⟨q, mem_keepAll_of_mem ps hq, hkey⟩
      · exact ih (Or.inr h)

/-- Of each key one record is kept. -/
theorem map_keepAll (ps : List P) :
    ((keepAll key [] ps).map key).toFinset = (ps.map key).toFinset := by
  ext k
  rw [List.mem_toFinset, List.mem_toFinset, List.mem_map, List.mem_map]
  constructor
  · rintro ⟨q, hq, rfl⟩
    exact ⟨q, (mem_of_mem_keepAll hq).resolve_left List.not_mem_nil, rfl⟩
  · rintro ⟨p, hp, rfl⟩
    exact exists_key_keepAll (Or.inr hp)

/-- As many records are kept as there are keys. -/
theorem length_keepAll (ps : List P) :
    (keepAll key [] ps).length = (ps.map key).toFinset.card := by
  have hasc : Ascending key (keepAll key [] ps) := ascending_keepAll List.Pairwise.nil ps
  have hnodup : ((keepAll key [] ps).map key).Nodup := by
    rw [List.Nodup, List.pairwise_map]
    exact hasc.imp fun h => h.ne
  rw [← map_keepAll, List.toFinset_card_of_nodup hnodup, List.length_map]

end Keep

/-! ## The loop -/

/-- A source of pages: the key of a record, the answer to each call, how many records a page has at
    most, and what is read off a page: whether it reaches the limit of the source, and the cursor
    of the next page. -/
structure Pager (P K C E : Type) where
  key : P → K
  get : ℕ → Option C → Except E (List P)
  limit : ℕ
  atWall : List P → Bool
  advance : List P → Option C

/-- The variables of the loop. -/
structure PageState (P C : Type) where
  byKey : List P
  next : Option C
  pagesDone : ℕ
  failed : Bool
  hitWall : Bool

/-- How a walk over pages ends. -/
inductive Ending
  | failed | empty | wall | short | origin | done
  deriving DecidableEq

namespace Pager

variable (pg : Pager P K C E)

/-- The pages that a walk reads, and how it ends. -/
def walk : ℕ → ℕ → Option C → List (List P) × Ending
  | 0, _, _ => ([], .done)
  | pages + 1, call, next =>
    match pg.get call next with
    | .error _ => ([], .failed)
    | .ok page =>
      if page = [] then ([], .empty)
      else if pg.atWall page then ([page], .wall)
      else if page.length < pg.limit then ([page], .short)
      else
        match pg.advance page with
        | none => ([page], .origin)
        | some cursor =>
          (page :: (walk pages (call + 1) (some cursor)).1, (walk pages (call + 1) (some cursor)).2)

section Loop

variable [LinearOrder K]

/-- A page is taken in. -/
def take (s : PageState P C) (page : List P) : PageState P C :=
  { s with byKey := keepAll pg.key s.byKey page, pagesDone := s.pagesDone + 1 }

/-- The loop, for the pages that may still be asked for. -/
def loop : ℕ → PageState P C → PageState P C
  | 0, s => s
  | pages + 1, s =>
    match pg.get s.pagesDone s.next with
    | .error _ => { s with failed := true }
    | .ok page =>
      if page = [] then s
      else
        let s := pg.take s page
        if pg.atWall page then { s with hitWall := true }
        else if page.length < pg.limit then s
        else
          match pg.advance page with
          | none => s
          | some cursor => loop pages { s with next := some cursor }

/-- The state at the start. -/
def start (next : Option C) : PageState P C :=
  { byKey := [], next, pagesDone := 0, failed := false, hitWall := false }

/-- The loop keeps the records of the pages of its walk. -/
theorem loop_eq (pages : ℕ) (s : PageState P C) (hfailed : s.failed = false)
    (hwall : s.hitWall = false) :
    let r := pg.walk pages s.pagesDone s.next
    (pg.loop pages s).byKey = keepAll pg.key s.byKey r.1.flatten ∧
      (pg.loop pages s).pagesDone = s.pagesDone + r.1.length ∧
      ((pg.loop pages s).failed ↔ r.2 = .failed) ∧ ((pg.loop pages s).hitWall ↔ r.2 = .wall) := by
  induction pages generalizing s with
  | zero => exact ⟨rfl, rfl, by simp [loop, walk, hfailed], by simp [loop, walk, hwall]⟩
  | succ pages ih =>
    unfold loop walk
    rcases hget : pg.get s.pagesDone s.next with e | page
    · exact ⟨rfl, rfl, by simp, by simp [hwall]⟩
    · simp only
      by_cases hempty : page = []
      · rw [if_pos hempty, if_pos hempty]
        exact ⟨rfl, rfl, by simp [hfailed], by simp [hwall]⟩
      · rw [if_neg hempty, if_neg hempty]
        by_cases hat : pg.atWall page
        · rw [if_pos hat, if_pos hat]
          exact ⟨by simp [take], rfl, by simp [take, hfailed], by simp⟩
        · rw [if_neg hat, if_neg hat]
          by_cases hshort : page.length < pg.limit
          · rw [if_pos hshort, if_pos hshort]
            exact ⟨by simp [take], rfl, by simp [take, hfailed], by simp [take, hwall]⟩
          · rw [if_neg hshort, if_neg hshort]
            rcases hadvance : pg.advance page with _ | cursor
            · exact ⟨by simp [take], rfl, by simp [take, hfailed], by simp [take, hwall]⟩
            · obtain ⟨hbyKey, hdone, hfail, hhit⟩ :=
                ih { pg.take s page with next := some cursor } hfailed hwall
              refine ⟨?_, ?_, hfail, hhit⟩
              · simp only
                rw [hbyKey]
                simp [take, keepAll]
              · simp only
                rw [hdone]
                simp only [take, List.length_cons]
                omega

end Loop

variable {pg}

/-- The walk goes on after the page. -/
def Continues (pg : Pager P K C E) (page : List P) : Prop :=
  page ≠ [] ∧ pg.atWall page = false ∧ pg.limit ≤ page.length ∧
    ∃ cursor, pg.advance page = some cursor

/-- All pages of a walk but the last go on, and the last one shows how it ends. -/
theorem walk_cases (pages call : ℕ) (next : Option C) :
    ∃ front, (∀ page ∈ front, pg.Continues page) ∧
      (((pg.walk pages call next).2 = .done ∧ (pg.walk pages call next).1 = front ∧
          front.length = pages) ∨
        (((pg.walk pages call next).2 = .failed ∨ (pg.walk pages call next).2 = .empty) ∧
          (pg.walk pages call next).1 = front ∧ front.length < pages) ∨
        ∃ last, last ≠ [] ∧ (pg.walk pages call next).1 = front ++ [last] ∧
          front.length < pages ∧
          (((pg.walk pages call next).2 = .wall ∧ pg.atWall last = true) ∨
            ((pg.walk pages call next).2 = .short ∧ pg.atWall last = false ∧
              last.length < pg.limit) ∨
            ((pg.walk pages call next).2 = .origin ∧ pg.atWall last = false ∧
              pg.limit ≤ last.length ∧ pg.advance last = none))) := by
  induction pages generalizing call next with
  | zero => exact ⟨[], by simp, Or.inl ⟨rfl, rfl, rfl⟩⟩
  | succ pages ih =>
    unfold walk
    rcases hget : pg.get call next with e | page
    · exact ⟨[], by simp, Or.inr (Or.inl ⟨Or.inl rfl, rfl, Nat.succ_pos pages⟩)⟩
    · simp only
      by_cases hempty : page = []
      · rw [if_pos hempty]
        exact ⟨[], by simp, Or.inr (Or.inl ⟨Or.inr rfl, rfl, Nat.succ_pos pages⟩)⟩
      · rw [if_neg hempty]
        by_cases hat : pg.atWall page
        · rw [if_pos hat]
          exact ⟨[], by simp, Or.inr (Or.inr ⟨page, hempty, rfl, Nat.succ_pos pages,
            Or.inl ⟨rfl, hat⟩⟩)⟩
        · have hno : pg.atWall page = false := eq_false_of_ne_true hat
          rw [if_neg hat]
          by_cases hshort : page.length < pg.limit
          · rw [if_pos hshort]
            exact ⟨[], by simp, Or.inr (Or.inr ⟨page, hempty, rfl, Nat.succ_pos pages,
              Or.inr (Or.inl ⟨rfl, hno, hshort⟩)⟩)⟩
          · rw [if_neg hshort]
            rcases hadvance : pg.advance page with _ | cursor
            · exact ⟨[], by simp, Or.inr (Or.inr ⟨page, hempty, rfl, Nat.succ_pos pages,
                Or.inr (Or.inr ⟨rfl, hno, not_lt.mp hshort, hadvance⟩)⟩)⟩
            · obtain ⟨front, hfront, hcases⟩ := ih (call + 1) (some cursor)
              refine ⟨page :: front, ?_, ?_⟩
              · rintro p hp
                rcases List.mem_cons.mp hp with rfl | hp
                · exact ⟨hempty, hno, not_lt.mp hshort, cursor, hadvance⟩
                · exact hfront p hp
              · simp only
                rcases hcases with ⟨hend, hpages, hlen⟩ | ⟨hend, hpages, hlen⟩ |
                  ⟨last, hlast, hpages, hlen, hend⟩
                · exact Or.inl ⟨hend, by rw [hpages], by simp [hlen]⟩
                · exact Or.inr (Or.inl ⟨hend, by rw [hpages], by simpa using hlen⟩)
                · exact Or.inr (Or.inr ⟨last, hlast, by rw [hpages]; rfl, by simpa using hlen,
                    hend⟩)

/-! ## Calls -/

section Calls

variable {pages call : ℕ} {next : Option C}

/-- A walk that is done has read all pages that it may ask for. -/
theorem length_of_done (h : (pg.walk pages call next).2 = .done) :
    (pg.walk pages call next).1.length = pages := by
  obtain ⟨front, -, ⟨-, hpages, hlen⟩ | ⟨hend, -⟩ | ⟨last, -, -, -, hend⟩⟩ :=
    walk_cases pages call next
  · rw [hpages, hlen]
  · rw [h] at hend
    simp at hend
  · rw [h] at hend
    simp at hend

/-- A walk whose last call brings no page has not read all. -/
theorem length_lt_of_failed (h : (pg.walk pages call next).2 = .failed ∨
    (pg.walk pages call next).2 = .empty) : (pg.walk pages call next).1.length < pages := by
  obtain ⟨front, -, ⟨hend, -⟩ | ⟨-, hpages, hlen⟩ | ⟨last, -, -, -, hend⟩⟩ :=
    walk_cases pages call next
  · rw [hend] at h
    simp at h
  · rwa [hpages]
  · rcases h with h | h <;> rw [h] at hend <;> simp at hend

theorem length_walk_le : (pg.walk pages call next).1.length ≤ pages := by
  obtain ⟨front, -, ⟨-, hpages, hlen⟩ | ⟨-, hpages, hlen⟩ | ⟨last, -, hpages, hlen, -⟩⟩ :=
    walk_cases pages call next
  · rw [hpages, hlen]
  · rw [hpages]
    exact hlen.le
  · rw [hpages, List.length_append]
    exact hlen

/-- The last page of a walk that ends with a short page is short. -/
theorem exists_short (h : (pg.walk pages call next).2 = .short) :
    ∃ page ∈ (pg.walk pages call next).1, page.length < pg.limit := by
  obtain ⟨front, -, ⟨hend, -⟩ | ⟨hend, -⟩ | ⟨last, -, hpages, -, hend⟩⟩ :=
    walk_cases pages call next
  · rw [hend] at h
    cases h
  · rw [h] at hend
    simp at hend
  · rw [h] at hend
    simp only [reduceCtorEq, false_and, true_and, or_false, false_or] at hend
    exact ⟨last, by rw [hpages]; simp, hend.2⟩

/-- The last page of a walk that ends at the wall is at it. -/
theorem exists_atWall (h : (pg.walk pages call next).2 = .wall) :
    ∃ page ∈ (pg.walk pages call next).1, page ≠ [] ∧ pg.atWall page := by
  obtain ⟨front, -, ⟨hend, -⟩ | ⟨hend, -⟩ | ⟨last, hlast, hpages, -, hend⟩⟩ :=
    walk_cases pages call next
  · rw [hend] at h
    cases h
  · rw [h] at hend
    simp at hend
  · rw [h] at hend
    simp only [reduceCtorEq, false_and, true_and, or_false] at hend
    exact ⟨last, by rw [hpages]; simp, hlast, hend⟩

/-- Every other walk reads full pages only. -/
theorem limit_le (h : (pg.walk pages call next).2 ≠ .short)
    (hwall : (pg.walk pages call next).2 ≠ .wall) :
    ∀ page ∈ (pg.walk pages call next).1, pg.limit ≤ page.length := by
  obtain ⟨front, hfront, ⟨-, hpages, -⟩ | ⟨-, hpages, -⟩ | ⟨last, -, hpages, -, hend⟩⟩ :=
    walk_cases pages call next
  · rw [hpages]
    exact fun page hpage => (hfront page hpage).2.2.1
  · rw [hpages]
    exact fun page hpage => (hfront page hpage).2.2.1
  · simp only [h, hwall, false_and, false_or] at hend
    rw [hpages]
    intro page hpage
    rcases List.mem_append.mp hpage with hpage | hpage
    · exact (hfront page hpage).2.2.1
    · rw [List.mem_singleton.mp hpage]
      exact hend.2.2.1

/-- A source that always answers does not end a walk by an error. -/
theorem ne_failed (h : ∀ call next, ∃ page, pg.get call next = .ok page) :
    (pg.walk pages call next).2 ≠ .failed := by
  induction pages generalizing call next with
  | zero => simp [walk]
  | succ pages ih =>
    obtain ⟨page, hget⟩ := h call next
    unfold walk
    rw [hget]
    simp only
    split_ifs
    · simp
    · simp
    · simp
    · rcases pg.advance page with _ | cursor
      · simp
      · exact ih

/-- A walk that does not end at the wall has no page at it. -/
theorem atWall_eq_false (h : (pg.walk pages call next).2 ≠ .wall) :
    ∀ page ∈ (pg.walk pages call next).1, pg.atWall page = false := by
  obtain ⟨front, hfront, ⟨-, hpages, -⟩ | ⟨-, hpages, -⟩ | ⟨last, -, hpages, -, hend⟩⟩ :=
    walk_cases pages call next
  · rw [hpages]
    exact fun page hpage => (hfront page hpage).2.1
  · rw [hpages]
    exact fun page hpage => (hfront page hpage).2.1
  · simp only [h, false_and, false_or] at hend
    rw [hpages]
    intro page hpage
    rcases List.mem_append.mp hpage with hpage | hpage
    · exact (hfront page hpage).2.1
    · rw [List.mem_singleton.mp hpage]
      exact hend.elim (fun h => h.2.1) fun h => h.2.1

/-- A pager that knows no wall does not end at one. -/
theorem ne_wall (h : ∀ page, pg.atWall page = false) : (pg.walk pages call next).2 ≠ .wall := by
  intro hwall
  obtain ⟨page, -, -, hat⟩ := exists_atWall hwall
  rw [h page] at hat
  cases hat

/-- A pager that always knows a next page does not end at an origin. -/
theorem ne_origin (h : ∀ page, pg.advance page ≠ none) : (pg.walk pages call next).2 ≠ .origin := by
  intro horigin
  obtain ⟨front, -, ⟨hend, -⟩ | ⟨hend, -⟩ | ⟨last, -, -, -, hend⟩⟩ :=
    walk_cases pages call next
  · rw [hend] at horigin
    cases horigin
  · rw [horigin] at hend
    simp at hend
  · rw [horigin] at hend
    simp only [reduceCtorEq, false_and, true_and, false_or] at hend
    exact h last hend.2.2

end Calls

/-! ## Pages of a list -/

section Reads

variable (pg) (recs : List P)

/-- A page of a list of which the first `r` records are still to be read: it holds the newest of
    them, up to the limit, and nothing older. -/
structure Covers (page : List P) (r : ℕ) : Prop where
  subset : ∀ p ∈ page, p ∈ recs.drop (r - pg.limit)
  newest : ∀ p ∈ recs.drop (r - pg.limit), p ∈ page ∨ p ∈ recs.drop r
  oldest : page ≠ [] → ∀ p, recs[r - pg.limit]? = some p → p ∈ page
  empty : page = [] → r = 0
  short : page.length < pg.limit → r ≤ pg.limit

/-- What the cursors of a source are good for: `N n r next` says that with `next` the first `r`
    records are still to be read and `n` pages may be asked for. `B r` holds where the walk goes on
    before the record at `r`, `W r` where it ends at the wall there, and `O n r` where it ends there
    at the origin and might have asked for `n` more pages. -/
structure Reads (N : ℕ → ℕ → Option C → Prop) (B W : ℕ → Prop) (O : ℕ → ℕ → Prop) : Prop where
  get : ∀ n r call next, N (n + 1) r next →
    ∃ page, pg.get call next = .ok page ∧ pg.Covers recs page r
  wall : ∀ n r next page, N (n + 1) r next → pg.Covers recs page r → page ≠ [] →
    pg.atWall page = true → W (r - pg.limit)
  origin : ∀ n r next page, N (n + 1) r next → pg.Covers recs page r → page ≠ [] →
    pg.atWall page = false → pg.limit ≤ page.length → pg.advance page = none →
      O n (r - pg.limit)
  advance : ∀ n r next page cursor, N (n + 1) r next → pg.Covers recs page r → page ≠ [] →
    pg.atWall page = false → pg.limit ≤ page.length → pg.advance page = some cursor →
      B (r - pg.limit) ∧ N n (r - pg.limit) (some cursor)

variable {pg recs}

/-- With at most `n` pages the records from `m` up to `r` were read, and the walk went on before
    each page but the first. -/
structure Stretch (pg : Pager P K C E) (recs : List P) (B : ℕ → Prop) (n r m : ℕ)
    (read : List (List P)) : Prop where
  le : m ≤ r
  down : r ≤ m + n * pg.limit
  subset : ∀ p ∈ read.flatten, p ∈ recs.drop m
  newest : ∀ p ∈ recs.drop m, p ∈ read.flatten ∨ p ∈ recs.drop r
  passed : ∀ j, 0 < j → m + j * pg.limit < r → B (r - j * pg.limit)

theorem Stretch.none (B : ℕ → Prop) (n r : ℕ) : Stretch pg recs B n r r [] where
  le := le_rfl
  down := Nat.le_add_right _ _
  subset := fun _ hp => absurd hp List.not_mem_nil
  newest := fun _ hp => Or.inr hp
  passed := fun j _ hlt => by omega

/-- One page alone. -/
theorem Covers.stretch {page : List P} {r : ℕ} (hcovers : pg.Covers recs page r) (B : ℕ → Prop)
    (n : ℕ) : Stretch pg recs B (n + 1) r (r - pg.limit) [page] where
  le := Nat.sub_le _ _
  down := by
    have : pg.limit ≤ (n + 1) * pg.limit := Nat.le_mul_of_pos_left _ (Nat.succ_pos _)
    omega
  subset := by simpa using hcovers.subset
  newest := by simpa using hcovers.newest
  passed := by
    intro j hj hlt
    have : pg.limit ≤ j * pg.limit := Nat.le_mul_of_pos_left _ hj
    omega

/-- A page in front of the others. -/
theorem Stretch.cons {B : ℕ → Prop} {n r m : ℕ} {page : List P} {read : List (List P)}
    (hcovers : pg.Covers recs page r) (hB : B (r - pg.limit))
    (h : Stretch pg recs B n (r - pg.limit) m read) :
    Stretch pg recs B (n + 1) r m (page :: read) where
  le := h.le.trans (Nat.sub_le _ _)
  down := by
    have hdown := h.down
    have hmul : (n + 1) * pg.limit = n * pg.limit + pg.limit := Nat.succ_mul _ _
    omega
  subset := by
    intro p hp
    rw [List.flatten_cons, List.mem_append] at hp
    rcases hp with hp | hp
    · exact List.drop_subset_drop_left recs h.le (hcovers.subset p hp)
    · exact h.subset p hp
  newest := by
    intro p hp
    rw [List.flatten_cons, List.mem_append]
    rcases h.newest p hp with hp | hp
    · exact Or.inl (Or.inr hp)
    · exact (hcovers.newest p hp).imp_left Or.inl
  passed := by
    intro j hj hlt
    obtain ⟨i, rfl⟩ : ∃ i, j = i + 1 := ⟨j - 1, by omega⟩
    have hi : (i + 1) * pg.limit = i * pg.limit + pg.limit := Nat.succ_mul _ _
    rcases Nat.eq_zero_or_pos i with rfl | hpos
    · rwa [show r - (0 + 1) * pg.limit = r - pg.limit by omega]
    · rw [show r - (i + 1) * pg.limit = r - pg.limit - i * pg.limit by omega]
      exact h.passed i hpos (by omega)

/-- A walk over the pages of a list reads its newest records down to a place `m`, and ends there
    because it was done, at the wall, at the origin or at the beginning of the list. -/
theorem walk_reads {N : ℕ → ℕ → Option C → Prop} {B W : ℕ → Prop} {O : ℕ → ℕ → Prop}
    (hreads : pg.Reads recs N B W O) (pages call r : ℕ) (next : Option C)
    (hnext : N pages r next) :
    ∃ m, (pg.walk pages call next).2 ≠ .failed ∧
      Stretch pg recs B pages r m (pg.walk pages call next).1 ∧
      (m = 0 ∨ ((pg.walk pages call next).2 = .done ∧ m + pages * pg.limit = r) ∨
        ((pg.walk pages call next).2 = .wall ∧ W m) ∨
        ((pg.walk pages call next).2 = .origin ∧ ∃ left, O left m ∧
          (pg.walk pages call next).1.length + left = pages ∧
          m + (pg.walk pages call next).1.length * pg.limit = r)) := by
  induction pages generalizing call r next with
  | zero => exact ⟨r, by simp [walk], Stretch.none B 0 r, Or.inr (Or.inl ⟨rfl, by simp⟩)⟩
  | succ pages ih =>
    obtain ⟨page, hget, hcovers⟩ := hreads.get pages r call next hnext
    have hone := hcovers.stretch B pages
    unfold walk
    rw [hget]
    simp only
    by_cases hempty : page = []
    · obtain rfl := hcovers.empty hempty
      rw [if_pos hempty]
      exact ⟨0, by simp, Stretch.none B _ 0, Or.inl rfl⟩
    · rw [if_neg hempty]
      by_cases hat : pg.atWall page
      · rw [if_pos hat]
        have hwall := hreads.wall pages r next page hnext hcovers hempty hat
        exact ⟨r - pg.limit, by simp, hone, Or.inr (Or.inr (Or.inl ⟨rfl, hwall⟩))⟩
      · have hno : pg.atWall page = false := eq_false_of_ne_true hat
        rw [if_neg hat]
        by_cases hshort : page.length < pg.limit
        · rw [if_pos hshort]
          have hzero : r - pg.limit = 0 := Nat.sub_eq_zero_of_le (hcovers.short hshort)
          exact ⟨r - pg.limit, by simp, hone, Or.inl hzero⟩
        · have hfull := not_lt.mp hshort
          rw [if_neg hshort]
          rcases hadvance : pg.advance page with _ | cursor
          · refine ⟨r - pg.limit, by simp, hone, ?_⟩
            have horigin := hreads.origin pages r next page hnext hcovers hempty hno hfull hadvance
            rcases le_or_gt pg.limit r with hle | hlt
            · exact Or.inr (Or.inr (Or.inr ⟨rfl, pages, horigin, by simp; omega, by simp; omega⟩))
            · exact Or.inl (by omega)
          · obtain ⟨hB, hN⟩ :=
              hreads.advance pages r next page cursor hnext hcovers hempty hno hfull hadvance
            obtain ⟨m, hend, hrest, hcases⟩ := ih (call + 1) _ _ hN
            have hle := hrest.le
            have hmul : (pages + 1) * pg.limit = pages * pg.limit + pg.limit := Nat.succ_mul _ _
            refine ⟨m, hend, hrest.cons hcovers hB, ?_⟩
            rcases le_or_gt pg.limit r with hlimit | hlimit
            · rcases hcases with hzero | ⟨hdone, hm⟩ | hwall | ⟨horigin, left, hO, hleft, hm⟩
              · exact Or.inl hzero
              · exact Or.inr (Or.inl ⟨hdone, by omega⟩)
              · exact Or.inr (Or.inr (Or.inl hwall))
              · refine Or.inr (Or.inr (Or.inr ⟨horigin, left, hO, ?_, ?_⟩))
                · rw [List.length_cons]
                  omega
                · rw [List.length_cons, Nat.succ_mul]
                  omega
            · exact Or.inl (by omega)

end Reads

end Pager

end Digdigdig3.Paging
