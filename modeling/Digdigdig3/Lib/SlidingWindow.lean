import Mathlib.Tactic
import Mathlib.Algebra.BigOperators.Group.List.Basic
import Mathlib.Data.List.DropRight

/-!
# Budgets over a sliding window

A ledger holds what was granted and what was reported as used, each with its instant. The budget
of a window is kept when no window of that length has more granted, and when no report together
with what was granted after it exceeds the budget before the window has passed.

* `KeptBudget.grant`, `KeptBudget.report`: what one more entry must fit for that.
* `Tracks.eq_grants`: when the entries that a limiter has left are the grants of the window.
-/

namespace Digdigdig3

/-- Grants and reports, each an instant and a weight, in the order they were made. -/
structure Ledger where
  grants : List (ℕ × ℕ)
  reports : List (ℕ × ℕ)

/-- The weight of the entries whose instant satisfies `p`. -/
def weightOf (p : ℕ → Prop) [DecidablePred p] (entries : List (ℕ × ℕ)) : ℕ :=
  ((entries.filter fun e => decide (p e.1)).map Prod.snd).sum

section WeightOf

variable {p q : ℕ → Prop} [DecidablePred p] [DecidablePred q] {entries : List (ℕ × ℕ)}

theorem weightOf_concat (entry : ℕ × ℕ) :
    weightOf p (entries ++ [entry]) = weightOf p entries + if p entry.1 then entry.2 else 0 := by
  unfold weightOf
  rw [List.filter_append, List.map_append, List.sum_append]
  congr 1
  by_cases h : p entry.1
  · simp [h]
  · simp [h]

theorem weightOf_mono (h : ∀ e ∈ entries, p e.1 → q e.1) :
    weightOf p entries ≤ weightOf q entries := by
  induction entries using List.reverseRecOn with
  | nil => exact le_refl _
  | append_singleton entries e ih =>
    rw [weightOf_concat, weightOf_concat]
    have hrest := ih fun e' he' => h e' (List.mem_append_left _ he')
    have hlast := h e (by simp)
    split_ifs with hp hq
    · omega
    · exact absurd (hlast hp) hq
    · omega
    · omega

theorem weightOf_eq_zero (h : ∀ e ∈ entries, ¬ p e.1) : weightOf p entries = 0 := by
  have hnil : entries.filter (fun e => decide (p e.1)) = [] :=
    List.filter_eq_nil_iff.mpr fun e he => by simpa using h e he
  rw [weightOf, hnil]
  rfl

end WeightOf

namespace Ledger

def empty : Ledger := ⟨[], []⟩

def grant (l : Ledger) (now weight : ℕ) : Ledger := { l with grants := l.grants ++ [(now, weight)] }

def report (l : Ledger) (now used : ℕ) : Ledger := { l with reports := l.reports ++ [(now, used)] }

/-- Nothing in the ledger is later than `now`. -/
structure UpTo (now : ℕ) (l : Ledger) : Prop where
  grants_le : ∀ e ∈ l.grants, e.1 ≤ now
  reports_le : ∀ e ∈ l.reports, e.1 ≤ now

/-- The entry at `instant` still counts at `now`. -/
def Fresh (window now instant : ℕ) : Prop := now < instant + window

instance (window now : ℕ) : DecidablePred (Fresh window now) :=
  fun instant => inferInstanceAs (Decidable (now < instant + window))

/-- The budget of the window is kept: in every window, and after every report. -/
structure KeptBudget (window budget : ℕ) (l : Ledger) : Prop where
  windows : ∀ t, weightOf (fun i => t ≤ i ∧ i < t + window) l.grants ≤ budget
  reports : ∀ r ∈ l.reports, ∀ t, t < r.1 + window →
    r.2 + weightOf (fun i => r.1 < i ∧ i ≤ t) l.grants ≤ budget

/-- A grant of `weight` fits what still counts: the grants of the window, and each report of the
    window with the grants since. -/
structure Fits (window budget now weight : ℕ) (l : Ledger) : Prop where
  grants : weightOf (Fresh window now) l.grants + weight ≤ budget
  reports : ∀ r ∈ l.reports, r.1 < now → Fresh window now r.1 →
    r.2 + weightOf (r.1 < ·) l.grants + weight ≤ budget

variable {window budget now : ℕ} {l : Ledger}

theorem keptBudget_empty : KeptBudget window budget empty := ⟨fun _ => Nat.zero_le _, nofun⟩

theorem upTo_empty : UpTo now empty := ⟨nofun, nofun⟩

theorem UpTo.mono {later : ℕ} (h : l.UpTo now) (hle : now ≤ later) : l.UpTo later :=
  ⟨fun e he => (h.grants_le e he).trans hle, fun e he => (h.reports_le e he).trans hle⟩

theorem UpTo.grant (h : l.UpTo now) (weight : ℕ) : (l.grant now weight).UpTo now where
  grants_le := by
    intro e he
    rcases List.mem_append.mp he with he | he
    · exact h.grants_le e he
    · rw [List.mem_singleton.mp he]
  reports_le := h.reports_le

theorem UpTo.report (h : l.UpTo now) (used : ℕ) : (l.report now used).UpTo now where
  grants_le := h.grants_le
  reports_le := by
    intro e he
    rcases List.mem_append.mp he with he | he
    · exact h.reports_le e he
    · rw [List.mem_singleton.mp he]

/-- A grant that fits keeps the budget. -/
theorem KeptBudget.grant (h : l.KeptBudget window budget) {weight : ℕ}
    (hfits : l.Fits window budget now weight) :
    (l.grant now weight).KeptBudget window budget where
  windows := by
    intro t
    show weightOf _ (l.grants ++ [(now, weight)]) ≤ budget
    rw [weightOf_concat]
    have hbefore := h.windows t
    split_ifs with hin
    · have hle : weightOf (fun i => t ≤ i ∧ i < t + window) l.grants ≤
          weightOf (Fresh window now) l.grants := by
        apply weightOf_mono
        rintro e he ⟨hlow, -⟩
        show now < e.1 + window
        omega
      have := hfits.grants
      omega
    · omega
  reports := by
    intro r hr t ht
    show r.2 + weightOf _ (l.grants ++ [(now, weight)]) ≤ budget
    rw [weightOf_concat]
    have hbefore := h.reports r hr t ht
    split_ifs with hin
    · have hle : weightOf (fun i => r.1 < i ∧ i ≤ t) l.grants ≤ weightOf (r.1 < ·) l.grants :=
        weightOf_mono fun e he hi => hi.1
      have hfresh : Fresh window now r.1 := hin.2.trans_lt ht
      have := hfits.reports r hr hin.1 hfresh
      omega
    · omega

/-- A report within the budget keeps it. -/
theorem KeptBudget.report (h : l.KeptBudget window budget) (hupTo : l.UpTo now) {used : ℕ}
    (hused : used ≤ budget) : (l.report now used).KeptBudget window budget where
  windows := h.windows
  reports := by
    intro r hr t ht
    rcases List.mem_append.mp hr with hr | hr
    · exact h.reports r hr t ht
    · rw [List.mem_singleton.mp hr]
      have hzero : weightOf (fun i => now < i ∧ i ≤ t) l.grants = 0 :=
        weightOf_eq_zero fun e he hi => absurd (hupTo.grants_le e he) (by omega)
      show used + weightOf (fun i => now < i ∧ i ≤ t) l.grants ≤ budget
      omega

/-- What is granted in a window that ends now. -/
theorem KeptBudget.fresh_le (h : l.KeptBudget window budget) (hupTo : l.UpTo now) :
    weightOf (Fresh window now) l.grants ≤ budget := by
  refine le_trans (weightOf_mono fun e he hfresh => ?_) (h.windows (now + 1 - window))
  have hat := hupTo.grants_le e he
  have hlt : now < e.1 + window := hfresh
  omega

/-- Where no report counts any more, only the grants of the window have to fit. -/
theorem fits_of_no_report {weight : ℕ} (hreports : ∀ r ∈ l.reports, ¬ Fresh window now r.1)
    (hgrants : weightOf (Fresh window now) l.grants + weight ≤ budget) :
    l.Fits window budget now weight :=
  ⟨hgrants, fun r hr _ hfresh => absurd hfresh (hreports r hr)⟩

end Ledger

/-! ## What a limiter tracks -/

section Tracks

variable {α : Type*} {at_ : α → ℕ} {view : ℕ × ℕ → α} {window now : ℕ} {entries : List α}
  {l : Ledger}

/-- The entries of a limiter, each a view of a grant with the instant `at_`, are those that can
    still count, at every instant from `now` on at which no report counts any more. -/
def Tracks (at_ : α → ℕ) (view : ℕ × ℕ → α) (window now : ℕ) (entries : List α) (l : Ledger) :
    Prop :=
  ∀ later, now ≤ later → (∀ r ∈ l.reports, ¬ Ledger.Fresh window later r.1) →
    entries.filter (fun e => decide (Ledger.Fresh window later (at_ e))) =
      (l.grants.filter fun e => decide (Ledger.Fresh window later e.1)).map view

/-- The entries that have not expired, when those that have are dropped from the front. -/
def unexpired (at_ : α → ℕ) (window now : ℕ) (entries : List α) : List α :=
  entries.dropWhile fun e => decide (window ≤ now - at_ e)

theorem unexpired_sublist (at_ : α → ℕ) (window now : ℕ) (entries : List α) :
    (unexpired at_ window now entries).Sublist entries := List.dropWhile_sublist _

theorem unexpired_cons (e : α) (entries : List α) :
    unexpired at_ window now (e :: entries) =
      if window ≤ now - at_ e then unexpired at_ window now entries else e :: entries := by
  unfold unexpired
  rw [List.dropWhile_cons]
  simp only [decide_eq_true_eq]

theorem unexpired_unexpired (entries : List α) :
    unexpired at_ window now (unexpired at_ window now entries) =
      unexpired at_ window now entries := List.dropWhile_idempotent _ _

/-- Dropping what has expired keeps what is fresh, now and later. -/
theorem filter_fresh_unexpired {later : ℕ} (hle : now ≤ later)
    (hentries : ∀ e ∈ entries, at_ e ≤ now) :
    (unexpired at_ window now entries).filter
        (fun e => decide (Ledger.Fresh window later (at_ e))) =
      entries.filter fun e => decide (Ledger.Fresh window later (at_ e)) := by
  induction entries with
  | nil => rfl
  | cons e entries ih =>
    rw [unexpired_cons]
    by_cases h : window ≤ now - at_ e
    · have hat := hentries e List.mem_cons_self
      have hexpired : ¬ Ledger.Fresh window later (at_ e) := by
        show ¬ later < at_ e + window
        omega
      rw [if_pos h, List.filter_cons_of_neg (by rwa [decide_eq_true_eq])]
      exact ih fun e' he' => hentries e' (List.mem_cons_of_mem _ he')
    · rw [if_neg h]

/-- In entries that go along with time, all that is left is fresh. -/
theorem fresh_of_mem_unexpired (hsorted : entries.Pairwise fun e e' => at_ e ≤ at_ e') {e : α}
    (he : e ∈ unexpired at_ window now entries) : Ledger.Fresh window now (at_ e) := by
  induction entries with
  | nil => cases he
  | cons e₀ entries ih =>
    obtain ⟨hhead, htail⟩ := List.pairwise_cons.mp hsorted
    rw [unexpired_cons] at he
    by_cases h : window ≤ now - at_ e₀
    · rw [if_pos h] at he
      exact ih htail he
    · rw [if_neg h] at he
      show now < at_ e + window
      rcases List.mem_cons.mp he with rfl | he
      · omega
      · have := hhead e he
        omega

theorem tracks_empty : Tracks at_ view window now [] Ledger.empty := fun _ _ _ => rfl

theorem Tracks.unexpired (h : Tracks at_ view window now entries l) {later : ℕ}
    (hle : now ≤ later) (hentries : ∀ e ∈ entries, at_ e ≤ now) :
    Tracks at_ view window later (unexpired at_ window later entries) l := by
  intro later' hlater' hreports
  rw [filter_fresh_unexpired hlater' fun e he => (hentries e he).trans hle]
  exact h later' (hle.trans hlater') hreports

theorem Tracks.grant (h : Tracks at_ view window now entries l) {weight : ℕ}
    (hview : at_ (view (now, weight)) = now) :
    Tracks at_ view window now (entries ++ [view (now, weight)]) (l.grant now weight) := by
  intro later hle hreports
  show _ = ((l.grants ++ [(now, weight)]).filter _).map view
  rw [List.filter_append, List.filter_append, List.map_append, h later hle hreports]
  congr 1
  rw [List.filter_singleton, List.filter_singleton, hview]
  by_cases hfresh : Ledger.Fresh window later now
  · simp [hfresh]
  · simp [hfresh]

theorem Tracks.report (h : Tracks at_ view window now entries l) (used : ℕ) :
    Tracks at_ view window now entries (l.report now used) :=
  fun later hle hreports => h later hle fun r hr => hreports r (List.mem_append_left _ hr)

/-- Whatever a report leaves in the entries has expired with the report. -/
theorem tracks_report (hgrants : l.UpTo now) (hentries : ∀ e ∈ entries, at_ e ≤ now) (used : ℕ) :
    Tracks at_ view window now entries (l.report now used) := by
  intro later hle hreports
  have hexpired : ¬ later < now + window := hreports (now, used) (by simp [Ledger.report])
  have hleft : entries.filter (fun e => decide (Ledger.Fresh window later (at_ e))) = [] := by
    rw [List.filter_eq_nil_iff]
    intro e he
    have := hentries e he
    rw [decide_eq_true_eq]
    show ¬ later < at_ e + window
    omega
  have hright : l.grants.filter (fun e => decide (Ledger.Fresh window later e.1)) = [] := by
    rw [List.filter_eq_nil_iff]
    intro e he
    have := hgrants.grants_le e he
    rw [decide_eq_true_eq]
    show ¬ later < e.1 + window
    omega
  rw [hleft]
  show [] = (l.grants.filter _).map view
  rw [hright]
  rfl

/-- With no report that counts, the entries are the grants of the window. -/
theorem Tracks.eq_grants (h : Tracks at_ view window now entries l)
    (hfresh : ∀ e ∈ entries, Ledger.Fresh window now (at_ e))
    (hreports : ∀ r ∈ l.reports, ¬ Ledger.Fresh window now r.1) :
    entries = (l.grants.filter fun e => decide (Ledger.Fresh window now e.1)).map view := by
  rw [← h now (le_refl _) hreports]
  exact (List.filter_eq_self.mpr fun e he => decide_eq_true (hfresh e he)).symm

end Tracks

end Digdigdig3
