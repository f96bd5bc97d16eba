import Digdigdig3.Derived.TpoProfile
import Digdigdig3.Lib.Runs

/-!
# The history of closed TPO sessions

`maybe_roll_session` (`derived.rs` lines 1552–1575) closes the session when an event falls on
another day than the session's, whichever way: a late event from the day before closes the day
that has begun and opens the old one again. `day_start_ms` (lines 1542–1545) rounds towards
zero, so before 1970 the days it sees are not the UTC days.

Results:
* `HistoryLawful`: what the ring of closed sessions and the current session should satisfy.
* `maybeRollSession_of_ne`, `closedHistory_spec`: all that a closed session does to the ring.
* `tpo_history_lawful`: on every stream whose days do not go back the ring is lawful in every
  state, and from 1970 on on no other stream.
-/

namespace Digdigdig3.Derived

/-- What `extend_bucket` is called with (line 1580). -/
structure TpoEvent where
  tsMs : ℤ
  high : ℚ
  low : ℚ
  priceSample : ℚ
  deriving DecidableEq

/-- The UTC midnight before `tsMs`. -/
def utcDay (tsMs : ℤ) : ℤ := tsMs / 86400000 * 86400000

namespace TpoSessionState

/-- One call of `extend_bucket`. -/
def feed (s : TpoSessionState) (e : TpoEvent) : TpoSessionState :=
  s.extendBucket e.tsMs e.high e.low e.priceSample

/-- The state after the events `es`; `f` is the parameter of the stream's key. -/
def run (f : UInt16) (es : List TpoEvent) : TpoSessionState :=
  es.foldl feed (new (freqForKey f))

/-! ## Specification -/

/-- The state that has seen the events of one UTC day, and no others. -/
def daySession (f : UInt16) (day : ℤ) (es : List TpoEvent) : TpoSessionState :=
  run f (es.filter fun e => utcDay e.tsMs = day)

/-- The session of `p` was closed by an event of `es`, and `p` shows all the events of its
    UTC day in front of that one. -/
def ClosedFrom (f : UInt16) (es : List TpoEvent) (p : TpoSessionPoint) : Prop :=
  ∃ pre e, pre ++ [e] <+: es ∧ (run f pre).sessionDateMs = p.openTime ∧
    (run f (pre ++ [e])).sessionDateMs ≠ p.openTime ∧
    (daySession f p.openTime pre).buildPoint = some p

/-- What the ring and the current session have to satisfy after the events `es`. -/
structure HistoryLawful (f : UInt16) (es : List TpoEvent) : Prop where
  bounded : (run f es).history.length ≤ (run f es).maxHistorySessions
  ascending : ((run f es).history.map (·.openTime)).Pairwise (· < ·)
  once : ∀ day, ((run f es).history.filter fun p => utcDay p.openTime = day).length ≤ 1
  built : ∀ p ∈ (run f es).history, ClosedFrom f es p
  current : ∀ p ∈ (run f es).history, p.openTime ≤ (run f es).sessionDateMs

/-- The days of the events, as the code sees them, are their UTC days and never go back. -/
def DaysInOrder (es : List TpoEvent) : Prop :=
  (∀ e ∈ es, dayStartMs e.tsMs = utcDay e.tsMs) ∧
    es.Pairwise fun a b => utcDay a.tsMs ≤ utcDay b.tsMs

theorem dayStartMs_of_nonneg {tsMs : ℤ} (h : 0 ≤ tsMs) : dayStartMs tsMs = utcDay tsMs := by
  rw [dayStartMs, utcDay, Int.tdiv_eq_ediv_of_nonneg h]

theorem utcDay_nonneg {tsMs : ℤ} (h : 0 ≤ tsMs) : 0 ≤ utcDay tsMs := by
  rw [utcDay]
  omega

theorem utcDay_utcDay (tsMs : ℤ) : utcDay (utcDay tsMs) = utcDay tsMs := by
  simp only [utcDay]
  omega

theorem DaysInOrder.of_prefix {pre es : List TpoEvent} (h : DaysInOrder es) (hpre : pre <+: es) :
    DaysInOrder pre :=
  ⟨fun e he => h.1 e (hpre.subset he), h.2.sublist hpre.sublist⟩

/-! ## Closing a session -/

section Closing

variable {s : TpoSessionState} {p : TpoSessionPoint} {tsMs : ℤ} {e : TpoEvent}

/-- The ring after the session was closed (lines 1556–1566). -/
def closedHistory (s : TpoSessionState) : List TpoSessionPoint :=
  if s.buckets.any (·.isSome) ∧ s.sessionDateMs ≠ 0 then
    match s.buildPoint with
    | some closed =>
      let history := s.history ++ [closed]
      if s.maxHistorySessions < history.length then history.tail else history
    | none => s.history
  else s.history

theorem maybeRollSession_of_ne (h : dayStartMs tsMs ≠ s.sessionDateMs) :
    s.maybeRollSession tsMs =
      { s with sessionDateMs := dayStartMs tsMs, buckets := [], samples := [], tickSize := 0
               extremes := none, history := s.closedHistory } := by
  rw [maybeRollSession, if_neg h]
  rfl

theorem maybeRollSession_of_eq (h : dayStartMs tsMs = s.sessionDateMs) :
    s.maybeRollSession tsMs = s := by
  rw [maybeRollSession, if_pos h]

/-- At most one point enters the ring, the profile of the session, and the ring stays within
    its bound. -/
theorem closedHistory_spec (h : s.history.length ≤ s.maxHistorySessions) :
    s.closedHistory.length ≤ s.maxHistorySessions ∧
      (s.closedHistory = s.history ∨
        ∃ p, s.buildPoint = some p ∧ s.closedHistory.Sublist (s.history ++ [p])) := by
  rw [closedHistory]
  split_ifs with hdata
  · rcases hbuild : s.buildPoint with _ | p
    · exact ⟨h, .inl rfl⟩
    · simp only [List.length_append, List.length_singleton]
      split_ifs with hfull
      · refine ⟨?_, .inr ⟨p, rfl, List.tail_sublist _⟩⟩
        rw [List.length_tail, List.length_append, List.length_singleton]
        omega
      · refine ⟨?_, .inr ⟨p, rfl, List.Sublist.refl _⟩⟩
        rw [List.length_append, List.length_singleton]
        omega
  · exact ⟨h, .inl rfl⟩

/-- A session with an event that does not start at zero enters a ring with room for one. -/
theorem mem_closedHistory (hdata : s.buckets.any (·.isSome)) (hdate : s.sessionDateMs ≠ 0)
    (hbuild : s.buildPoint = some p) (hroom : 0 < s.maxHistorySessions) :
    p ∈ s.closedHistory := by
  rw [closedHistory, if_pos ⟨hdata, hdate⟩, hbuild]
  simp only [List.length_append, List.length_singleton]
  split_ifs with hfull
  · obtain ⟨first, rest, hrest⟩ := List.exists_cons_of_length_pos (by omega : 0 < s.history.length)
    rw [hrest]
    simp
  · simp

theorem buildPoint_openTime (h : s.buildPoint = some p) : p.openTime = s.sessionDateMs := by
  obtain ⟨⟨high, low⟩, -, hprofile⟩ := Option.bind_eq_some_iff.mp h
  obtain ⟨va, -, rfl⟩ := Option.map_eq_some_iff.mp hprofile
  rfl

/-! ## One event -/

/-- `extend_bucket` behind `maybe_roll_session` (lines 1583–1593). -/
def record (s : TpoSessionState) (e : TpoEvent) : TpoSessionState :=
  let s := { s with
    extremes := widen s.extremes e.high e.low, samples := s.samples ++ [e.priceSample] }
  let s := { s with
    tickSize := if s.tickSize = 0 ∧ 10 ≤ s.samples.length then s.detectTickSize else s.tickSize }
  { s with buckets := fillBucket s.buckets (s.bucketIdx e.tsMs) e.high e.low }

theorem feed_eq (s : TpoSessionState) (e : TpoEvent) :
    s.feed e = (s.maybeRollSession e.tsMs).record e := rfl

@[simp] theorem feed_history (s : TpoSessionState) (e : TpoEvent) :
    (s.feed e).history = (s.maybeRollSession e.tsMs).history := rfl

@[simp] theorem feed_sessionDateMs (s : TpoSessionState) (e : TpoEvent) :
    (s.feed e).sessionDateMs = dayStartMs e.tsMs := by
  change (s.maybeRollSession e.tsMs).sessionDateMs = _
  by_cases h : dayStartMs e.tsMs = s.sessionDateMs
  · rw [maybeRollSession_of_eq h, h]
  · rw [maybeRollSession_of_ne h]

theorem feed_any (s : TpoSessionState) (e : TpoEvent) : (s.feed e).buckets.any (·.isSome) := by
  obtain ⟨bi, range, hbi⟩ := exists_fillBucket (s.maybeRollSession e.tsMs).buckets
    ((s.maybeRollSession e.tsMs).bucketIdx e.tsMs) e.high e.low
  exact List.any_eq_true.mpr ⟨some range, List.mem_of_getElem? hbi, rfl⟩

/-- The session without the ring. -/
def session (s : TpoSessionState) : TpoSessionState := { s with history := [] }

theorem buildPoint_session (s : TpoSessionState) : s.session.buildPoint = s.buildPoint := rfl

theorem record_session (s : TpoSessionState) (e : TpoEvent) :
    (s.record e).session = s.session.record e := rfl

/-- The session that starts on the day `day` without events. -/
def freshOn (f : UInt16) (day : ℤ) : TpoSessionState :=
  { new (freqForKey f) with sessionDateMs := day }

end Closing

/-! ## Runs -/

section Runs

variable {f : UInt16} {es : List TpoEvent} {e : TpoEvent} {s : TpoSessionState}

theorem run_concat (f : UInt16) (es : List TpoEvent) (e : TpoEvent) :
    run f (es ++ [e]) = (run f es).feed e := List.foldl_concat _ _ _ _

/-- What the stream's key and `new` set, and nothing changes. -/
def SameSettings (f : UInt16) (s : TpoSessionState) : Prop :=
  s.freqMinutes = freqForKey f ∧ s.valueAreaPct = 7 / 10 ∧ s.maxHistorySessions = 10

theorem SameSettings.maybeRollSession (h : SameSettings f s) (tsMs : ℤ) :
    SameSettings f (s.maybeRollSession tsMs) := by
  by_cases hday : dayStartMs tsMs = s.sessionDateMs
  · rwa [maybeRollSession_of_eq hday]
  · rw [maybeRollSession_of_ne hday]
    exact h

theorem run_settings (f : UInt16) (es : List TpoEvent) : SameSettings f (run f es) := by
  have hnew : SameSettings f (new (freqForKey f)) := ⟨rfl, rfl, rfl⟩
  exact foldl_invariant hnew (fun _ e h => h.maybeRollSession e.tsMs) es

/-- A session that was closed starts from nothing. -/
theorem session_maybeRollSession_of_ne {tsMs : ℤ} (hs : SameSettings f s)
    (h : dayStartMs tsMs ≠ s.sessionDateMs) :
    (s.maybeRollSession tsMs).session = freshOn f (dayStartMs tsMs) := by
  rw [maybeRollSession_of_ne h]
  obtain ⟨hfreq, hpct, hmax⟩ := hs
  cases s
  simp only at hfreq hpct hmax
  subst hfreq hpct hmax
  rfl

/-- The first event of a stream starts its session from nothing. -/
theorem session_maybeRollSession_new (f : UInt16) (tsMs : ℤ) :
    ((new (freqForKey f)).maybeRollSession tsMs).session = freshOn f (dayStartMs tsMs) := by
  by_cases h : dayStartMs tsMs = 0
  · rw [maybeRollSession_of_eq h, h]
    rfl
  · exact session_maybeRollSession_of_ne ⟨rfl, rfl, rfl⟩ h

/-- A stream that has had an event is in a session with a profile. -/
theorem reachable_run (f : UInt16) (es : List TpoEvent) (e : TpoEvent) :
    Reachable f (run f (es ++ [e])) := by
  induction es using List.reverseRecOn generalizing e with
  | nil => exact .first e.tsMs e.high e.low e.priceSample
  | append_singleton es e' ih =>
    rw [run_concat]
    exact .fed (ih e') e.tsMs e.high e.low e.priceSample

theorem exists_buildPoint (f : UInt16) (es : List TpoEvent) (e : TpoEvent) :
    ∃ p, (run f (es ++ [e])).buildPoint = some p := by
  obtain ⟨high, low, hext⟩ := (reachable_run f es e).extended
  obtain ⟨p, hp, -⟩ := profile_spec hext.pct high low
  exact ⟨p, by rw [buildPoint, hext.extremes]; exact hp⟩

/-- What holds after a stream whose days are in order: beside the lawful ring, the session is
    that of its day's events, and no event fell on a later day. -/
structure InOrder (f : UInt16) (es : List TpoEvent) : Prop where
  length_le : (run f es).history.length ≤ 10
  ascending : ((run f es).history.map (·.openTime)).Pairwise (· < ·)
  utc : ∀ p ∈ (run f es).history, utcDay p.openTime = p.openTime
  built : ∀ p ∈ (run f es).history, ClosedFrom f es p
  before : ∀ p ∈ (run f es).history, p.openTime < (run f es).sessionDateMs
  last : ∀ e ∈ es, utcDay e.tsMs ≤ (run f es).sessionDateMs
  session : (run f es).session = (daySession f (run f es).sessionDateMs es).session
  isDay : utcDay (run f es).sessionDateMs = (run f es).sessionDateMs

theorem ClosedFrom.concat {p : TpoSessionPoint} (h : ClosedFrom f es p) (e : TpoEvent) :
    ClosedFrom f (es ++ [e]) p := by
  obtain ⟨pre, e', hpre, hclosed⟩ := h
  exact ⟨pre, e', hpre.trans (List.prefix_append _ _), hclosed⟩

theorem daySession_concat_of_eq {day : ℤ} (h : utcDay e.tsMs = day) :
    daySession f day (es ++ [e]) = (daySession f day es).feed e := by
  rw [daySession, List.filter_append, List.filter_singleton, decide_eq_true h, cond_true,
    run_concat]
  rfl

theorem daySession_of_forall_ne {day : ℤ} (h : ∀ e ∈ es, utcDay e.tsMs ≠ day) :
    daySession f day es = new (freqForKey f) := by
  have hfilter : (es.filter fun e => utcDay e.tsMs = day) = [] :=
    List.filter_eq_nil_iff.mpr fun e he => by simpa using h e he
  rw [daySession, hfilter]
  rfl

theorem inOrder_nil (f : UInt16) : InOrder f [] where
  length_le := Nat.zero_le _
  ascending := List.Pairwise.nil
  utc := nofun
  built := nofun
  before := nofun
  last := nofun
  session := rfl
  isDay := rfl

/-- An event of the day of the session. -/
theorem InOrder.stay (h : InOrder f es) (hutc : dayStartMs e.tsMs = utcDay e.tsMs)
    (hday : dayStartMs e.tsMs = (run f es).sessionDateMs) : InOrder f (es ++ [e]) := by
  have hroll := maybeRollSession_of_eq hday
  have hhistory : (run f (es ++ [e])).history = (run f es).history := by
    rw [run_concat, feed_history, hroll]
  have hdate : (run f (es ++ [e])).sessionDateMs = (run f es).sessionDateMs := by
    rw [run_concat, feed_sessionDateMs, hday]
  refine ⟨?_, ?_, ?_, ?_, ?_, ?_, ?_, ?_⟩
  · rw [hhistory]
    exact h.length_le
  · rw [hhistory]
    exact h.ascending
  · rw [hhistory]
    exact h.utc
  · rw [hhistory]
    exact fun p hp => (h.built p hp).concat e
  · rw [hhistory, hdate]
    exact h.before
  · rw [hdate, List.forall_mem_append, List.forall_mem_singleton]
    exact ⟨h.last, (hutc.symm.trans hday).le⟩
  · -- the session of the day stays on the day as well
    have hsame : (daySession f (run f es).sessionDateMs es).sessionDateMs =
        (run f es).sessionDateMs := (congrArg sessionDateMs h.session).symm
    rw [hdate, daySession_concat_of_eq (hutc.symm.trans hday), run_concat, feed_eq, feed_eq, hroll,
      maybeRollSession_of_eq (hday.trans hsame.symm), record_session, record_session, h.session]
  · rw [hdate]
    exact h.isDay

/-- An event of a later day, or the first one. -/
theorem InOrder.advance (h : InOrder f es) (hutc : dayStartMs e.tsMs = utcDay e.tsMs)
    (hday : dayStartMs e.tsMs ≠ (run f es).sessionDateMs)
    (hlater : es = [] ∨ (run f es).sessionDateMs < dayStartMs e.tsMs) :
    InOrder f (es ++ [e]) := by
  obtain ⟨-, -, hmax⟩ := run_settings f es
  have hhistory : (run f (es ++ [e])).history = (run f es).closedHistory := by
    rw [run_concat, feed_history, maybeRollSession_of_ne hday]
  have hdate : (run f (es ++ [e])).sessionDateMs = dayStartMs e.tsMs := by
    rw [run_concat, feed_sessionDateMs]
  obtain ⟨hlength, hspec⟩ := closedHistory_spec (h.length_le.trans_eq hmax.symm)
  -- what enters the ring is the profile of a session that had events
  have hclosed : (run f es).closedHistory = (run f es).history ∨
      ∃ p, (run f es).buildPoint = some p ∧ p.openTime < dayStartMs e.tsMs ∧
        (run f es).closedHistory.Sublist ((run f es).history ++ [p]) := by
    refine hspec.imp_right ?_
    rintro ⟨p, hp, hsub⟩
    rcases hlater with rfl | hlater
    · cases hp
    · exact ⟨p, hp, (buildPoint_openTime hp).trans_lt hlater, hsub⟩
  have hold : ∀ p ∈ (run f es).history, p.openTime < dayStartMs e.tsMs := by
    intro p hp
    rcases hlater with rfl | hlater
    · cases hp
    · exact (h.before p hp).trans hlater
  have hmem : ∀ p ∈ (run f es).closedHistory,
      p ∈ (run f es).history ∨ (run f es).buildPoint = some p ∧ p.openTime < dayStartMs e.tsMs := by
    intro p hp
    rcases hclosed with heq | ⟨q, hq, hlt, hsub⟩
    · rw [heq] at hp
      exact .inl hp
    · refine (List.mem_append.mp (hsub.subset hp)).imp_right fun hp => ?_
      rw [List.mem_singleton.mp hp]
      exact ⟨hq, hlt⟩
  refine ⟨?_, ?_, ?_, ?_, ?_, ?_, ?_, ?_⟩
  · rw [hhistory]
    exact hlength.trans_eq hmax
  · rw [hhistory]
    rcases hclosed with heq | ⟨p, hp, -, hsub⟩
    · rw [heq]
      exact h.ascending
    · refine List.Pairwise.sublist (hsub.map (·.openTime)) ?_
      rw [List.map_append, List.pairwise_append]
      refine ⟨h.ascending, List.pairwise_singleton _ _, ?_⟩
      intro time htime time' htime'
      obtain ⟨q, hq, rfl⟩ := List.mem_map.mp htime
      rw [List.map_singleton, List.mem_singleton] at htime'
      rw [htime', buildPoint_openTime hp]
      exact h.before q hq
  · rw [hhistory]
    intro p hp
    rcases hmem p hp with hp | ⟨hp, -⟩
    · exact h.utc p hp
    · rw [buildPoint_openTime hp]
      exact h.isDay
  · rw [hhistory]
    intro p hp
    rcases hmem p hp with hp | ⟨hp, -⟩
    · exact (h.built p hp).concat e
    · have hopen := buildPoint_openTime hp
      refine ⟨es, e, List.prefix_refl _, hopen.symm, ?_, ?_⟩
      · rw [hdate, hopen]
        exact hday
      · rw [hopen, ← buildPoint_session, ← h.session]
        exact hp
  · rw [hhistory, hdate]
    intro p hp
    rcases hmem p hp with hp | ⟨-, hlt⟩
    · exact hold p hp
    · exact hlt
  · rw [hdate, List.forall_mem_append, List.forall_mem_singleton]
    refine ⟨fun e' he' => ?_, hutc.ge⟩
    rcases hlater with rfl | hlater
    · cases he'
    · exact (h.last e' he').trans hlater.le
  · -- no event in front of this one fell on its day
    have hnone : ∀ e' ∈ es, utcDay e'.tsMs ≠ dayStartMs e.tsMs := by
      intro e' he'
      rcases hlater with rfl | hlater
      · cases he'
      · exact ((h.last e' he').trans_lt hlater).ne
    rw [hdate, daySession_concat_of_eq hutc.symm, run_concat, daySession_of_forall_ne hnone,
      feed_eq, feed_eq, record_session, record_session, session_maybeRollSession_new,
      session_maybeRollSession_of_ne (run_settings f es) hday]
  · rw [hdate, hutc]
    exact utcDay_utcDay _

/-- The session's day is that of the last event. -/
theorem eq_nil_or_sessionDateMs (f : UInt16) (es : List TpoEvent) :
    es = [] ∨ ∃ e ∈ es, (run f es).sessionDateMs = dayStartMs e.tsMs := by
  rcases List.eq_nil_or_concat es with rfl | ⟨es, e, rfl⟩
  · exact .inl rfl
  · refine .inr ⟨e, by simp, ?_⟩
    rw [List.concat_eq_append, run_concat, feed_sessionDateMs]

/-- **Run lemma.** -/
theorem DaysInOrder.inOrder (h : DaysInOrder es) : InOrder f es := by
  induction es using List.reverseRecOn with
  | nil => exact inOrder_nil f
  | append_singleton es e ih =>
    have hes := ih (h.of_prefix (List.prefix_append _ _))
    have hutc := h.1 e (by simp)
    by_cases hday : dayStartMs e.tsMs = (run f es).sessionDateMs
    · exact hes.stay hutc hday
    · refine hes.advance hutc hday ?_
      refine (eq_nil_or_sessionDateMs f es).imp_right ?_
      rintro ⟨e', he', hdate⟩
      have hle := (List.pairwise_append.mp h.2).2.2 e' he' e (List.mem_singleton_self e)
      have hutc' := h.1 e' (List.mem_append_left _ he')
      omega

/-- In order, at most one point of the ring falls on a day. -/
theorem length_filter_utcDay_le {history : List TpoSessionPoint}
    (hascending : (history.map (·.openTime)).Pairwise (· < ·))
    (hutc : ∀ p ∈ history, utcDay p.openTime = p.openTime) (day : ℤ) :
    (history.filter fun p => utcDay p.openTime = day).length ≤ 1 := by
  have hpair := (List.pairwise_map.mp hascending).sublist
    (List.filter_sublist (p := fun p => decide (utcDay p.openTime = day)))
  rcases hfilter : history.filter fun p => utcDay p.openTime = day with _ | ⟨p, _ | ⟨q, rest⟩⟩
  · rw [hfilter]
    exact Nat.zero_le _
  · rw [hfilter]
    exact le_rfl
  · have hmem : ∀ r ∈ [p, q], r ∈ history ∧ utcDay r.openTime = day := by
      intro r hr
      have hr' : r ∈ history.filter fun p => utcDay p.openTime = day := by
        rw [hfilter]
        exact List.mem_of_mem_take (i := 2) hr
      simpa using hr'
    obtain ⟨hp, hpday⟩ := hmem p (by simp)
    obtain ⟨hq, hqday⟩ := hmem q (by simp)
    have hlt : p.openTime < q.openTime := by
      rw [hfilter] at hpair
      exact List.rel_of_pairwise_cons hpair (by simp)
    have := hutc p hp
    have := hutc q hq
    omega

theorem InOrder.lawful (h : InOrder f es) : HistoryLawful f es where
  bounded := h.length_le.trans_eq (run_settings f es).2.2.symm
  ascending := h.ascending
  once := length_filter_utcDay_le h.ascending h.utc
  built := h.built
  current p hp := (h.before p hp).le

/-- An event of an earlier day puts the session behind the one that it closes. -/
theorem HistoryLawful.day_le (h : HistoryLawful f (es ++ [e])) (hne : es ≠ [])
    (hpos : 0 ≤ dayStartMs e.tsMs) : (run f es).sessionDateMs ≤ dayStartMs e.tsMs := by
  by_contra hback
  obtain ⟨es, e', rfl⟩ := (List.eq_nil_or_concat es).resolve_left hne
  rw [List.concat_eq_append] at h hback
  obtain ⟨p, hp⟩ := exists_buildPoint f es e'
  have hmem : p ∈ (run f (es ++ [e'] ++ [e])).history := by
    rw [run_concat _ (es ++ [e']), feed_history, maybeRollSession_of_ne (by omega)]
    refine mem_closedHistory ?_ (by omega) hp ?_
    · rw [run_concat]
      exact feed_any _ e'
    · rw [(run_settings f _).2.2]
      decide
  have hle := h.current p hmem
  rw [run_concat _ (es ++ [e']), feed_sessionDateMs, buildPoint_openTime hp] at hle
  exact hback hle

theorem daysInOrder_of_lawful (hpos : ∀ e ∈ es, 0 ≤ e.tsMs)
    (h : ∀ pre, pre <+: es → HistoryLawful f pre) : DaysInOrder es := by
  refine ⟨fun e he => dayStartMs_of_nonneg (hpos e he), ?_⟩
  induction es using List.reverseRecOn with
  | nil => exact List.Pairwise.nil
  | append_singleton es e ih =>
    have hpos' : ∀ e' ∈ es, 0 ≤ e'.tsMs := fun e' he' => hpos e' (List.mem_append_left _ he')
    have hpairwise := ih hpos' fun pre hpre => h pre (hpre.trans (List.prefix_append _ _))
    have hday := dayStartMs_of_nonneg (hpos e (by simp))
    rw [List.pairwise_append]
    refine ⟨hpairwise, List.pairwise_singleton _ _, ?_⟩
    intro a ha b hb
    rw [List.mem_singleton.mp hb]
    have hes : InOrder f es :=
      DaysInOrder.inOrder ⟨fun e' he' => dayStartMs_of_nonneg (hpos' e' he'), hpairwise⟩
    have hle := (h _ (List.prefix_refl _)).day_le (List.ne_nil_of_mem ha)
      (hday ▸ utcDay_nonneg (hpos e (by simp)))
    exact (hes.last a ha).trans (hle.trans_eq hday)

end Runs

/-- **Main theorem.** Where the days never go back, and are the UTC days, the ring and the
    current session are lawful in every state; a stream from 1970 on is lawful in every state
    only where the days never go back. -/
theorem tpo_history_lawful (f : UInt16) (es : List TpoEvent) :
    (DaysInOrder es → ∀ pre, pre <+: es → HistoryLawful f pre) ∧
      ((∀ e ∈ es, 0 ≤ e.tsMs) →
        ((∀ pre, pre <+: es → HistoryLawful f pre) ↔ DaysInOrder es)) := by
  have hlawful : DaysInOrder es → ∀ pre, pre <+: es → HistoryLawful f pre :=
    fun h pre hpre => (h.of_prefix hpre).inOrder.lawful
  exact ⟨hlawful, fun hpos => ⟨daysInOrder_of_lawful hpos, hlawful⟩⟩

/-- A trade at `100`. -/
def tradeAt (tsMs : ℤ) : TpoEvent := { tsMs := tsMs, high := 100, low := 100, priceSample := 100 }

/-- Two days of January 1970 with a late trade of the first after midnight: the ring holds the
    second of January, the third, and the second again. -/
theorem not_lawful_of_late_trade :
    ¬ HistoryLawful 30 [tradeAt 86400000, tradeAt 172800000, tradeAt 172799999,
      tradeAt 172800001] := by
  intro h
  have hascending := h.ascending
  revert hascending
  decide +kernel

end TpoSessionState

end Digdigdig3.Derived
