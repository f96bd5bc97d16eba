import Digdigdig3.Lib.HighWater

/-!
# `spawn_poller`: records that a venue is asked for

The poll actor (`crates/digdigdig3-station/src/polling.rs` lines 109–280) replays the tail of its
store and then polls a venue; a page of records is read in the order the venue lists it. A
high-water mark keeps what was delivered from being delivered again.

* `polled_eq`: what the polls deliver is what passes the mark, over all pages one after the other.
* `delivers_iff`: every new timestamp is delivered exactly when it first shows above all others.
-/

namespace Digdigdig3.Polling

variable {T : Type*} (timestampMs : T → ℤ)

/-! ## Model -/

/-- The state of the actor (lines 142–216): the fence, the errors in a row, what was broadcast
    and what was appended to the store. -/
structure Poller (T : Type*) where
  lastEmittedMs : ℤ
  consecutiveErrors : UInt32
  sent : List T
  stored : List T

/-- The warm start (lines 162–173): the tail of the store, if there is one, is broadcast. A tail
    that cannot be read is empty. -/
def warmStart (disk : Option (List T)) : Poller T :=
  (disk.getD []).foldl
    (fun s p => { s with sent := s.sent ++ [p],
                         lastEmittedMs := max s.lastEmittedMs (timestampMs p) })
    { lastEmittedMs := 0, consecutiveErrors := 0, sent := [], stored := [] }

/-- A record of a page (lines 244–257). An append to the store succeeds. -/
def deliver (disk : Option (List T)) (s : Poller T) (pt : T) : Poller T :=
  if timestampMs pt ≤ s.lastEmittedMs then s
  else
    { s with
      stored := if disk.isSome then s.stored ++ [pt] else s.stored
      lastEmittedMs := timestampMs pt
      sent := s.sent ++ [pt] }

/-- A poll (lines 219–257): a page, or an error that only counts. -/
def poll (disk : Option (List T)) (s : Poller T) : Except String (List T) → Poller T
  | .ok pts => pts.foldl (deliver timestampMs disk) { s with consecutiveErrors := 0 }
  | .error _ => { s with consecutiveErrors := s.consecutiveErrors + 1 }

/-- The actor after a sequence of polls. -/
def run (disk : Option (List T)) (polls : List (Except String (List T))) : Poller T :=
  polls.foldl (poll timestampMs disk) (warmStart timestampMs disk)

/-! ## Specification -/

/-- The records of all pages, in the order in which they are read. -/
def records (polls : List (Except String (List T))) : List T :=
  polls.flatMap fun result => result.toOption.getD []

/-- The timestamp is later than everything in the tail of the store. -/
def New (disk : Option (List T)) (t : ℤ) : Prop := ∀ p ∈ disk.getD [], timestampMs p < t

/-- Each new timestamp of a page is broadcast once and stored once, and none is broadcast or
    stored twice. -/
structure Delivers (disk : Option (List T)) (polls : List (Except String (List T))) : Prop where
  sent_once : ∀ t ∈ (records polls).map timestampMs, New timestampMs disk t →
    ((run timestampMs disk polls).sent.map timestampMs).count t = 1
  stored_once : disk.isSome → ∀ t ∈ (records polls).map timestampMs, New timestampMs disk t →
    ((run timestampMs disk polls).stored.map timestampMs).count t = 1
  sent_nodup : ((run timestampMs disk polls).sent.map timestampMs).Nodup
  stored_nodup : ((run timestampMs disk polls).stored.map timestampMs).Nodup

/-- Where a new timestamp shows for the first time, it is after the epoch and later than all that
    showed before it; and the tail of the store holds no timestamp twice. -/
def FirstShownAscending (disk : Option (List T)) (polls : List (Except String (List T))) : Prop :=
  ((disk.getD []).map timestampMs).Nodup ∧
    ∀ pre pt rest, records polls = pre ++ pt :: rest → New timestampMs disk (timestampMs pt) →
      timestampMs pt ∉ pre.map timestampMs →
        0 < timestampMs pt ∧ ∀ p ∈ pre, timestampMs p < timestampMs pt

/-! ## What the polls deliver -/

variable {timestampMs} {disk : Option (List T)}

theorem warmStart_eq (disk : Option (List T)) :
    warmStart timestampMs disk =
      { lastEmittedMs := markAfter timestampMs 0 (disk.getD []), consecutiveErrors := 0
        sent := disk.getD [], stored := [] } := by
  have hfold : ∀ (tail : List T) (mark : ℤ) (sent : List T),
      tail.foldl (fun s p => { s with sent := s.sent ++ [p],
                                      lastEmittedMs := max s.lastEmittedMs (timestampMs p) })
        ({ lastEmittedMs := mark, consecutiveErrors := 0, sent, stored := [] } : Poller T) =
      { lastEmittedMs := markAfter timestampMs mark tail, consecutiveErrors := 0
        sent := sent ++ tail, stored := [] } := by
    intro tail
    induction tail with
    | nil =>
      intro mark sent
      rw [List.append_nil]
      rfl
    | cons p tail ih =>
      intro mark sent
      rw [List.foldl_cons, ih, List.append_assoc]
      rfl
  exact hfold _ 0 []

/-- The records of a page that pass the fence are sent, and stored where there is a store. -/
theorem foldl_deliver (disk : Option (List T)) (s : Poller T) (pts : List T) :
    pts.foldl (deliver timestampMs disk) s =
      { s with
        lastEmittedMs := markAfter timestampMs s.lastEmittedMs pts
        sent := s.sent ++ highWater timestampMs s.lastEmittedMs pts
        stored := s.stored ++
          if disk.isSome then highWater timestampMs s.lastEmittedMs pts else [] } := by
  induction pts generalizing s with
  | nil => simp [markAfter, highWater]
  | cons pt pts ih =>
    rw [List.foldl_cons, ih, deliver]
    rcases le_or_gt (timestampMs pt) s.lastEmittedMs with hle | hlt
    · rw [if_pos hle, highWater_of_le hle, markAfter, markAfter, List.foldl_cons, max_eq_left hle]
    · rw [if_neg (not_le.mpr hlt), highWater_of_lt hlt, markAfter, markAfter, List.foldl_cons,
        max_eq_right hlt.le]
      cases disk.isSome <;> simp

/-- What the polls deliver is what passes the fence, over all pages one after the other. -/
theorem foldl_poll (disk : Option (List T)) (s : Poller T)
    (polls : List (Except String (List T))) :
    ∃ errors, polls.foldl (poll timestampMs disk) s =
      { lastEmittedMs := markAfter timestampMs s.lastEmittedMs (records polls)
        consecutiveErrors := errors
        sent := s.sent ++ highWater timestampMs s.lastEmittedMs (records polls)
        stored := s.stored ++
          if disk.isSome then highWater timestampMs s.lastEmittedMs (records polls) else [] } := by
  induction polls using List.reverseRecOn with
  | nil => exact ⟨s.consecutiveErrors, by simp [records, markAfter, highWater]⟩
  | append_singleton polls result ih =>
    obtain ⟨errors, hpolls⟩ := ih
    rw [List.foldl_concat, hpolls]
    have hrecords : records (polls ++ [result]) = records polls ++ result.toOption.getD [] := by
      simp [records]
    rw [hrecords, highWater_append]
    cases result with
    | error e => exact ⟨errors + 1, by simp [poll, Except.toOption, highWater]⟩
    | ok pts =>
      refine ⟨0, ?_⟩
      rw [poll, foldl_deliver]
      show _ = Poller.mk (markAfter timestampMs _ (records polls ++ pts)) _ _ _
      rw [markAfter, markAfter, markAfter, List.foldl_append]
      cases disk.isSome <;> simp [Except.toOption]

/-- The fence at the first poll. -/
def fence (timestampMs : T → ℤ) (disk : Option (List T)) : ℤ :=
  markAfter timestampMs 0 (disk.getD [])

theorem fence_lt_iff {t : ℤ} :
    fence timestampMs disk < t ↔ 0 < t ∧ New timestampMs disk t := lt_markAfter_iff

theorem sent_run (disk : Option (List T)) (polls : List (Except String (List T))) :
    (run timestampMs disk polls).sent =
      disk.getD [] ++ highWater timestampMs (fence timestampMs disk) (records polls) := by
  obtain ⟨errors, h⟩ := foldl_poll disk (warmStart timestampMs disk) polls
  rw [run, h, warmStart_eq]
  rfl

theorem stored_run (disk : Option (List T)) (polls : List (Except String (List T))) :
    (run timestampMs disk polls).stored =
      if disk.isSome then highWater timestampMs (fence timestampMs disk) (records polls)
      else [] := by
  obtain ⟨errors, h⟩ := foldl_poll disk (warmStart timestampMs disk) polls
  rw [run, h, warmStart_eq]
  rfl

theorem pairwise_polled (disk : Option (List T)) (polls : List (Except String (List T))) :
    ((highWater timestampMs (fence timestampMs disk) (records polls)).map timestampMs).Nodup :=
  (pairwise_highWater _ _).imp fun h => h.ne

/-- A new timestamp is delivered just where it first shows after the epoch and above all others. -/
theorem mem_polled_iff {polls : List (Except String (List T))} {t : ℤ} :
    t ∈ (highWater timestampMs (fence timestampMs disk) (records polls)).map timestampMs ↔
      ∃ pre pt rest, records polls = pre ++ pt :: rest ∧ timestampMs pt = t ∧
        (0 < t ∧ New timestampMs disk t) ∧ ∀ p ∈ pre, timestampMs p < t := by
  rw [mem_map_highWater_iff]
  simp only [fence_lt_iff]

/-- The first place in a list where a key shows. -/
theorem exists_first {t : ℤ} {xs : List T} (h : t ∈ xs.map timestampMs) :
    ∃ pre pt rest, xs = pre ++ pt :: rest ∧ timestampMs pt = t ∧ t ∉ pre.map timestampMs := by
  induction xs with
  | nil => cases h
  | cons x xs ih =>
    by_cases hx : timestampMs x = t
    · exact ⟨[], x, xs, rfl, hx, List.not_mem_nil⟩
    · rcases List.mem_cons.mp h with rfl | h
      · exact absurd rfl hx
      · obtain ⟨pre, pt, rest, rfl, hpt, hpre⟩ := ih h
        refine ⟨x :: pre, pt, rest, rfl, hpt, ?_⟩
        rw [List.map_cons, List.mem_cons]
        rintro (rfl | hmem)
        · exact hx rfl
        · exact hpre hmem

/-- Two splits of a list at items with one key, of which the first shows the key for the first
    time: the second is not before it. -/
theorem prefix_of_first {t : ℤ} {pre pre' rest rest' : List T} {pt pt' : T}
    (h : pre ++ pt :: rest = pre' ++ pt' :: rest') (hpt' : timestampMs pt' = t)
    (hfirst : t ∉ pre.map timestampMs) : pre <+: pre' := by
  rcases List.append_eq_append_iff.mp h with ⟨mid, rfl, -⟩ | ⟨mid, rfl, hmid⟩
  · exact List.prefix_append _ _
  · cases mid with
    | nil => simp
    | cons m mid =>
      obtain ⟨rfl, -⟩ := List.cons.inj hmid
      exact absurd (by simp [hpt']) hfirst

/-- **Main theorem.** Every new timestamp is delivered once exactly when each first shows after
    the epoch and above all before it; nothing is delivered twice but what the store repeats. -/
theorem delivers_iff (timestampMs : T → ℤ) (disk : Option (List T))
    (polls : List (Except String (List T))) :
    Delivers timestampMs disk polls ↔ FirstShownAscending timestampMs disk polls := by
  have hnodup := @pairwise_polled _ timestampMs disk polls
  have hsent := @sent_run _ timestampMs disk polls
  have hstored := @stored_run _ timestampMs disk polls
  constructor
  · intro h
    have hboth := h.sent_nodup
    rw [hsent, List.map_append] at hboth
    refine ⟨(List.nodup_append.mp hboth).1, fun pre pt rest hsplit hnew hfirst => ?_⟩
    have hmem : timestampMs pt ∈ (records polls).map timestampMs := by
      rw [hsplit]
      simp
    have hone := h.sent_once _ hmem hnew
    have hpolled : timestampMs pt ∈
        (highWater timestampMs (fence timestampMs disk) (records polls)).map timestampMs := by
      have hcount := List.count_pos_iff.mp (by rw [hone]; exact Nat.one_pos)
      rw [hsent, List.map_append, List.mem_append] at hcount
      rcases hcount with htail | hpolled
      · obtain ⟨p, hp, heq⟩ := List.mem_map.mp htail
        exact absurd heq (hnew p hp).ne
      · exact hpolled
    obtain ⟨pre', pt', rest', hsplit', hpt', ⟨hpos, -⟩, habove⟩ := mem_polled_iff.mp hpolled
    refine ⟨hpos, fun p hp => habove p ?_⟩
    have hpre := prefix_of_first (hsplit.symm.trans hsplit') hpt' hfirst
    exact hpre.subset hp
  · rintro ⟨htail, hascending⟩
    have hpolled : ∀ t ∈ (records polls).map timestampMs, New timestampMs disk t →
        t ∈ (highWater timestampMs (fence timestampMs disk) (records polls)).map timestampMs := by
      intro t ht hnew
      obtain ⟨pre, pt, rest, hsplit, rfl, hfirst⟩ := exists_first ht
      obtain ⟨hpos, habove⟩ := hascending pre pt rest hsplit hnew hfirst
      exact mem_polled_iff.mpr ⟨pre, pt, rest, hsplit, rfl, ⟨hpos, hnew⟩, habove⟩
    have hsentNodup : ((run timestampMs disk polls).sent.map timestampMs).Nodup := by
      rw [hsent, List.map_append, List.nodup_append]
      refine ⟨htail, hnodup, fun a ha b hb hab => ?_⟩
      obtain ⟨p, hp, rfl⟩ := List.mem_map.mp ha
      obtain ⟨-, -, -, -, -, ⟨-, hnew⟩, -⟩ := mem_polled_iff.mp hb
      exact absurd hab (hnew p hp).ne
    refine ⟨fun t ht hnew => ?_, fun hdisk t ht hnew => ?_, hsentNodup, ?_⟩
    · apply List.count_eq_one_of_mem hsentNodup
      rw [hsent, List.map_append]
      exact List.mem_append_right _ (hpolled t ht hnew)
    · rw [hstored, if_pos hdisk]
      exact List.count_eq_one_of_mem hnodup (hpolled t ht hnew)
    · rw [hstored]
      split_ifs
      · exact hnodup
      · exact List.nodup_nil

/-- A page that lists the newest record first: the older ones are taken for delivered. -/
theorem newest_first_page_drops_records :
    ¬∀ (disk : Option (List ℤ)) (polls : List (Except String (List ℤ))),
      Delivers id disk polls := by
  intro h
  have hmissing := (h none [.ok [300, 200]]).sent_once 200 (by decide) (by simp [New])
  revert hmissing
  decide

end Digdigdig3.Polling
