import Digdigdig3.Series.Store

/-!
# Crash recovery of `DiskStore`

Runs of one store within one UTC day: appends, flushes, and crashes that cut the three
files independently, each followed by a reopen. `append` continues at the length of the
files, and `read_day_tail` counts its records from the end of `.dat`, so a `.dat` file that
ends within a record shifts every record that is read. `flush_sync` writes `.dat` before
`.blob`, so a header can survive its blob bytes, and the bytes of the next record take
their place.

Results:
* `inv_append`, `inv_flush`, `inv_crash`: what each safe step preserves.
* `readTail_sound_of_safe_run`: in a run without such a crash, `read_tail` returns the
  tail of a list that has every flushed point and only appended ones.
-/

namespace Digdigdig3.Series.DiskStore

variable {P : Type} (T : DataPoint P)

/-- A step of a run; `crash` includes the reopen after it. -/
inductive Op (P : Type) where
  | append (point : P)
  | flush
  | crash (nDat nIdx nBlob : ℕ)

def step (s : DiskStore) : Op P → DiskStore
  | .append point => s.append T point
  | .flush => s.flushSync
  | .crash nDat nIdx nBlob => s.crash T nDat nIdx nBlob

/-- The store after `ops`, in a directory that was empty before. -/
def run (idxEvery : ℕ) (ops : List (Op P)) : DiskStore :=
  ops.foldl (step T) (create T idxEvery)

/-- What the caller knows: the points appended so far, those of them whose flush
    completed, and those appended since the last flush or crash. -/
structure Ledger (P : Type) where
  appended : List P
  flushed : List P
  pending : List P

def Ledger.step (L : Ledger P) : Op P → Ledger P
  | .append point =>
    { L with appended := L.appended ++ [point], pending := L.pending ++ [point] }
  | .flush => { L with flushed := L.flushed ++ L.pending, pending := [] }
  | .crash _ _ _ => { L with pending := [] }

def ledger (ops : List (Op P)) : Ledger P := ops.foldl Ledger.step ⟨[], [], []⟩

/-- `read_tail` returns the tail of a list with every flushed point and only appended
    ones, in the order of the appends, whatever the limit. -/
def Sound (s : DiskStore) (L : Ledger P) : Prop :=
  ∀ limit, ∃ kept, L.flushed.Sublist kept ∧ kept.Sublist L.appended ∧
    s.readTail T limit = kept.drop (kept.length - limit)

/-! ## Safe steps -/

/-- The whole records of a `.dat` file. -/
def wholeChunks (dat : Bytes) : List Bytes :=
  chunksExact T.recordSize (dat.length / T.recordSize) dat

/-- Every header on disk has its blob bytes. -/
def NoneDangling (s : DiskStore) : Prop :=
  ∀ chunk ∈ wholeChunks T s.dat.bytes, Complete T s.files.blob chunk

instance (s : DiskStore) : Decidable (NoneDangling T s) :=
  inferInstanceAs (Decidable (∀ chunk ∈ wholeChunks T s.dat.bytes, Complete T s.files.blob chunk))

/-- A point that reads back from its own record is appended to a `.dat` file that ends
    with a whole record, and no header lacks its blob bytes. -/
structure AppendSafe (s : DiskStore) (point : P) : Prop where
  roundTrips : T.RoundTrips point
  blob_lt : s.blobPos + ((T.encodeBlob point).getD []).length < 2 ^ 64
  aligned : T.recordSize ∣ s.dat.bytes.length
  noneDangling : NoneDangling T s

/-- The crash cut `.dat` between two records or left less than one, and every surviving
    header kept its blob bytes or nothing had been flushed. -/
structure CrashSafe (s : DiskStore) (flushed : List P) : Prop where
  aligned : T.recordSize ∣ s.dat.bytes.length ∨ s.dat.bytes.length < T.recordSize
  noneDangling : flushed = [] ∨ NoneDangling T s

def StepSafe (s : DiskStore) (L : Ledger P) : Op P → Prop
  | .append point => AppendSafe T s point
  | .flush => True
  | .crash nDat nIdx nBlob => CrashSafe T (s.crash T nDat nIdx nBlob) L.flushed

/-- Every step of the run is safe in the state it is taken in. -/
def RunSafe (s : DiskStore) (L : Ledger P) : List (Op P) → Prop
  | [] => True
  | op :: ops => StepSafe T s L op ∧ RunSafe (step T s op) (L.step op) ops

/-! ## The invariant -/

/-- The `.dat` file is the records `kept`, and less than a record behind them when there
    is none. -/
structure Inv (s : DiskStore) (L : Ledger P) (kept : List (P × Bytes)) (torn : Bytes) :
    Prop where
  dat_eq : s.dat.bytes = (kept.map Prod.snd).flatten ++ torn
  size : ∀ r ∈ kept, r.2.length = T.recordSize
  torn_lt : torn.length < T.recordSize
  torn_nil : kept = [] ∨ torn = []
  blobPos_eq : ∀ b, s.blob = some b → s.blobPos = b.bytes.length
  blob_isSome : s.blob.isSome = T.blobPointerOffset.isSome
  older_nil : s.older = []
  decodes : ∀ r ∈ kept, Complete T s.files.blob r.2 →
    decodeChunk T s.files.blob r.2 = some r.1
  complete : (∀ r ∈ kept, Complete T s.files.blob r.2) ∨ (L.flushed = [] ∧ L.pending = [])
  kept_sublist : (kept.map Prod.fst).Sublist L.appended
  flushed_sublist : ∃ older, kept.map Prod.fst = older ++ L.pending ∧
    L.flushed.Sublist (older.take (s.dat.durable / T.recordSize))

variable {T} {s : DiskStore} {L : Ledger P} {kept : List (P × Bytes)} {torn : Bytes}

theorem Inv.size_chunks (h : Inv T s L kept torn) :
    ∀ c ∈ kept.map Prod.snd, c.length = T.recordSize := by
  intro c hc
  obtain ⟨r, hr, rfl⟩ := List.mem_map.mp hc
  exact h.size r hr

theorem wholeChunks_flatten_append {chunks : List Bytes}
    (hsize : ∀ c ∈ chunks, c.length = T.recordSize) (htorn : torn.length < T.recordSize) :
    wholeChunks T (chunks.flatten ++ torn) = chunks := by
  have hdiv : (chunks.flatten ++ torn).length / T.recordSize = chunks.length := by
    rw [List.length_append, length_flatten_of_size hsize, Nat.mul_comm,
      Nat.mul_add_div T.recordSize_pos, Nat.div_eq_of_lt htorn, Nat.add_zero]
  rw [wholeChunks, hdiv]
  exact chunksExact_flatten hsize torn

theorem Inv.wholeChunks_eq (h : Inv T s L kept torn) :
    wholeChunks T s.dat.bytes = kept.map Prod.snd := by
  rw [h.dat_eq]
  exact wholeChunks_flatten_append h.size_chunks h.torn_lt

theorem Inv.length_dat (h : Inv T s L kept torn) :
    s.dat.bytes.length = kept.length * T.recordSize + torn.length := by
  rw [h.dat_eq, List.length_append, length_flatten_of_size h.size_chunks, List.length_map]

theorem Inv.div_length_dat (h : Inv T s L kept torn) :
    s.dat.bytes.length / T.recordSize = kept.length := by
  rw [h.length_dat, Nat.mul_comm, Nat.mul_add_div T.recordSize_pos, Nat.div_eq_of_lt h.torn_lt,
    Nat.add_zero]

theorem Inv.complete_of_noneDangling (h : Inv T s L kept torn) (hn : NoneDangling T s) :
    ∀ r ∈ kept, Complete T s.files.blob r.2 := by
  intro r hr
  apply hn
  rw [h.wholeChunks_eq]
  exact List.mem_map_of_mem hr

theorem Inv.torn_eq_nil (h : Inv T s L kept torn) (hdvd : T.recordSize ∣ s.dat.bytes.length) :
    torn = [] := by
  rw [h.length_dat, Nat.dvd_add_right (Dvd.intro_left _ rfl)] at hdvd
  exact List.length_eq_zero_iff.mp (Nat.eq_zero_of_dvd_of_lt hdvd h.torn_lt)

theorem inv_create (idxEvery : ℕ) : Inv T (create T idxEvery) ⟨[], [], []⟩ [] [] where
  dat_eq := rfl
  size := by simp
  torn_lt := T.recordSize_pos
  torn_nil := .inl rfl
  blobPos_eq := by
    intro b hb
    simp only [create, withIdxEvery] at hb ⊢
    rw [hb]
    rfl
  blob_isSome := by simp [create, withIdxEvery]
  older_nil := rfl
  decodes := by simp
  complete := .inl (by simp)
  kept_sublist := List.Sublist.refl _
  flushed_sublist := ⟨[], rfl, List.nil_sublist _⟩

/-! ## What a step preserves -/

theorem files_flushSync (s : DiskStore) : s.flushSync.files = s.files := by
  unfold files flushSync
  cases s.blob with
  | none => rfl
  | some b => rfl

theorem inv_flush (h : Inv T s L kept torn) :
    Inv T s.flushSync (L.step .flush) kept torn where
  dat_eq := h.dat_eq
  size := h.size
  torn_lt := h.torn_lt
  torn_nil := h.torn_nil
  blobPos_eq := by
    intro b hb
    obtain ⟨b', hb', rfl⟩ := Option.map_eq_some_iff.mp hb
    exact h.blobPos_eq b' hb'
  blob_isSome := by
    rw [← h.blob_isSome]
    exact Option.isSome_map
  older_nil := h.older_nil
  decodes := by
    rw [files_flushSync]
    exact h.decodes
  complete := by
    rw [files_flushSync]
    rcases h.complete with hall | ⟨hflushed, hpending⟩
    · exact .inl hall
    · right
      simp only [Ledger.step, hflushed, hpending, List.append_nil, and_self]
  kept_sublist := h.kept_sublist
  flushed_sublist := by
    obtain ⟨older, hkept, hflushed⟩ := h.flushed_sublist
    refine ⟨kept.map Prod.fst, (List.append_nil _).symm, ?_⟩
    have hdiv : s.flushSync.dat.durable / T.recordSize = kept.length := h.div_length_dat
    rw [hdiv, List.take_of_length_le (by rw [List.length_map]), hkept]
    exact (hflushed.trans (List.take_sublist _ _)).append (List.Sublist.refl _)

/-- The surviving bytes of the blob file are the first of those there were. -/
theorem files_crash (s : DiskStore) (hblob : s.blob.isSome = T.blobPointerOffset.isSome)
    (nDat nIdx nBlob : ℕ) :
    (s.files.blob = none ∧ (s.crash T nDat nIdx nBlob).files.blob = none) ∨
    ∃ bf x, (s.crash T nDat nIdx nBlob).files.blob = some bf ∧ s.files.blob = some (bf ++ x) := by
  unfold crash withIdxEvery files
  cases hoff : T.blobPointerOffset with
  | none =>
    rw [hoff, Option.isSome_none, Option.isSome_eq_false_iff, Option.isNone_iff_eq_none] at hblob
    exact .inl ⟨by rw [hblob]; rfl, rfl⟩
  | some tailOff =>
    rw [hoff, Option.isSome_some, Option.isSome_iff_exists] at hblob
    obtain ⟨b, hb⟩ := hblob
    rw [hb]
    obtain ⟨x, hx⟩ := b.bytes_crash_prefix nBlob
    exact .inr ⟨(b.crash nBlob).bytes, x, rfl, by rw [hx]; rfl⟩

/-- A record that survives with its blob bytes decodes as before. -/
theorem decodes_crash (h : Inv T s L kept torn) (nDat nIdx nBlob : ℕ) :
    ∀ r ∈ kept, Complete T (s.crash T nDat nIdx nBlob).files.blob r.2 →
      decodeChunk T (s.crash T nDat nIdx nBlob).files.blob r.2 = some r.1 := by
  intro r hr hcomplete
  rcases files_crash s h.blob_isSome nDat nIdx nBlob with ⟨hnone, hnone'⟩ | ⟨bf, x, hbf, hbfx⟩
  · rw [hnone'] at hcomplete ⊢
    rw [← hnone] at hcomplete ⊢
    exact h.decodes r hr hcomplete
  · rw [hbf] at hcomplete ⊢
    rw [← decodeChunk_append T hcomplete x, ← hbfx]
    apply h.decodes r hr
    rw [hbfx]
    exact hcomplete.append T x

/-- A cut at a record boundary, or in front of the first one, keeps whole records. -/
theorem dat_crash (h : Inv T s L kept torn) (nDat : ℕ)
    (hcut : T.recordSize ∣ (s.dat.crash nDat).bytes.length ∨
      (s.dat.crash nDat).bytes.length < T.recordSize) :
    ∃ torn', (s.dat.crash nDat).bytes =
        ((kept.take ((s.dat.crash nDat).bytes.length / T.recordSize)).map Prod.snd).flatten ++
          torn' ∧
      torn'.length < T.recordSize ∧
      (kept.take ((s.dat.crash nDat).bytes.length / T.recordSize) = [] ∨ torn' = []) := by
  obtain ⟨x, hx⟩ := s.dat.bytes_crash_prefix nDat
  rcases hcut with ⟨n, hn⟩ | hlt
  · refine ⟨[], ?_, T.recordSize_pos, .inr rfl⟩
    have hdiv : (s.dat.crash nDat).bytes.length / T.recordSize = n := by
      rw [hn, Nat.mul_div_cancel_left n T.recordSize_pos]
    have hle : n * T.recordSize ≤ ((kept.map Prod.snd).flatten ++ torn).length := by
      rw [← h.dat_eq, ← hx, List.length_append, hn, Nat.mul_comm]
      exact Nat.le_add_right _ _
    obtain ⟨-, htake⟩ := take_flatten_append h.size_chunks h.torn_lt hle
    rw [hdiv, List.append_nil, List.map_take, ← htake, ← h.dat_eq, ← hx]
    exact (List.take_left' (by rw [hn, Nat.mul_comm])).symm
  · refine ⟨(s.dat.crash nDat).bytes, ?_, hlt, .inl ?_⟩
    · rw [Nat.div_eq_of_lt hlt]
      rfl
    · rw [Nat.div_eq_of_lt hlt]
      rfl

theorem inv_crash (h : Inv T s L kept torn) {nDat nIdx nBlob : ℕ}
    (hsafe : CrashSafe T (s.crash T nDat nIdx nBlob) L.flushed) :
    ∃ kept' torn', Inv T (s.crash T nDat nIdx nBlob) (L.step (.crash nDat nIdx nBlob))
      kept' torn' := by
  obtain ⟨torn', hdat, htorn, hnil⟩ := dat_crash h nDat hsafe.aligned
  set n := (s.dat.crash nDat).bytes.length / T.recordSize with hn
  have hmem : ∀ r ∈ kept.take n, r ∈ kept := fun r hr => List.mem_of_mem_take hr
  have hsize : ∀ r ∈ kept.take n, r.2.length = T.recordSize := fun r hr => h.size r (hmem r hr)
  have hchunks : wholeChunks T (s.crash T nDat nIdx nBlob).dat.bytes =
      (kept.take n).map Prod.snd := by
    rw [show (s.crash T nDat nIdx nBlob).dat.bytes = _ from hdat]
    apply wholeChunks_flatten_append _ htorn
    intro c hc
    obtain ⟨r, hr, rfl⟩ := List.mem_map.mp hc
    exact hsize r hr
  refine ⟨kept.take n, torn', hdat, hsize, htorn, hnil, ?_, ?_, h.older_nil, ?_, ?_, ?_, ?_⟩
  · intro b hb
    simp only [crash, withIdxEvery] at hb ⊢
    rw [hb]
    rfl
  · simp [crash, withIdxEvery]
  · exact fun r hr => decodes_crash h nDat nIdx nBlob r (hmem r hr)
  · rcases hsafe.noneDangling with hflushed | hnone
    · exact .inr ⟨hflushed, rfl⟩
    · left
      intro r hr
      apply hnone
      rw [hchunks]
      exact List.mem_map_of_mem hr
  · exact ((List.take_sublist n kept).map Prod.fst).trans h.kept_sublist
  · obtain ⟨older, hkept, hflushed⟩ := h.flushed_sublist
    refine ⟨(kept.take n).map Prod.fst, (List.append_nil _).symm, ?_⟩
    have hle : s.dat.durable / T.recordSize ≤ n :=
      Nat.div_le_div_right (s.dat.durable_le_crash nDat)
    show L.flushed.Sublist (((kept.take n).map Prod.fst).take (s.dat.durable / T.recordSize))
    rw [List.map_take, List.take_take, min_eq_left hle, hkept, List.take_append]
    exact hflushed.trans (List.sublist_append_left _ _)

/-- The record that `append` writes, in terms of the blob file before it: its bytes are
    complete behind that file and decode to the point. -/
theorem header_spec (hblob : s.blob.isSome = T.blobPointerOffset.isSome)
    (hpos : ∀ b, s.blob = some b → s.blobPos = b.bytes.length) {point : P}
    (hsafe : AppendSafe T s point) :
    (s.header T point).1.length = T.recordSize ∧
    Complete T ((s.header T point).2.1.map AppendFile.bytes) (s.header T point).1 ∧
    decodeChunk T ((s.header T point).2.1.map AppendFile.bytes) (s.header T point).1 = some point ∧
    (∀ b, (s.header T point).2.1 = some b → (s.header T point).2.2 = b.bytes.length) ∧
    ((s.blob = none ∧ (s.header T point).2.1 = none) ∨
      ∃ b x b', s.blob = some b ∧ (s.header T point).2.1 = some b' ∧ b'.bytes = b.bytes ++ x) := by
  have hround := hsafe.roundTrips
  have hlt := hsafe.blob_lt
  unfold DataPoint.RoundTrips at hround
  unfold header Complete decodeChunk
  cases hoff : T.blobPointerOffset with
  | none =>
    rw [hoff] at hround
    rw [hoff, Option.isSome_none, Option.isSome_eq_false_iff, Option.isNone_iff_eq_none] at hblob
    rw [hblob]
    exact ⟨T.length_encode point, trivial, hround, by simp, .inl ⟨rfl, rfl⟩⟩
  | some tailOff =>
    rw [hoff] at hround
    rw [hoff, Option.isSome_some, Option.isSome_iff_exists] at hblob
    obtain ⟨b, hb⟩ := hblob
    have hb' := hpos b hb
    have htail : tailOff + 12 ≤ (T.encode point).length := by
      rw [T.length_encode]
      exact T.pointer_le tailOff hoff
    rw [hb]
    simp only at hround ⊢
    cases hbytes : T.encodeBlob point with
    | none =>
      rw [hbytes] at hround
      obtain ⟨hzero, hdecode⟩ := hround
      simp only [Option.map_some]
      refine ⟨T.length_encode point, .inl hzero, ?_, ?_, .inr ⟨b, [], b, rfl, rfl, ?_⟩⟩
      · rw [if_pos hzero, hdecode]
      · rintro b' hb''
        cases hb''
        exact hb'
      · rw [List.append_nil]
    | some blobBytes =>
      rw [hbytes] at hround hlt
      obtain ⟨hlen, hdecode⟩ := hround
      rw [Option.getD_some, hb'] at hlt
      simp only [Option.map_some, AppendFile.bytes_write]
      have hL : blobLen (pointed (T.encode point) tailOff s.blobPos blobBytes.length) tailOff =
          blobBytes.length := blobLen_pointed htail _ hlen
      have hO : blobOff (pointed (T.encode point) tailOff s.blobPos blobBytes.length) tailOff =
          b.bytes.length := by
        rw [hb']
        exact blobOff_pointed htail (by omega) _
      have hD := hdecode s.blobPos (by omega)
      rw [hL, hO]
      refine ⟨?_, ?_, ?_, ?_, .inr ⟨b, blobBytes, _, rfl, rfl, rfl⟩⟩
      · rw [length_pointed htail, T.length_encode]
      · right
        rw [List.length_append]
        omega
      · split_ifs with hzero hout
        · rw [List.length_eq_zero_iff] at hzero
          rwa [hzero] at hD ⊢
        · rw [List.length_append] at hout
          omega
        · have hslice := slice_append_mid b.bytes blobBytes []
          rw [List.append_nil] at hslice
          rw [hslice, hD]
      · rintro b' hb''
        cases hb''
        rw [hb', AppendFile.bytes_write, List.length_append]

theorem inv_append (h : Inv T s L kept torn) {point : P} (hsafe : AppendSafe T s point) :
    Inv T (s.append T point) (L.step (.append point))
      (kept ++ [(point, (s.header T point).1)]) [] := by
  obtain ⟨hlen, hcomplete, hdecode, hpos, hgrow⟩ := header_spec h.blob_isSome h.blobPos_eq hsafe
  have htorn := h.torn_eq_nil hsafe.aligned
  have hall := h.complete_of_noneDangling hsafe.noneDangling
  have hblob : (s.append T point).files.blob = (s.header T point).2.1.map AppendFile.bytes := rfl
  -- A record on disk keeps its blob bytes and its value when the blob file grows.
  have hkeep : ∀ r ∈ kept, Complete T (s.append T point).files.blob r.2 ∧
      decodeChunk T (s.append T point).files.blob r.2 = some r.1 := by
    intro r hr
    have hold := hall r hr
    have hvalue := h.decodes r hr hold
    rw [hblob]
    rcases hgrow with ⟨hnone, hnone'⟩ | ⟨b, x, b', hb, hb', hbytes⟩
    · rw [hnone']
      rw [files, hnone] at hold hvalue
      exact ⟨hold, hvalue⟩
    · rw [hb', Option.map_some, hbytes]
      rw [files, hb] at hold hvalue
      exact ⟨hold.append T x, (decodeChunk_append T hold x).trans hvalue⟩
  refine ⟨?_, ?_, T.recordSize_pos, .inr rfl, hpos, ?_, h.older_nil, ?_, ?_, ?_, ?_⟩
  · show s.dat.bytes ++ (s.header T point).1 = _
    rw [h.dat_eq, htorn]
    simp
  · intro r hr
    rcases List.mem_append.mp hr with hr | hr
    · exact h.size r hr
    · rw [List.mem_singleton.mp hr]
      exact hlen
  · show (s.header T point).2.1.isSome = _
    rw [← h.blob_isSome]
    rcases hgrow with ⟨hnone, hnone'⟩ | ⟨b, x, b', hb, hb', -⟩
    · rw [hnone, hnone']
    · rw [hb, hb']
      rfl
  · intro r hr _
    rcases List.mem_append.mp hr with hr | hr
    · exact (hkeep r hr).2
    · rw [List.mem_singleton.mp hr]
      exact hdecode
  · left
    intro r hr
    rcases List.mem_append.mp hr with hr | hr
    · exact (hkeep r hr).1
    · rw [List.mem_singleton.mp hr]
      exact hcomplete
  · rw [List.map_append]
    exact h.kept_sublist.append (List.Sublist.refl _)
  · obtain ⟨older, hkept, hflushed⟩ := h.flushed_sublist
    refine ⟨older, ?_, hflushed⟩
    rw [List.map_append, hkept, List.append_assoc]
    rfl

/-! ## Reading -/

/-- Records that decode to their points, or not at all, are read as some of the points. -/
theorem filterMap_sublist {f : Bytes → Option P} (kept : List (P × Bytes))
    (h : ∀ r ∈ kept, f r.2 = some r.1 ∨ f r.2 = none) :
    ((kept.map Prod.snd).filterMap f).Sublist (kept.map Prod.fst) := by
  induction kept with
  | nil => exact List.Sublist.refl _
  | cons r kept ih =>
    have ih := ih fun r hr => h r (List.mem_cons_of_mem _ hr)
    rw [List.map_cons, List.map_cons]
    rcases h r List.mem_cons_self with hr | hr
    · rw [List.filterMap_cons_some hr]
      exact ih.cons_cons _
    · rw [List.filterMap_cons_none hr]
      exact ih.cons _

theorem filterMap_eq_map {f : Bytes → Option P} (kept : List (P × Bytes))
    (h : ∀ r ∈ kept, f r.2 = some r.1) :
    (kept.map Prod.snd).filterMap f = kept.map Prod.fst := by
  induction kept with
  | nil => rfl
  | cons r kept ih =>
    rw [List.map_cons, List.map_cons, List.filterMap_cons_some (h r List.mem_cons_self),
      ih fun r hr => h r (List.mem_cons_of_mem _ hr)]

theorem olderBlocks_nil (days remaining : ℕ) : olderBlocks T days remaining [] = [] := by
  cases days <;> rfl

/-- What `read_tail` sees of a store that satisfies the invariant. -/
theorem readTail_eq (h : Inv T s L kept torn) (limit : ℕ) :
    s.readTail T limit =
      ((kept.drop (kept.length - limit)).map Prod.snd).filterMap (decodeChunk T s.files.blob) := by
  have hcurrent : readDayTail T s.files limit =
      ((kept.drop (kept.length - limit)).map Prod.snd).filterMap
        (decodeChunk T s.files.blob) := by
    rcases h.torn_nil with hnil | hnil
    · subst hnil
      have hdat : s.files.dat = torn := h.dat_eq
      rw [readDayTail]
      simp only [hdat]
      rw [if_pos h.torn_lt]
      simp
    · have hfiles : s.files = { dat := (kept.map Prod.snd).flatten, blob := s.files.blob } := by
        rw [← List.append_nil (kept.map Prod.snd).flatten, ← hnil, ← h.dat_eq]
        rfl
      rw [hfiles, readDayTail_of_chunks T _ h.size_chunks, List.length_map, List.map_drop]
  unfold readTail
  by_cases hzero : limit = 0
  · subst hzero
    simp
  · rw [if_neg hzero, h.older_nil]
    simp only [olderBlocks_nil, List.reverse_nil, List.flatten_nil, List.nil_append, ite_self]
    exact hcurrent

theorem sound_of_inv (h : Inv T s L kept torn) : Sound T s L := by
  intro limit
  rw [readTail_eq h]
  obtain ⟨older, hkept, hflushed⟩ := h.flushed_sublist
  have hmem : ∀ r ∈ kept.drop (kept.length - limit), r ∈ kept :=
    fun r hr => List.mem_of_mem_drop hr
  rcases h.complete with hall | ⟨hnone, -⟩
  · refine ⟨kept.map Prod.fst, ?_, h.kept_sublist, ?_⟩
    · rw [hkept]
      exact (hflushed.trans (List.take_sublist _ _)).trans (List.sublist_append_left _ _)
    · rw [filterMap_eq_map _ fun r hr => h.decodes r (hmem r hr) (hall r (hmem r hr)),
        List.map_drop, List.length_map]
  · -- Nothing was flushed: what is read stands for itself.
    have hsub := filterMap_sublist (f := decodeChunk T s.files.blob)
      (kept.drop (kept.length - limit)) (by
        intro r hr
        by_cases hc : Complete T s.files.blob r.2
        · exact .inl (h.decodes r (hmem r hr) hc)
        · exact .inr (decodeChunk_of_not_complete T hc))
    refine ⟨_, ?_, hsub.trans ?_, ?_⟩
    · rw [hnone]
      exact List.nil_sublist _
    · rw [List.map_drop]
      exact (List.drop_sublist _ _).trans h.kept_sublist
    · have hle := hsub.length_le
      rw [List.length_map, List.length_drop] at hle
      have hshort := Nat.sub_eq_zero_of_le (hle.trans (by omega : _ ≤ limit))
      rw [hshort, List.drop_zero]

theorem exists_inv_of_runSafe (h : Inv T s L kept torn) (ops : List (Op P))
    (hsafe : RunSafe T s L ops) :
    ∃ kept' torn', Inv T (ops.foldl (step T) s) (ops.foldl Ledger.step L) kept' torn' := by
  induction ops generalizing s L kept torn with
  | nil => exact ⟨kept, torn, h⟩
  | cons op ops ih =>
    obtain ⟨hop, hops⟩ := hsafe
    cases op with
    | append point => exact ih (inv_append h hop) hops
    | flush => exact ih (inv_flush h) hops
    | crash nDat nIdx nBlob =>
      obtain ⟨kept', torn', h'⟩ := inv_crash h hop
      exact ih h' hops

/-- **Main theorem.** In a run in which no crash cuts `.dat` within a record behind a whole
    one or leaves a header without its blob bytes behind a flush, and nothing is appended to
    a torn `.dat` file or behind such a header, `read_tail` returns the tail of a list that
    has every flushed point, only appended ones, and each append once. -/
theorem readTail_sound_of_safe_run {P : Type} (T : DataPoint P) (idxEvery : ℕ)
    (ops : List (Op P)) (hsafe : RunSafe T (create T idxEvery) ⟨[], [], []⟩ ops) :
    Sound T (run T idxEvery ops) (ledger ops) := by
  obtain ⟨kept, torn, h⟩ := exists_inv_of_runSafe (inv_create idxEvery) ops hsafe
  exact sound_of_inv h

/-- A flushed bar, a bar that a crash cuts off whole, and one appended after the reopen. -/
theorem readTail_sound_of_safe_run_scalar_bars :
    Sound scalarBar
      (run scalarBar 1024 [.append ⟨1, 10⟩, .flush, .append ⟨2, 20⟩, .crash 16 16 0,
        .append ⟨3, 30⟩])
      (ledger [.append ⟨1, 10⟩, .flush, .append ⟨2, 20⟩, .crash 16 16 0, .append ⟨3, 30⟩]) := by
  apply readTail_sound_of_safe_run
  refine ⟨⟨scalarBar_roundTrips _, ?_, ?_, ?_⟩, trivial, ⟨scalarBar_roundTrips _, ?_, ?_, ?_⟩,
    ⟨?_, .inr ?_⟩, ⟨scalarBar_roundTrips _, ?_, ?_, ?_⟩, trivial⟩
  all_goals decide +kernel

/-- A crash cuts the second of two bars in half. The reopened store reads the 16 bytes in
    front of the cut: the value of the first bar as a timestamp, and the timestamp of the
    second as a value. -/
theorem not_sound_of_torn_record :
    let ops : List (Op ScalarBarPoint) := [.append ⟨1, 10⟩, .append ⟨2, 20⟩, .crash 24 16 0]
    (run scalarBar 1024 ops).readTail scalarBar 1 = [⟨10, 2⟩] ∧
      ¬ Sound scalarBar (run scalarBar 1024 ops) (ledger ops) := by
  intro ops
  have hread : (run scalarBar 1024 ops).readTail scalarBar 1 = [⟨10, 2⟩] := by decide +kernel
  refine ⟨hread, fun hsound => ?_⟩
  obtain ⟨kept, -, hkept, hdrop⟩ := hsound 1
  rw [hread] at hdrop
  have hmem : (⟨10, 2⟩ : ScalarBarPoint) ∈ kept.drop (kept.length - 1) := by
    rw [← hdrop]
    exact List.mem_cons_self
  have happended : (⟨10, 2⟩ : ScalarBarPoint) ∉ (ledger ops).appended := by decide +kernel
  exact happended (hkept.subset (List.mem_of_mem_drop hmem))

end Digdigdig3.Series.DiskStore
