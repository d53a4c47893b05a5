import Neug.Wal.RoundTrip

/-! # Recovery from the log

Recovery goes through the update records in the order of their timestamps.  Before
each of them it ingests the insert records whose timestamps lie between it and the
update before, by looking up every timestamp in between in the insert table of the
parser, whether or not an insert has it.  The table is as large as its largest
insert needs, and at least 4096, and `get_insert_wal` does not check its bounds.
-/

namespace Neug.Wal

open Library LocalWalParser List

/-- What recovery does to the graph.  An insert is looked up by its timestamp. -/
inductive RecoveryStep where
  | insert (ts : Nat)
  | compact
  | replay (ts : Nat) (content : WalContentUnit)
  deriving DecidableEq, Repr

def ingestWalRange (first last : Nat) : List RecoveryStep :=
  if last ≤ first then [] else (range' first (last - first)).map .insert

def ingestUpdates (base : Nat) : Nat → List ScannedRecord → List RecoveryStep × Nat
  | first, [] => ([], first)
  | first, u :: rest =>
    if u.timestamp ≤ base then ingestUpdates base first rest
    else
      let later := ingestUpdates base ((u.timestamp + 1) % 2 ^ 32) rest
      ((if first < u.timestamp then ingestWalRange first u.timestamp else []) ++
        (if u.content.size = 0 then .compact else .replay u.timestamp u.content) :: later.1,
        later.2)

/-- `NeugDB::ingestWals`: what is done to the graph, and the recovered timestamp. -/
def ingestWals (p : LocalWalParser) (base : Nat) : List RecoveryStep × Nat :=
  let updates := ingestUpdates base ((base + 1) % 2 ^ 32) p.getUpdateWals
  (updates.1 ++
    (if updates.2 ≤ p.lastTs then ingestWalRange updates.2 ((p.lastTs + 1) % 2 ^ 32) else []),
    max base p.lastTs)

/-- Every insert that recovery looks up lies inside the insert table. -/
def LookupsInside (p : LocalWalParser) (base : Nat) : Prop :=
  ∀ ts, .insert ts ∈ (ingestWals p base).1 → ts < p.insertWalListSize

/-! ### The timestamps that are looked up -/

theorem insert_mem_range_if {first last ts : Nat} {p : Prop} [Decidable p]
    (hp : ¬p → last ≤ first) : .insert ts ∈ (if p then ingestWalRange first last else []) ↔
      first ≤ ts ∧ ts < last := by
  unfold ingestWalRange
  split_ifs with hin hempty
  · simp only [not_mem_nil, false_iff]
    omega
  · simp only [mem_map, RecoveryStep.insert.injEq, exists_eq_right, mem_range'_1]
    omega
  · have := hp hin
    simp only [not_mem_nil, false_iff]
    omega

section Updates

variable {base first ts : Nat} {us : List ScannedRecord}

/-- The loop looks up the timestamps below an update that no update has, and what is left for
the end lies above every update. -/
theorem ingestUpdates_spec (hfirst : base < first)
    (hnext : ∀ u ∈ us, base < u.timestamp → first ≤ u.timestamp + 1)
    (hsorted : us.Pairwise fun u u' => u.timestamp ≤ u'.timestamp)
    (hts : ∀ u ∈ us, u.timestamp < 2 ^ 32 - 1) :
    (.insert ts ∈ (ingestUpdates base first us).1 ↔
      first ≤ ts ∧ (∃ u ∈ us, ts < u.timestamp) ∧ ∀ u ∈ us, u.timestamp ≠ ts) ∧
    ((ingestUpdates base first us).2 ≤ ts ↔
      first ≤ ts ∧ ∀ u ∈ us, base < u.timestamp → u.timestamp < ts) := by
  induction us generalizing first with
  | nil => simp [ingestUpdates]
  | cons u rest ih =>
    obtain ⟨hle, hrest⟩ := pairwise_cons.mp hsorted
    rw [forall_mem_cons] at hnext hts
    rw [ingestUpdates, exists_mem_cons_iff, forall_mem_cons, forall_mem_cons]
    split
    · next hold =>
        -- a stale update: whatever is looked up lies above it
        obtain ⟨hlookup, hend⟩ := ih hfirst hnext.2 hrest hts.2
        have hstale : base < u.timestamp → u.timestamp < ts := by omega
        rw [hlookup, hend, and_iff_right hstale]
        refine ⟨and_congr_right fun hge => ?_, Iff.rfl⟩
        have hne : u.timestamp ≠ ts := by omega
        rw [or_iff_right (by omega), and_iff_right hne]
    · next hnew =>
        have hgt := Nat.lt_of_not_le hnew
        obtain ⟨hlookup, hend⟩ := @ih (u.timestamp + 1) (by omega)
          (fun v hv _ => Nat.succ_le_succ (hle v hv)) hrest hts.2
        have hstep : RecoveryStep.insert ts ≠
            if u.content.size = 0 then .compact else .replay u.timestamp u.content := by
          split <;> exact RecoveryStep.noConfusion
        have hfirst' := hnext.1 hgt
        simp only [Nat.mod_eq_of_lt (Nat.add_lt_of_lt_sub hts.1), mem_append, mem_cons,
          insert_mem_range_if Nat.le_of_not_lt, hlookup, hend, hstep, false_or]
        refine ⟨?_, fun ⟨hlt, hall⟩ => ⟨by omega, fun _ => hlt, hall⟩,
          fun ⟨_, hlt, hall⟩ => ⟨hlt hgt, hall⟩⟩
        rcases Nat.lt_trichotomy ts u.timestamp with hlt | rfl | hgt
        · have hne : ∀ v ∈ rest, v.timestamp ≠ ts := fun v hv =>
            Nat.ne_of_gt (Nat.lt_of_lt_of_le hlt (hle v hv))
          exact ⟨fun h => ⟨by omega, .inl hlt, by omega, hne⟩, fun h => .inl ⟨h.1, hlt⟩⟩
        · exact ⟨fun h => by omega, fun h => absurd rfl h.2.2.1⟩
        · rw [or_iff_right (by omega), or_iff_right (by omega), and_iff_right (by omega : _ ≠ ts)]
          exact and_congr_left fun _ => ⟨fun _ => by omega, fun _ => hgt⟩

end Updates

/-! ### The tables of the parser -/

namespace LocalWalParser

variable {rs : List ScannedRecord}

section

variable (hts : ∀ r ∈ rs, r.timestamp < 2 ^ 32 - 1)
include hts

/-- The insert table covers the timestamps up to the largest insert. -/
theorem lt_foldl_insertWalListSize (p : LocalWalParser) (n : Nat) :
    n < (rs.foldl add p).insertWalListSize ↔
      n < p.insertWalListSize ∨ ∃ r ∈ rs, r.isUpdate = false ∧ n ≤ r.timestamp := by
  induction rs generalizing p with
  | nil => simp
  | cons r rest ih =>
    rw [forall_mem_cons] at hts
    have hadd : n < (p.add r).insertWalListSize ↔
        n < p.insertWalListSize ∨ r.isUpdate = false ∧ n ≤ r.timestamp := by
      have hwrap := Nat.mod_eq_of_lt (Nat.add_lt_of_lt_sub hts.1)
      cases hkind : r.isUpdate with
      | true => simp [add, hkind]
      | false =>
        simp only [add, hkind, Bool.false_eq_true, if_false, hwrap, true_and]
        split
        · omega
        · omega
    rw [foldl_cons, ih hts.2, hadd, exists_mem_cons_iff, or_assoc]

omit hts in
theorem le_foldl_lastTs (rs : List ScannedRecord) (p : LocalWalParser) (n : Nat) :
    n ≤ (rs.foldl add p).lastTs ↔ n ≤ p.lastTs ∨ ∃ r ∈ rs, n ≤ r.timestamp := by
  induction rs generalizing p with
  | nil => simp
  | cons r rest ih =>
    have hadd : n ≤ (p.add r).lastTs ↔ n ≤ p.lastTs ∨ n ≤ r.timestamp := by
      have hlast : (p.add r).lastTs = max r.timestamp p.lastTs := by
        unfold add
        split <;> rfl
      omega
    rw [foldl_cons, ih, hadd, exists_mem_cons_iff, or_assoc]

theorem lt_ofScanned_insertWalListSize (n : Nat) : n < (ofScanned rs).insertWalListSize ↔
      n < 4096 ∨ ∃ r ∈ rs, r.isUpdate = false ∧ n ≤ r.timestamp :=
  lt_foldl_insertWalListSize hts empty n

omit hts in
theorem le_ofScanned_lastTs (rs : List ScannedRecord) {n : Nat} (hn : 0 < n) :
    n ≤ (ofScanned rs).lastTs ↔ ∃ r ∈ rs, n ≤ r.timestamp := by
  have hlast : n ≤ (ofScanned rs).lastTs ↔ n ≤ 0 ∨ ∃ r ∈ rs, n ≤ r.timestamp :=
    le_foldl_lastTs rs empty n
  rw [hlast]
  exact or_iff_right (Nat.not_le_of_lt hn)

theorem ofScanned_lastTs_lt : (ofScanned rs).lastTs < 2 ^ 32 - 1 := by
  rcases Nat.eq_zero_or_pos (ofScanned rs).lastTs with hzero | hpos
  · omega
  · obtain ⟨r, hr, hle⟩ := (le_ofScanned_lastTs rs hpos).mp (Nat.le_refl _)
    have := hts r hr
    omega

end

end LocalWalParser

/-! ### When recovery stays inside the table -/

section Lookups

variable {base : Nat} {rs : List ScannedRecord}

/-- Recovery looks up every timestamp after the base that no update has, up to the
largest one of the log. -/
theorem insert_mem_ingestWals_ofScanned (hts : ∀ r ∈ rs, r.timestamp < 2 ^ 32 - 1)
    (hbase : base < 2 ^ 32 - 1) {ts : Nat} : .insert ts ∈ (ingestWals (.ofScanned rs) base).1 ↔
      base < ts ∧ (∀ u ∈ rs, u.isUpdate = true → u.timestamp ≠ ts) ∧
        ∃ r ∈ rs, ts ≤ r.timestamp := by
  have hupdates : ∀ {u}, u ∈ (ofScanned rs).getUpdateWals ↔
      u ∈ rs ∧ u.isUpdate = true := mem_ofScanned_updateWalList
  have htimes := fun u hu => hts u (hupdates.mp hu).1
  have hnext : ∀ u ∈ (ofScanned rs).getUpdateWals,
      base < u.timestamp → base + 1 ≤ u.timestamp + 1 := fun u _ h => by omega
  obtain ⟨hloop, hend⟩ := @ingestUpdates_spec base (base + 1) ts _ (Nat.lt_succ_self base) hnext
    (ofScanned_sorted rs) htimes
  unfold ingestWals
  -- the timestamps between updates, and those after the last update
  simp only [Nat.mod_eq_of_lt (Nat.add_lt_of_lt_sub hbase),
    Nat.mod_eq_of_lt (Nat.add_lt_of_lt_sub (ofScanned_lastTs_lt hts)), mem_append,
    insert_mem_range_if Nat.lt_of_not_le, hloop, hend, Nat.lt_succ_iff, Nat.succ_le_iff]
  constructor
  · rintro (⟨hts', ⟨u, hu, hlt⟩, hne⟩ | ⟨⟨hts', hall⟩, hle⟩)
    · exact ⟨hts', fun v hv hkind => hne v (hupdates.mpr ⟨hv, hkind⟩),
        u, (hupdates.mp hu).1, Nat.le_of_lt hlt⟩
    · refine ⟨hts', ?_, (le_ofScanned_lastTs rs (by omega)).mp hle⟩
      intro u hu hkind
      have habove := hall u (hupdates.mpr ⟨hu, hkind⟩)
      omega
  · rintro ⟨hts', hne, hle⟩
    by_cases hbelow : ∃ u ∈ (ofScanned rs).getUpdateWals, ts < u.timestamp
    · exact .inl ⟨hts', hbelow, fun u hu => hne u (hupdates.mp hu).1 (hupdates.mp hu).2⟩
    · refine .inr ⟨⟨hts', fun u hu _ => ?_⟩,
        (le_ofScanned_lastTs rs (by omega)).mpr hle⟩
      have hneu := hne u (hupdates.mp hu).1 (hupdates.mp hu).2
      have hnot : ¬ts < u.timestamp := fun h => hbelow ⟨u, hu, h⟩
      omega

end Lookups

/-- Every update that follows a gap of timestamps finds the gap inside the insert table:
below 4096, or below some insert. -/
def GapsCovered (base : Nat) (marks : List (Nat × Bool)) : Prop :=
  ∀ u, (u, true) ∈ marks → base + 1 < u → (u - 1, true) ∉ marks →
    u ≤ 4096 ∨ ∃ i, (i, false) ∈ marks ∧ u - 1 ≤ i

/-- Of the updates above a timestamp that no update has, one follows a gap. -/
theorem exists_update_after_gap {marks : List (Nat × Bool)} {ts u : Nat}
    (hne : (ts, true) ∉ marks) (hu : (u, true) ∈ marks) (hlt : ts < u) :
    ∃ v, (v, true) ∈ marks ∧ ts < v ∧ (v - 1, true) ∉ marks := by
  induction hdist : u - ts generalizing u with
  | zero => omega
  | succ d ih =>
    by_cases hgap : (u - 1, true) ∈ marks
    · have hne' : u - 1 ≠ ts := fun heq => hne (heq ▸ hgap)
      exact ih hgap (by omega) (by omega)
    · exact ⟨u, hu, hlt, hgap⟩

/-- Recovery stays inside the insert table if and only if every gap before an update is
covered by it. -/
theorem lookupsInside_ofScanned {base : Nat} {rs : List ScannedRecord}
    (hts : ∀ r ∈ rs, r.timestamp < 2 ^ 32 - 1) (hbase : base < 2 ^ 32 - 1) :
    LookupsInside (.ofScanned rs) base ↔
      GapsCovered base (rs.map fun s => (s.timestamp, s.isUpdate)) := by
  have hmem : ∀ {ts kind}, (ts, kind) ∈ rs.map (fun s => (s.timestamp, s.isUpdate)) ↔
      ∃ s ∈ rs, s.timestamp = ts ∧ s.isUpdate = kind := by simp
  constructor
  · intro h u hu hgt hgap
    obtain ⟨s, hs, rfl, hkind⟩ := hmem.mp hu
    have hlookup := h (s.timestamp - 1) <|
      (insert_mem_ingestWals_ofScanned hts hbase).mpr
        ⟨by omega, fun v hv hvkind heq => hgap (hmem.mpr ⟨v, hv, heq, hvkind⟩), s, hs, by omega⟩
    rw [lt_ofScanned_insertWalListSize hts] at hlookup
    rcases hlookup with hsmall | ⟨i, hi, hikind, hle⟩
    · exact .inl (by omega)
    · exact .inr ⟨i.timestamp, hmem.mpr ⟨i, hi, rfl, hikind⟩, hle⟩
  · intro h ts hlookup
    obtain ⟨hafter, hne, r, hr, hle⟩ := (insert_mem_ingestWals_ofScanned hts hbase).mp hlookup
    rw [lt_ofScanned_insertWalListSize hts]
    cases hkind : r.isUpdate with
    | false => exact .inr ⟨r, hr, hkind, hle⟩
    | true =>
      have hts' : (ts, true) ∉ rs.map (fun s => (s.timestamp, s.isUpdate)) := fun hin => by
        obtain ⟨v, hv, heq, hvkind⟩ := hmem.mp hin
        exact hne v hv hvkind heq
      have hner := hne r hr hkind
      obtain ⟨v, hv, hlt, hgap⟩ := exists_update_after_gap hts' (hmem.mpr ⟨r, hr, rfl, hkind⟩)
        (by omega)
      rcases h v hv (by omega) hgap with hsmall | ⟨i, hi, hle'⟩
      · exact .inl (by omega)
      · obtain ⟨s, hs, rfl, hskind⟩ := hmem.mp hi
        exact .inr ⟨s, hs, hskind, by omega⟩

theorem lookupsInside_of_reads {files : List WalFile} {scanned : List ScannedRecord}
    {records : List WalRecord} {base : Nat} (hreads : Forall₂ (Reads files) scanned records)
    (hts : ∀ r ∈ records, CommitTimestamp r.timestamp) (hbase : base < 2 ^ 32 - 1) :
    LookupsInside (.ofScanned scanned) base ↔ GapsCovered base (records.map WalRecord.mark) := by
  have htimes : ∀ s ∈ scanned, s.timestamp < 2 ^ 32 - 1 := by
    intro s hs
    obtain ⟨r, hr, hread⟩ := exists_of_forall₂ hreads hs
    rw [hread.timestamp_eq]
    exact (hts r hr).2
  rw [← reads_marks hreads, lookupsInside_ofScanned htimes hbase]

/-- Recovery from files that are parsed into some records looks up inserts inside the
parser's table only, if and only if every update that follows a gap of timestamps has
a timestamp of at most 4096 or an insert at or above the gap. -/
theorem recovery_lookups_inside_iff (files : List WalFile) (records : List WalRecord)
    (base : Nat) (hparses : Parses files records)
    (hts : ∀ r ∈ records, CommitTimestamp r.timestamp) (hbase : base < 2 ^ 32 - 1) :
    (∀ fuel p, openFiles fuel files = some p → LookupsInside p base) ↔
      GapsCovered base (records.map WalRecord.mark) := by
  obtain ⟨fuel, scanned, hscan, hreads⟩ := hparses
  rw [← lookupsInside_of_reads hreads hts hbase]
  constructor
  · intro h
    exact h fuel _ (congrArg (Option.map _) hscan)
  · intro h fuel' p hopen
    obtain ⟨scanned', hscan', rfl⟩ := Option.map_eq_some_iff.mp hopen
    rwa [← scanFiles_unique hscan hscan']

/-- An update, a gap that a later insert covers, and an update after the gap. -/
theorem recovery_lookups_inside_covered : ∃ fuel p, openFiles fuel
        ([[⟨6001, true, [1]⟩, ⟨6005, true, []⟩], [⟨6007, false, [2]⟩]].map .ofRecords) = some p ∧
      LookupsInside p 6000 := by
  have hparses := parses_ofRecords [[⟨6001, true, [1]⟩, ⟨6005, true, []⟩], [⟨6007, false, [2]⟩]]
    (by unfold CommitTimestamp; decide) (by decide)
  have hinside := (recovery_lookups_inside_iff _ _ 6000 hparses
    (by unfold CommitTimestamp; decide) (by decide)).mpr (by
      intro u hu hgt hgap
      exact .inr ⟨6007, by decide, by simp [WalRecord.mark] at hu; omega⟩)
  obtain ⟨fuel, scanned, hscan, -⟩ := hparses
  have hopen : openFiles fuel _ = some _ := congrArg (Option.map _) hscan
  exact ⟨fuel, _, hopen, hinside fuel _ hopen⟩

/-- The only record is an update with the timestamp 4097, after transactions that
wrote nothing: recovery looks up 4096 in a table of 4096 places. -/
theorem recovery_lookup_outside :
    ¬∀ fuel p, openFiles fuel [WalFile.ofRecords [⟨4097, true, [1]⟩]] = some p →
      LookupsInside p 0 := by
  intro h
  have hts : ∀ r ∈ [[⟨4097, true, [1]⟩]].flatten, CommitTimestamp (WalRecord.timestamp r) := by
    unfold CommitTimestamp
    decide
  obtain ⟨fuel, scanned, hscan, hreads⟩ := parses_ofRecords [[⟨4097, true, [1]⟩]] hts (by decide)
  have hcovered := (lookupsInside_of_reads hreads hts (by decide)).mp
    (h fuel _ (congrArg (Option.map _) hscan))
  rcases hcovered 4097 (by decide) (by decide) (by decide) with hsmall | ⟨i, hi, -⟩
  · omega
  · simp [WalRecord.mark] at hi

end Neug.Wal
