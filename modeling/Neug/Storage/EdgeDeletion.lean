import Neug.Library.Positions
import Neug.Storage.EdgeTableWrite

/-! # Deleting the edges between two vertices

`DeleteEdgesImpl` first collects a pair of offsets for each visible edge and then marks
the entries at these offsets.  The outgoing offset counts visible entries, but is used
as the slot of the entry.  The incoming offset is searched for while all edges are still
there, so that edges which the comparison cannot tell apart are all given the slot of
the first one.  This file states what the deletion should do and determines the tables
on which it does.
-/

namespace Neug.Storage

open Library Function List

def Nbr.dead (nbr : Nbr) : Nbr := { nbr with timestamp := kDeletedTimestamp }

namespace Csr

/-- The structure after all visible entries of `v` to a neighbour are deleted. -/
def erase (csr : Csr) (v nbr ts : Nat) : Csr :=
  { csr with lists := update csr.lists v ((csr.lists v).map fun entry =>
      if entry.timestamp ≤ ts ∧ entry.neighbor = nbr then entry.dead else entry) }

/-- The arrays hold nothing beyond the capacity, and one entry per vertex in the
single-entry layout. -/
structure Framed (csr : Csr) : Prop where
  beyond : ∀ v, csr.vertexCapacity ≤ v → csr.lists v = []
  single : csr.type = .singleMutable → ∀ v, (csr.lists v).length ≤ 1

/-- The arrays hold as many entries per vertex as an `int` can count. -/
structure Represented (csr : Csr) : Prop extends Framed csr where
  degree : ∀ v, (csr.lists v).length ≤ kNoOffset

/-- The visible entries of `v` to a neighbour are not newer than the writer. -/
def NotNewer (csr : Csr) (v nbr readTs writeTs : Nat) : Prop :=
  ∀ entry ∈ csr.lists v, entry.timestamp ≤ readTs → entry.neighbor = nbr →
    entry.timestamp ≤ writeTs

end Csr

namespace EdgeTable

/-- The first loop of `DeleteEdgesImpl`, over the visible slots of the source; the
counter numbers them. -/
def matchedOffsets (et : EdgeTable) (past : PastEnd) (src dst ts : Nat) :
    List Nat → Nat → Except EdgeError (List (Nat × Nat))
  | [], _ => .ok []
  | slot :: rest, oeOffset =>
    match (et.outCsr.lists src)[slot]? with
    | none => et.matchedOffsets past src dst ts rest (oeOffset + 1)
    | some nbr =>
      if nbr.neighbor = dst then do
        let ieOffset ← et.fuzzySearch past false dst src nbr
          (et.outCsr.wordAfter (past true) src slot) ts
        let offsets ← et.matchedOffsets past src dst ts rest (oeOffset + 1)
        .ok ((oeOffset, ieOffset) :: offsets)
      else et.matchedOffsets past src dst ts rest (oeOffset + 1)

def deleteOffsets (et : EdgeTable) (src dst ts : Nat) (offsets : List (Nat × Nat)) :
    Except EdgeError EdgeTable :=
  offsets.foldlM (fun et pair => et.deleteEdge src dst pair.1 pair.2 ts) et

def deleteEdges (et : EdgeTable) (past : PastEnd) (src dst readTs writeTs : Nat) :
    Except EdgeError EdgeTable :=
  if et.outCsr.type = .empty ∨ et.inCsr.type = .empty then .error .noView
  else do
    let offsets ← et.matchedOffsets past src dst readTs (et.outCsr.visibleSlots src readTs) 0
    et.deleteOffsets src dst writeTs offsets

/-- The table without the visible edges from `src` to `dst`. -/
def eraseEdges (et : EdgeTable) (src dst ts : Nat) : EdgeTable :=
  { et with outCsr := et.outCsr.erase src dst ts, inCsr := et.inCsr.erase dst src ts }

/-- The search takes two entries, of `src` and of `dst`, for the same edge. -/
def matchesAt (et : EdgeTable) (past : PastEnd) (src dst oe ie : Nat) : Bool :=
  ((et.outCsr.lists src)[oe]?).any fun expected =>
    ((et.inCsr.lists dst)[ie]?).any fun found =>
      et.sameEdge expected (et.outCsr.wordAfter (past true) src oe) found
        (et.inCsr.wordAfter (past false) dst ie)

structure Separable (et : EdgeTable) (past : PastEnd) (src dst readTs writeTs : Nat) :
    Prop where
  /-- Both directions are stored. -/
  stored : et.outCsr.type ≠ .empty ∧ et.inCsr.type ≠ .empty
  /-- In the list of the source every slot before an edge to `dst` is visible. -/
  aligned : ∀ oe ∈ et.outCsr.candidates src dst readTs, ∀ slot < oe,
    slot ∈ et.outCsr.visibleSlots src readTs
  notNewer : et.outCsr.NotNewer src dst readTs writeTs ∧ et.inCsr.NotNewer dst src readTs writeTs
  /-- No edge is stored in the list of `dst` only. -/
  covered : et.outCsr.candidates src dst readTs = [] → et.inCsr.candidates dst src readTs = []
  /-- No edge is stored in the list of `src` only; the single-entry layout tolerates it
  when there is nothing else to delete. -/
  answered : et.outCsr.candidates src dst readTs ≠ [] → et.inCsr.candidates dst src readTs = [] →
    et.inCsr.type = .singleMutable ∧ dst < et.inCsr.vertexCapacity ∧
      ∀ entry ∈ et.inCsr.lists dst, writeTs < entry.timestamp
  /-- When there are several edges, the comparison finds one for each outgoing entry and
  each incoming entry is the first one for some outgoing entry. -/
  toldApart : et.outCsr.candidates src dst readTs ≠ [] →
    2 ≤ (et.inCsr.candidates dst src readTs).length →
      et.properties ≠ [.empty] ∧
      (∀ oe ∈ et.outCsr.candidates src dst readTs, ∃ ie ∈ et.inCsr.candidates dst src readTs,
        et.matchesAt past src dst oe ie = true) ∧
      ∀ ie ∈ et.inCsr.candidates dst src readTs, ∃ oe ∈ et.outCsr.candidates src dst readTs,
        et.matchesAt past src dst oe ie = true ∧
          ∀ other ∈ et.inCsr.candidates dst src readTs, other < ie →
            et.matchesAt past src dst oe other = false

end EdgeTable

/-! ### Slots -/

namespace Csr

variable {csr : Csr} {v nbr ts slot : Nat}

def leadsTo (csr : Csr) (v nbr slot : Nat) : Bool :=
  ((csr.lists v)[slot]?).any fun entry => entry.neighbor = nbr

theorem visibleSlots_eq_positions (csr : Csr) (v ts : Nat) :
    csr.visibleSlots v ts = positions (fun nbr => nbr.timestamp ≤ ts) (csr.lists v) := rfl

theorem visibleSlots_increasing (csr : Csr) (v ts : Nat) :
    (csr.visibleSlots v ts).Pairwise (· < ·) :=
  positions_increasing _ _

theorem candidates_eq_filter (csr : Csr) (v nbr ts : Nat) :
    csr.candidates v nbr ts = (csr.visibleSlots v ts).filter (csr.leadsTo v nbr) := rfl

theorem candidates_increasing (csr : Csr) (v nbr ts : Nat) :
    (csr.candidates v nbr ts).Pairwise (· < ·) :=
  (csr.visibleSlots_increasing v ts).filter _

theorem mem_visibleSlots : slot ∈ csr.visibleSlots v ts ↔
    ∃ entry, (csr.lists v)[slot]? = some entry ∧ entry.timestamp ≤ ts := by
  rw [visibleSlots_eq_positions, mem_positions]
  simp only [decide_eq_true_eq]

theorem mem_candidates : slot ∈ csr.candidates v nbr ts ↔
    ∃ entry, (csr.lists v)[slot]? = some entry ∧ entry.timestamp ≤ ts ∧ entry.neighbor = nbr := by
  rw [candidates_eq_filter, mem_filter, mem_visibleSlots]
  cases hentry : (csr.lists v)[slot]? with
  | none => simp
  | some entry => simp [leadsTo, hentry]

/-- The slot whose entry `delete_edge` marks for an offset. -/
def landing (csr : Csr) (v offset : Nat) : Option Nat :=
  match csr.type with
  | .mutable => if v < csr.vertexCapacity ∧ offset < (csr.lists v).length then some offset else none
  | .singleMutable => if v < csr.vertexCapacity then some 0 else none
  | .empty => none

/-- The entry that `delete_edge` leaves in its slot. -/
def mark (ts : Nat) (nbr : Nbr) : Nbr := if nbr.timestamp ≤ ts then nbr.dead else nbr

theorem mark_mark (ts : Nat) (nbr : Nbr) : mark ts (mark ts nbr) = mark ts nbr := by
  unfold mark
  split
  · split <;> rfl
  · rfl

/-- The structure after the entries in several slots of `v` are marked. -/
def tombstones (csr : Csr) (v : Nat) (slots : List Nat) (ts : Nat) : Csr :=
  { csr with lists := update csr.lists v <|
      slots.foldl (fun l slot => l.modify slot (mark ts)) (csr.lists v) }

theorem tombstones_nil (csr : Csr) (v ts : Nat) : csr.tombstones v [] ts = csr := by
  unfold tombstones
  rw [foldl_nil, update_eq_self]

theorem tombstone_tombstones (csr : Csr) (v slot : Nat) (slots : List Nat) (ts : Nat) :
    (csr.tombstone v slot ts).tombstones v slots ts = csr.tombstones v (slot :: slots) ts := by
  unfold tombstones tombstone
  simp only [update_self, update_idem, foldl_cons]
  rfl

theorem tombstone_landing (csr : Csr) (v slot ts u offset : Nat) :
    (csr.tombstone v slot ts).landing u offset = csr.landing u offset := by
  have hlength : ((csr.tombstone v slot ts).lists u).length = (csr.lists u).length := by
    by_cases hu : u = v
    · subst hu
      simp only [tombstone, update_self, length_modify]
    · simp only [tombstone, update_of_ne hu]
  unfold landing
  rw [hlength]
  rfl

theorem deleteEdge_eq_ok_iff (hstored : csr.type ≠ .empty) {offset : Nat} {csr' : Csr} :
    csr.deleteEdge v offset ts = .ok csr' ↔
      ∃ slot, csr.landing v offset = some slot ∧ csr' = csr.tombstone v slot ts := by
  unfold deleteEdge landing
  cases htype : csr.type with
  | empty => exact absurd htype hstored
  | «mutable» =>
    by_cases hin : v < csr.vertexCapacity ∧ offset < (csr.lists v).length
    · have hout : ¬(csr.vertexCapacity ≤ v ∨ (csr.lists v).length ≤ offset) := by omega
      simp [hin, hout, eq_comm]
    · have hout : csr.vertexCapacity ≤ v ∨ (csr.lists v).length ≤ offset := by omega
      simp [hin, hout]
  | singleMutable =>
    by_cases hin : v < csr.vertexCapacity
    · simp [hin, Nat.not_le.mpr hin, eq_comm]
    · simp [hin, Nat.not_lt.mp hin]

/-- Marking some slots deletes exactly the visible entries to a neighbour when these are
among the slots, old enough, and whatever else is in a slot is too new to be marked. -/
theorem tombstones_eq_erase_iff {slots : List Nat} {readTs writeTs : Nat}
    (hread : readTs < kDeletedTimestamp) (hwrite : writeTs < kDeletedTimestamp) :
    csr.tombstones v slots writeTs = csr.erase v nbr readTs ↔
      csr.candidates v nbr readTs ⊆ slots ∧ csr.NotNewer v nbr readTs writeTs ∧
        ∀ slot ∈ slots, slot ∉ csr.candidates v nbr readTs →
          ∀ entry, (csr.lists v)[slot]? = some entry → writeTs < entry.timestamp := by
  have hlists : csr.tombstones v slots writeTs = csr.erase v nbr readTs ↔
      ∀ (slot : Nat) entry, (csr.lists v)[slot]? = some entry →
        (if slot ∈ slots then mark writeTs entry else entry) =
          if entry.timestamp ≤ readTs ∧ entry.neighbor = nbr then entry.dead else entry := by
    rw [tombstones, erase, Csr.mk.injEq]
    simp only [true_and, (update_injective csr.lists v).eq_iff, List.ext_getElem?_iff,
      getElem?_foldl_modify (mark_mark writeTs), getElem?_map]
    refine forall_congr' fun slot => ?_
    cases (csr.lists v)[slot]? with
    | none => simp
    | some entry => simp
  rw [hlists]
  constructor
  · intro h
    have hmarked : ∀ (slot : Nat) entry, (csr.lists v)[slot]? = some entry →
        entry.timestamp ≤ readTs → entry.neighbor = nbr →
          slot ∈ slots ∧ entry.timestamp ≤ writeTs := by
      intro slot entry hentry hts hnbr
      have heq := h slot entry hentry
      rw [if_pos (And.intro hts hnbr)] at heq
      have hchanged : entry ≠ entry.dead := fun hsame =>
        (hts.trans_lt hread).ne (congrArg Nbr.timestamp hsame)
      by_cases hslot : slot ∈ slots
      · refine ⟨hslot, ?_⟩
        by_contra hnewer
        rw [if_pos hslot, mark, if_neg hnewer] at heq
        exact hchanged heq
      · rw [if_neg hslot] at heq
        exact absurd heq hchanged
    refine ⟨?_, ?_, ?_⟩
    · intro slot hslot
      obtain ⟨entry, hentry, hts, hnbr⟩ := mem_candidates.mp hslot
      exact (hmarked slot entry hentry hts hnbr).1
    · intro entry hmem hts hnbr
      obtain ⟨slot, hentry⟩ := mem_iff_getElem?.mp hmem
      exact (hmarked slot entry hentry hts hnbr).2
    · intro slot hslot hother entry hentry
      by_contra hold
      have heq := h slot entry hentry
      rw [if_pos hslot, mark, if_pos (Nat.le_of_not_lt hold), if_neg] at heq
      · have hts : kDeletedTimestamp = entry.timestamp := congrArg Nbr.timestamp heq
        omega
      · exact fun ⟨hts, hnbr⟩ => hother (mem_candidates.mpr ⟨entry, hentry, hts, hnbr⟩)
  · rintro ⟨hsubset, hold, hothers⟩ slot entry hentry
    by_cases hvisible : entry.timestamp ≤ readTs ∧ entry.neighbor = nbr
    · have hslot := hsubset (mem_candidates.mpr ⟨entry, hentry, hvisible⟩)
      have hts := hold entry (mem_of_getElem? hentry) hvisible.1 hvisible.2
      rw [if_pos hslot, if_pos hvisible, mark, if_pos hts]
    · split
      next hslot =>
        have hnot : slot ∉ csr.candidates v nbr readTs := by
          intro hmem
          obtain ⟨found, hfound, hvisible'⟩ := mem_candidates.mp hmem
          rw [hentry, Option.some.injEq] at hfound
          exact hvisible (hfound ▸ hvisible')
        rw [mark, if_neg (Nat.not_le.mpr (hothers slot hslot hnot entry hentry))]
      next => rfl

namespace Framed

variable (h : csr.Framed)
include h

theorem lt_capacity {entry : Nbr} (hentry : (csr.lists v)[slot]? = some entry) :
    v < csr.vertexCapacity := by
  by_contra hbeyond
  rw [h.beyond v (Nat.le_of_not_lt hbeyond)] at hentry
  cases hentry

/-- An offset up to the slot of an entry is the slot that is marked. -/
theorem landing_of_le (hstored : csr.type ≠ .empty) {entry : Nbr}
    (hentry : (csr.lists v)[slot]? = some entry) {offset : Nat} (hle : offset ≤ slot) :
    csr.landing v offset = some offset := by
  have hv := h.lt_capacity hentry
  have hslot := (List.getElem?_eq_some_iff.mp hentry).1
  unfold landing
  cases htype : csr.type with
  | empty => exact absurd htype hstored
  | «mutable» => exact if_pos ⟨hv, hle.trans_lt hslot⟩
  | singleMutable =>
    have hzero : offset = 0 := by
      have := h.single htype v
      omega
    simp only [hv, if_true, hzero]

theorem candidates_length_le (htype : csr.type = .singleMutable) :
    (csr.candidates v nbr ts).length ≤ 1 := by
  refine le_trans ?_ (h.single htype v)
  exact ((length_filter_le _ _).trans (length_filter_le _ _)).trans_eq
    length_range

end Framed

/-- A failed search marks something in the single-entry layout only. -/
theorem Represented.landing_noOffset (h : csr.Represented)
    (hland : csr.landing v kNoOffset = some slot) :
    csr.type = .singleMutable ∧ v < csr.vertexCapacity ∧ slot = 0 := by
  unfold landing at hland
  split at hland
  next =>
    have hdegree := h.degree v
    rw [if_neg (by omega)] at hland
    cases hland
  next htype =>
    obtain ⟨hv, hslot⟩ := Option.ite_none_right_eq_some.mp hland
    exact ⟨htype, hv, (Option.some.inj hslot).symm⟩
  next => cases hland

end Csr

/-! ### The two loops -/

namespace EdgeTable

variable {et et' : EdgeTable} {past : PastEnd} {src dst readTs writeTs ts : Nat}

/-- The offset that the search for an outgoing entry returns. -/
def answer (et : EdgeTable) (past : PastEnd) (src dst ts oe : Nat) : Nat :=
  match et.inCsr.candidates dst src ts with
  | [] => kNoOffset
  | [ie] => ie
  | ies => (ies.find? (et.matchesAt past src dst oe)).getD kNoOffset

def Comparable (et : EdgeTable) (src dst ts : Nat) : Prop :=
  2 ≤ (et.inCsr.candidates dst src ts).length → et.properties ≠ [.empty]

open Classical in
theorem fuzzySearch_eq {oe : Nat} {nbr : Nbr} (hnbr : (et.outCsr.lists src)[oe]? = some nbr) :
    et.fuzzySearch past false dst src nbr (et.outCsr.wordAfter (past true) src oe) ts =
      if et.Comparable src dst ts then .ok (et.answer past src dst ts oe)
      else .error .unsupportedSearchType := by
  have hmatches : et.matchesAt past src dst oe = fun ie =>
      ((et.inCsr.lists dst)[ie]?).any fun found =>
        et.sameEdge nbr (et.outCsr.wordAfter (past true) src oe) found
          (et.inCsr.wordAfter (past false) dst ie) := by
    funext ie
    rw [matchesAt, hnbr]
    rfl
  unfold fuzzySearch answer Comparable
  rw [hmatches]
  change (match et.inCsr.candidates dst src ts with
    | [] => _
    | [slot] => _
    | slots => _) = _
  match et.inCsr.candidates dst src ts with
  | [] => simp
  | [ie] => simp
  | ie :: ie' :: rest =>
    by_cases hproperties : et.properties = [.empty]
    · simp [hproperties]
    · simp [hproperties, csr]

open Classical in
/-- The loop fails when it comes to an edge and the comparison is not supported. -/
theorem matchedOffsets_eq (slots : List Nat) (first : Nat) :
    et.matchedOffsets past src dst ts slots first =
      if ∀ slot ∈ slots, et.outCsr.leadsTo src dst slot = true → et.Comparable src dst ts then
        .ok (((slots.zipIdx first).filter fun m => et.outCsr.leadsTo src dst m.1).map
          fun m => (m.2, et.answer past src dst ts m.1))
      else .error .unsupportedSearchType := by
  induction slots generalizing first with
  | nil => simp [matchedOffsets]
  | cons slot rest ih =>
    simp only [zipIdx_cons, filter_cons, forall_mem_cons, matchedOffsets]
    cases hnbr : (et.outCsr.lists src)[slot]? with
    | none =>
      have hleads : et.outCsr.leadsTo src dst slot = false := by simp [Csr.leadsTo, hnbr]
      simpa [hleads] using ih _
    | some nbr =>
      have hleads : et.outCsr.leadsTo src dst slot = decide (nbr.neighbor = dst) := by
        simp [Csr.leadsTo, hnbr]
      by_cases hdst : nbr.neighbor = dst
      · simp only [hdst, if_true, fuzzySearch_eq hnbr, ih]
        by_cases hcomparable : et.Comparable src dst ts
        · simp [hcomparable, hleads, hdst]
          rfl
        · simp [hcomparable, hleads, hdst]
          rfl
      · simpa [hdst, hleads] using ih _

def marked (et : EdgeTable) (src dst ts : Nat) (oes ies : List Nat) : EdgeTable :=
  { et with outCsr := et.outCsr.tombstones src oes ts, inCsr := et.inCsr.tombstones dst ies ts }

theorem deleteEdge_eq_ok_iff (hstored : et.outCsr.type ≠ .empty ∧ et.inCsr.type ≠ .empty)
    {oe ie : Nat} : et.deleteEdge src dst oe ie ts = .ok et' ↔
      ∃ slot slot', et.outCsr.landing src oe = some slot ∧ et.inCsr.landing dst ie = some slot' ∧
        et' = { et with
          outCsr := et.outCsr.tombstone src slot ts
          inCsr := et.inCsr.tombstone dst slot' ts } := by
  unfold deleteEdge
  simp only [bind_eq_ok, Csr.deleteEdge_eq_ok_iff hstored.1, Csr.deleteEdge_eq_ok_iff hstored.2]
  constructor
  · rintro ⟨out, ⟨slot, hslot, rfl⟩, into, ⟨slot', hslot', rfl⟩, hok⟩
    cases hok
    exact ⟨slot, slot', hslot, hslot', rfl⟩
  · rintro ⟨slot, slot', hslot, hslot', rfl⟩
    exact ⟨_, ⟨slot, hslot, rfl⟩, _, ⟨slot', hslot', rfl⟩, rfl⟩

theorem deleteOffsets_eq_ok_iff (hstored : et.outCsr.type ≠ .empty ∧ et.inCsr.type ≠ .empty)
    {offsets : List (Nat × Nat)} : et.deleteOffsets src dst ts offsets = .ok et' ↔
      (∀ pair ∈ offsets, (et.outCsr.landing src pair.1).isSome ∧
        (et.inCsr.landing dst pair.2).isSome) ∧
      et.marked src dst ts (offsets.filterMap fun pair => et.outCsr.landing src pair.1)
        (offsets.filterMap fun pair => et.inCsr.landing dst pair.2) = et' := by
  induction offsets generalizing et with
  | nil =>
    simp only [deleteOffsets, foldlM_nil, not_mem_nil, false_implies, implies_true,
      true_and, filterMap_nil, marked, Csr.tombstones_nil]
    constructor
    · intro h
      cases h
      rfl
    · rintro rfl
      rfl
  | cons pair rest ih =>
    rw [deleteOffsets, foldlM_cons, bind_eq_ok]
    simp only [deleteEdge_eq_ok_iff hstored]
    constructor
    · rintro ⟨mid, ⟨slot, slot', hslot, hslot', rfl⟩, hrest⟩
      obtain ⟨hland, rfl⟩ := (ih (by exact hstored)).mp hrest
      simp only [Csr.tombstone_landing] at hland ⊢
      refine ⟨?_, ?_⟩
      · exact forall_mem_cons.mpr ⟨⟨by rw [hslot]; rfl, by rw [hslot']; rfl⟩, hland⟩
      · simp only [filterMap_cons, hslot, hslot', marked, Csr.tombstone_tombstones]
    · rintro ⟨hland, rfl⟩
      obtain ⟨hout, hin⟩ := hland pair mem_cons_self
      obtain ⟨slot, hslot⟩ := Option.isSome_iff_exists.mp hout
      obtain ⟨slot', hslot'⟩ := Option.isSome_iff_exists.mp hin
      refine ⟨_, ⟨slot, slot', hslot, hslot', rfl⟩, (ih (by exact hstored)).mpr ⟨?_, ?_⟩⟩
      · intro p hp
        simp only [Csr.tombstone_landing]
        exact hland p (mem_cons_of_mem _ hp)
      · simp only [Csr.tombstone_landing, filterMap_cons, hslot, hslot', marked,
          Csr.tombstone_tombstones]

/-- The slots of the edges from `src` to `dst`, each with its rank among the visible
slots. -/
def rankedEdges (et : EdgeTable) (src dst ts : Nat) : List (Nat × Nat) :=
  ranked (et.outCsr.leadsTo src dst) (et.outCsr.visibleSlots src ts)

theorem rankedEdges_map_fst (et : EdgeTable) (src dst ts : Nat) :
    (et.rankedEdges src dst ts).map Prod.fst = et.outCsr.candidates src dst ts :=
  ranked_map_fst _ _

/-- A rank is not larger than its slot, so that the entry with this rank as its slot
exists and is the one that is marked. -/
theorem landing_rank (hout : et.outCsr.Represented) (hstored : et.outCsr.type ≠ .empty)
    {m : Nat × Nat} (hm : m ∈ et.rankedEdges src dst ts) :
    et.outCsr.landing src m.2 = some m.2 := by
  obtain ⟨hrank, -⟩ := mem_ranked.mp hm
  obtain ⟨entry, hentry, -⟩ := Csr.mem_visibleSlots.mp (mem_of_getElem? hrank)
  exact hout.landing_of_le hstored hentry (rank_le (Csr.visibleSlots_increasing _ _ _) hrank)

def markedIncoming (et : EdgeTable) (past : PastEnd) (src dst ts : Nat) : List Nat :=
  (et.outCsr.candidates src dst ts).filterMap fun oe =>
    et.inCsr.landing dst (et.answer past src dst ts oe)

/-- The deletion succeeds when every search does.  In the list of the source it marks the
ranks of the edges. -/
theorem deleteEdges_eq_ok_iff_marked (hout : et.outCsr.Represented)
    (hstored : et.outCsr.type ≠ .empty ∧ et.inCsr.type ≠ .empty) :
    et.deleteEdges past src dst readTs writeTs = .ok et' ↔
      (et.outCsr.candidates src dst readTs ≠ [] → et.Comparable src dst readTs) ∧
      (∀ oe ∈ et.outCsr.candidates src dst readTs,
        (et.inCsr.landing dst (et.answer past src dst readTs oe)).isSome) ∧
      et.marked src dst writeTs ((et.rankedEdges src dst readTs).map Prod.snd)
        (et.markedIncoming past src dst readTs) = et' := by
  rw [deleteEdges, if_neg (not_or.mpr hstored)]
  have hsearch : (∀ slot ∈ et.outCsr.visibleSlots src readTs,
      et.outCsr.leadsTo src dst slot = true → et.Comparable src dst readTs) ↔
        (et.outCsr.candidates src dst readTs ≠ [] → et.Comparable src dst readTs) := by
    simp [Csr.candidates_eq_filter]
  rw [matchedOffsets_eq]
  split
  next hall =>
    have hcomparable := hsearch.mp hall
    change et.deleteOffsets src dst writeTs ((et.rankedEdges src dst readTs).map _) = _ ↔ _
    rw [deleteOffsets_eq_ok_iff hstored]
    have hoes : (et.rankedEdges src dst readTs).filterMap (fun m => et.outCsr.landing src m.2) =
        (et.rankedEdges src dst readTs).map Prod.snd := by
      rw [← filterMap_eq_map]
      exact filterMap_congr fun m hm => landing_rank hout hstored.1 hm
    have hies : (et.rankedEdges src dst readTs).filterMap
        (fun m => et.inCsr.landing dst (et.answer past src dst readTs m.1)) =
          et.markedIncoming past src dst readTs := by
      rw [markedIncoming, ← rankedEdges_map_fst, filterMap_map]
      rfl
    rw [and_iff_right hcomparable]
    simp only [filterMap_map, comp_def, hoes, hies, forall_mem_map, ← rankedEdges_map_fst]
    refine and_congr_left fun _ => forall₂_congr fun m hm => ?_
    rw [landing_rank hout hstored.1 hm]
    simp
  next hnot => exact iff_of_false (fun h => by cases h) fun h => hnot (hsearch.mpr h.1)

/-- In the list of the source the deletion is right when no slot before an edge is
invisible. -/
theorem tombstones_ranks_eq_erase_iff (hread : readTs < kDeletedTimestamp)
    (hwrite : writeTs < kDeletedTimestamp) :
    et.outCsr.tombstones src ((et.rankedEdges src dst readTs).map Prod.snd) writeTs =
        et.outCsr.erase src dst readTs ↔ (∀ oe ∈ et.outCsr.candidates src dst readTs, ∀ slot < oe,
        slot ∈ et.outCsr.visibleSlots src readTs) ∧ et.outCsr.NotNewer src dst readTs writeTs := by
  have hincreasing := et.outCsr.visibleSlots_increasing src readTs
  have haligned := filter_subset_ranks_iff hincreasing (et.outCsr.leadsTo src dst)
  rw [← Csr.candidates_eq_filter] at haligned
  rw [Csr.tombstones_eq_erase_iff hread hwrite, rankedEdges, haligned]
  refine and_congr_right fun hall => and_iff_left ?_
  intro slot hslot hnot
  obtain ⟨m, hm, rfl⟩ := mem_map.mp hslot
  have hmem : m.1 ∈ et.outCsr.candidates src dst readTs := by
    rw [← rankedEdges_map_fst]
    exact mem_map_of_mem hm
  have hrank := (rank_eq_iff hincreasing (mem_ranked.mp hm).1).mpr (hall m.1 hmem)
  rw [hrank] at hnot
  exact absurd hmem hnot

section Answers

variable {oe : Nat}

theorem answer_of_several (hies : 2 ≤ (et.inCsr.candidates dst src ts).length) :
    et.answer past src dst ts oe =
      ((et.inCsr.candidates dst src ts).find? (et.matchesAt past src dst oe)).getD kNoOffset := by
  unfold answer
  match h : et.inCsr.candidates dst src ts with
  | [] => simp [h] at hies
  | [ie] => simp [h] at hies
  | ie :: ie' :: rest => rfl

/-- An incoming edge is marked where it is. -/
theorem landing_candidate (hin : et.inCsr.Represented) (hstored : et.inCsr.type ≠ .empty)
    {ie : Nat} (hie : ie ∈ et.inCsr.candidates dst src ts) : et.inCsr.landing dst ie = some ie := by
  obtain ⟨entry, hentry, -⟩ := Csr.mem_candidates.mp hie
  exact hin.landing_of_le hstored hentry le_rfl

/-- Among several incoming edges the search has to find one, or nothing can be marked. -/
theorem find?_of_landing (hin : et.inCsr.Represented)
    (hies : 2 ≤ (et.inCsr.candidates dst src ts).length)
    (hland : (et.inCsr.landing dst (et.answer past src dst ts oe)).isSome) :
    ∃ ie, (et.inCsr.candidates dst src ts).find? (et.matchesAt past src dst oe) = some ie ∧
      et.answer past src dst ts oe = ie := by
  rw [answer_of_several hies] at hland ⊢
  cases hfind : (et.inCsr.candidates dst src ts).find? (et.matchesAt past src dst oe) with
  | some ie => exact ⟨ie, rfl, rfl⟩
  | none =>
    rw [hfind] at hland
    obtain ⟨slot, hslot⟩ := Option.isSome_iff_exists.mp hland
    obtain ⟨htype, -⟩ := hin.landing_noOffset hslot
    exact absurd (hin.candidates_length_le htype) (Nat.not_le.mpr hies)

theorem mem_markedIncoming {slot : Nat} : slot ∈ et.markedIncoming past src dst ts ↔
    ∃ oe ∈ et.outCsr.candidates src dst ts,
      et.inCsr.landing dst (et.answer past src dst ts oe) = some slot := by
  rw [markedIncoming, mem_filterMap]

end Answers

structure IncomingOk (et : EdgeTable) (past : PastEnd) (src dst readTs writeTs : Nat) :
    Prop where
  comparable : et.outCsr.candidates src dst readTs ≠ [] → et.Comparable src dst readTs
  lands : ∀ oe ∈ et.outCsr.candidates src dst readTs,
    (et.inCsr.landing dst (et.answer past src dst readTs oe)).isSome
  subset : et.inCsr.candidates dst src readTs ⊆ et.markedIncoming past src dst readTs
  others : ∀ slot ∈ et.markedIncoming past src dst readTs,
    slot ∉ et.inCsr.candidates dst src readTs →
      ∀ entry, (et.inCsr.lists dst)[slot]? = some entry → writeTs < entry.timestamp

theorem IncomingOk.separable (h : et.IncomingOk past src dst readTs writeTs)
    (hin : et.inCsr.Represented) (hstored : et.outCsr.type ≠ .empty ∧ et.inCsr.type ≠ .empty)
    (haligned : ∀ oe ∈ et.outCsr.candidates src dst readTs, ∀ slot < oe,
      slot ∈ et.outCsr.visibleSlots src readTs)
    (hnew : et.outCsr.NotNewer src dst readTs writeTs ∧ et.inCsr.NotNewer dst src readTs writeTs) :
    et.Separable past src dst readTs writeTs := by
  have hincreasing := et.inCsr.candidates_increasing dst src readTs
  refine ⟨hstored, haligned, hnew, fun hoes => ?_, fun hoes hies => ?_, fun hoes hies =>
    ⟨h.comparable hoes hies, fun oe hoe => ?_, fun ie hie => ?_⟩⟩
  · have hsubset := h.subset
    rw [markedIncoming, hoes, filterMap_nil] at hsubset
    exact subset_nil.mp hsubset
  · obtain ⟨oe, hoe⟩ := exists_mem_of_ne_nil _ hoes
    obtain ⟨slot, hslot⟩ := Option.isSome_iff_exists.mp (h.lands oe hoe)
    have hmarked := mem_markedIncoming.mpr ⟨oe, hoe, hslot⟩
    rw [answer, hies] at hslot
    obtain ⟨htype, hdst, rfl⟩ := hin.landing_noOffset hslot
    refine ⟨htype, hdst, fun entry hentry => ?_⟩
    obtain ⟨i, hi⟩ := mem_iff_getElem?.mp hentry
    have hzero : i = 0 := by
      have hlt := (List.getElem?_eq_some_iff.mp hi).1
      have hle := hin.single htype dst
      omega
    exact h.others 0 hmarked (by simp [hies]) entry (hzero ▸ hi)
  · obtain ⟨ie, hfind, -⟩ := find?_of_landing hin hies (h.lands oe hoe)
    obtain ⟨hmem, hmatch, -⟩ := (find?_eq_some_iff_least hincreasing).mp hfind
    exact ⟨ie, hmem, hmatch⟩
  · obtain ⟨oe, hoe, hland⟩ := mem_markedIncoming.mp (h.subset hie)
    obtain ⟨found, hfind, hanswer⟩ := find?_of_landing hin hies (h.lands oe hoe)
    obtain ⟨hmem, hleast⟩ := (find?_eq_some_iff_least hincreasing).mp hfind
    rw [hanswer, landing_candidate hin hstored.2 hmem, Option.some.injEq] at hland
    exact ⟨oe, hoe, hland ▸ hleast⟩

theorem Separable.incomingOk (h : et.Separable past src dst readTs writeTs)
    (hin : et.inCsr.Represented) : et.IncomingOk past src dst readTs writeTs := by
  have hincreasing := et.inCsr.candidates_increasing dst src readTs
  -- which entry the search for an outgoing edge finds
  have hanswer : ∀ oe ∈ et.outCsr.candidates src dst readTs,
      (et.inCsr.candidates dst src readTs = [] ∧
        et.answer past src dst readTs oe = kNoOffset) ∨
      et.answer past src dst readTs oe ∈ et.inCsr.candidates dst src readTs := by
    intro oe hoe
    match hies : et.inCsr.candidates dst src readTs with
    | [] => exact .inl ⟨rfl, by rw [answer, hies]⟩
    | [ie] =>
      right
      rw [answer, hies]
      exact mem_singleton.mpr rfl
    | ie :: ie' :: rest =>
      right
      have htwo : 2 ≤ (et.inCsr.candidates dst src readTs).length := by simp [hies]
      obtain ⟨-, hfound, -⟩ := h.toldApart (ne_nil_of_mem hoe) htwo
      obtain ⟨found, hfind⟩ := Option.isSome_iff_exists.mp
        (find?_isSome.mpr (hfound oe hoe))
      rw [answer_of_several htwo, hfind, ← hies]
      exact mem_of_find?_eq_some hfind
  refine ⟨fun hoes hies => (h.toldApart hoes hies).1, fun oe hoe => ?_, fun ie hie => ?_, ?_⟩
  · rcases hanswer oe hoe with ⟨hnone, hno⟩ | hmem
    · obtain ⟨htype, hdst, -⟩ := h.answered (ne_nil_of_mem hoe) hnone
      simp only [Csr.landing, htype, hdst, if_true, Option.isSome_some]
    · rw [landing_candidate hin h.stored.2 hmem]
      rfl
  · rw [mem_markedIncoming]
    have hoes : et.outCsr.candidates src dst readTs ≠ [] := fun hnone =>
      ne_nil_of_mem hie (h.covered hnone)
    match hies : et.inCsr.candidates dst src readTs with
    | [] => simp [hies] at hie
    | [only] =>
      obtain ⟨oe, hoe⟩ := exists_mem_of_ne_nil _ hoes
      obtain rfl : ie = only := mem_singleton.mp (hies ▸ hie)
      refine ⟨oe, hoe, ?_⟩
      rw [answer, hies]
      exact landing_candidate hin h.stored.2 hie
    | only :: other :: rest =>
      have htwo : 2 ≤ (et.inCsr.candidates dst src readTs).length := by simp [hies]
      obtain ⟨-, -, hfirst⟩ := h.toldApart hoes htwo
      obtain ⟨oe, hoe, hleast⟩ := hfirst ie hie
      have hfind := (find?_eq_some_iff_least hincreasing).mpr ⟨hie, hleast⟩
      refine ⟨oe, hoe, ?_⟩
      rw [answer_of_several htwo, hfind]
      exact landing_candidate hin h.stored.2 hie
  · intro slot hslot hnot entry hentry
    obtain ⟨oe, hoe, hland⟩ := mem_markedIncoming.mp hslot
    rcases hanswer oe hoe with ⟨hnone, -⟩ | hmem
    · obtain ⟨-, -, hnewer⟩ := h.answered (ne_nil_of_mem hoe) hnone
      exact hnewer entry (mem_of_getElem? hentry)
    · rw [landing_candidate hin h.stored.2 hmem, Option.some.injEq] at hland
      exact absurd (hland ▸ hmem) hnot

/-- Deleting the edges from `src` to `dst` removes exactly the visible ones, from both
lists, if and only if the table is separable for them. -/
theorem deleteEdges_eq_eraseEdges_iff (hout : et.outCsr.Represented)
    (hin : et.inCsr.Represented) (hread : readTs < kDeletedTimestamp)
    (hwrite : writeTs < kDeletedTimestamp) :
    et.deleteEdges past src dst readTs writeTs = .ok (et.eraseEdges src dst readTs) ↔
      et.Separable past src dst readTs writeTs := by
  by_cases hstored : et.outCsr.type ≠ .empty ∧ et.inCsr.type ≠ .empty
  · rw [deleteEdges_eq_ok_iff_marked hout hstored, eraseEdges, marked, EdgeTable.mk.injEq]
    simp only [true_and, and_true]
    rw [tombstones_ranks_eq_erase_iff hread hwrite, Csr.tombstones_eq_erase_iff hread hwrite]
    constructor
    · rintro ⟨hcomparable, hlands, ⟨haligned, hnewOut⟩, hsubset, hnewIn, hothers⟩
      exact IncomingOk.separable ⟨hcomparable, hlands, hsubset, hothers⟩ hin hstored haligned
        ⟨hnewOut, hnewIn⟩
    · intro h
      obtain ⟨hcomparable, hlands, hsubset, hothers⟩ := h.incomingOk hin
      exact ⟨hcomparable, hlands, ⟨h.aligned, h.notNewer.1⟩, hsubset, h.notNewer.2, hothers⟩
  · have hempty : et.outCsr.type = .empty ∨ et.inCsr.type = .empty := by
      by_contra hnot
      exact hstored (not_or.mp hnot)
    rw [deleteEdges, if_pos hempty]
    exact iff_of_false (fun h => by cases h) fun h => hstored h.stored

end EdgeTable

end Neug.Storage
