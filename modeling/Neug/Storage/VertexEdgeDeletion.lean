import Neug.Storage.EdgeTableBalance

/-! # Deleting the edges of a vertex

`DeleteVertex` walks along the list of the vertex in one direction and searches in the
other direction for the entry of each edge.  The search may confuse edges between the same
two vertices.  This does not matter in the end: every round marks one entry in each
direction, both for an edge between the vertex and the same neighbour, so that when the
list of the vertex is used up, so are the entries that lead to it.
-/

namespace Neug.Storage

open Library Function Multiset

namespace Csr

variable {csr : Csr} {v slot ts : Nat}

theorem Represented.tombstone (h : csr.Represented) (v slot ts : Nat) :
    (csr.tombstone v slot ts).Represented := by
  refine ⟨h.modify v slot (mark ts), fun u => ?_⟩
  rw [Csr.tombstone]
  by_cases hu : u = v
  · subst hu
    simpa only [update_self, List.length_modify] using h.degree u
  · simpa only [update_of_ne hu] using h.degree u

theorem visibleSlots_tombstone {entry : Nbr} (hentry : (csr.lists v)[slot]? = some entry)
    (hold : entry.timestamp ≤ ts) (hts : ts < kDeletedTimestamp) :
    (csr.tombstone v slot ts).visibleSlots v ts =
      (csr.visibleSlots v ts).filter fun i => i ≠ slot := by
  simp only [visibleSlots, tombstone, update_self, List.length_modify, List.filter_filter]
  refine List.filter_congr fun i _ => ?_
  by_cases hi : slot = i
  · subst hi
    simp [hentry, hold, hts]
  · simp [hi, Ne.symm hi]

end Csr

namespace EdgeTable

variable {et et' : EdgeTable} {past : PastEnd} {isSrc : Bool} {v ts slot : Nat} {cur : Nbr}

theorem Balanced.csr_same (h : et.Balanced) (isSrc : Bool) :
    (et.csr isSrc).edges = (et.csr (!isSrc)).edges.map flipEdge := by
  cases isSrc with
  | true => exact h.same
  | false =>
    change et.inCsr.edges = et.outCsr.edges.map flipEdge
    rw [h.same, map_flipEdge_flipEdge]

/-! ### The search -/

variable {found nbr : Nat}

/-- A search that has something to find finds it, or fails among several. -/
theorem fuzzySearch_found {word : Nat}
    (hsearch : et.fuzzySearch past isSrc v nbr cur word ts = .ok found)
    (hsome : (et.csr isSrc).candidates v nbr ts ≠ []) : found ∈ (et.csr isSrc).candidates v nbr ts ∨
      found = kNoOffset ∧ 2 ≤ ((et.csr isSrc).candidates v nbr ts).length := by
  unfold fuzzySearch at hsearch
  simp only at hsearch
  split at hsearch
  next hnone => exact absurd hnone hsome
  next only honly =>
    cases hsearch
    rw [honly]
    exact .inl List.mem_cons_self
  next hnone hone =>
    split at hsearch
    · cases hsearch
    · cases hsearch
      cases hfind : ((et.csr isSrc).candidates v nbr ts).find? fun slot =>
          (((et.csr isSrc).lists v)[slot]?).any fun found =>
            et.sameEdge cur word found ((et.csr isSrc).wordAfter (past isSrc) v slot) with
      | some ie => exact .inl (List.mem_of_find?_eq_some hfind)
      | none =>
        right
        refine ⟨rfl, ?_⟩
        match hslots : (et.csr isSrc).candidates v nbr ts with
        | [] => exact absurd hslots hnone
        | [only] => exact absurd hslots (hone only)
        | _ :: _ :: _ => exact Nat.le_add_left 2 _

/-- The slot that is marked for the result of such a search is one of an entry to the
right neighbour. -/
theorem landing_fuzzySearch {word other : Nat} (hrep : (et.csr isSrc).Represented)
    (hstored : (et.csr isSrc).type ≠ .empty)
    (hsearch : et.fuzzySearch past isSrc v nbr cur word ts = .ok found)
    (hsome : (et.csr isSrc).candidates v nbr ts ≠ [])
    (hland : (et.csr isSrc).landing v found = some other) :
    other ∈ (et.csr isSrc).candidates v nbr ts := by
  rcases fuzzySearch_found hsearch hsome with hfound | ⟨rfl, hseveral⟩
  · obtain ⟨entry, hentry, -⟩ := Csr.mem_candidates.mp hfound
    rw [hrep.landing_of_le hstored hentry le_rfl, Option.some.injEq] at hland
    exact hland ▸ hfound
  · obtain ⟨htype, -⟩ := hrep.landing_noOffset hland
    exact absurd (hrep.candidates_length_le htype) (Nat.not_le.mpr hseveral)

/-! ### The loop -/

/-- An edge of `v` that the loop has to delete, in the list of `v`. -/
def Leaving (v ts : Nat) (e : Nat × Nbr) : Prop := e.1 = v ∧ e.2.timestamp ≤ ts

def Arriving (v ts : Nat) (e : Nat × Nbr) : Prop := e.2.neighbor = v ∧ e.2.timestamp ≤ ts

instance (v ts : Nat) : DecidablePred (Leaving v ts) := fun _ => inferInstanceAs (Decidable (_ ∧ _))

instance (v ts : Nat) : DecidablePred (Arriving v ts) :=
  fun _ => inferInstanceAs (Decidable (_ ∧ _))

/-- What holds between two rounds: the edges of `v` that are left lead to the same
neighbours in both directions. -/
structure Deleting (isSrc : Bool) (v ts : Nat) (et : EdgeTable) : Prop where
  stored : ∀ isSrc, (et.csr isSrc).type ≠ .empty
  represented : ∀ isSrc, (et.csr isSrc).Represented
  neighbours : ((et.csr isSrc).edges.filter (Leaving v ts)).map (fun e => e.2.neighbor) =
    ((et.csr (!isSrc)).edges.filter (Arriving v ts)).map Prod.fst

theorem Balanced.deleting (h : et.Balanced) (hout : et.outCsr.Represented)
    (hin : et.inCsr.Represented) (isSrc : Bool) (v ts : Nat) : Deleting isSrc v ts et := by
  refine ⟨?_, ?_, ?_⟩
  · rintro (_ | _)
    · exact h.stored.2
    · exact h.stored.1
  · rintro (_ | _)
    · exact hin
    · exact hout
  · rw [h.csr_same isSrc, filter_flip (Leaving v ts) (Arriving v ts) (fun _ => Iff.rfl), map_map]
    rfl

structure Round (et et' : EdgeTable) (isSrc : Bool) (v ts slot : Nat) (cur : Nbr) (other : Nat)
    (entry : Nbr) : Prop where
  mine : et'.csr isSrc = (et.csr isSrc).tombstone v slot ts
  found : ((et.csr (!isSrc)).lists cur.neighbor)[other]? = some entry
  arriving : Arriving v ts (cur.neighbor, entry)
  others : et'.csr (!isSrc) = (et.csr (!isSrc)).tombstone cur.neighbor other ts

/-- Deleting the edge of two offsets, seen from either direction. -/
theorem deleteEdge_csr (hstored : ∀ isSrc, (et.csr isSrc).type ≠ .empty)
    (h : (if isSrc then et.deleteEdge v nbr slot found ts else et.deleteEdge nbr v found slot ts) =
      .ok et') : ∃ mine other, (et.csr isSrc).landing v slot = some mine ∧
      (et.csr (!isSrc)).landing nbr found = some other ∧
      et'.csr isSrc = (et.csr isSrc).tombstone v mine ts ∧
      et'.csr (!isSrc) = (et.csr (!isSrc)).tombstone nbr other ts := by
  have hboth := And.intro (hstored true) (hstored false)
  cases isSrc with
  | true =>
    obtain ⟨mine, other, hmine, hother, rfl⟩ := (deleteEdge_eq_ok_iff hboth).mp h
    exact ⟨mine, other, hmine, hother, rfl, rfl⟩
  | false =>
    obtain ⟨other, mine, hother, hmine, rfl⟩ := (deleteEdge_eq_ok_iff hboth).mp h
    exact ⟨mine, other, hmine, hother, rfl, rfl⟩

theorem Deleting.round (h : Deleting isSrc v ts et) (hts : ts < kDeletedTimestamp)
    (hslot : slot ∈ (et.csr isSrc).visibleSlots v ts)
    (hdelete : deleteSlot past isSrc v ts et slot = .ok et') :
    ∃ cur other entry, ((et.csr isSrc).lists v)[slot]? = some cur ∧ cur.timestamp ≤ ts ∧
      Round et et' isSrc v ts slot cur other entry := by
  obtain ⟨cur, hcur, hold⟩ := Csr.mem_visibleSlots.mp hslot
  -- the neighbour has an entry that leads back
  have hback : (et.csr (!isSrc)).candidates cur.neighbor v ts ≠ [] := by
    have hmem : cur.neighbor ∈
        ((et.csr isSrc).edges.filter (Leaving v ts)).map fun e => e.2.neighbor := by
      refine mem_map.mpr ⟨(v, cur), mem_filter.mpr ⟨?_, rfl, hold⟩, rfl⟩
      exact Csr.mem_edges.mpr ⟨(h.represented isSrc).lt_capacity hcur, List.mem_of_getElem? hcur,
        Nbr.live_of_le hts hold⟩
    rw [h.neighbours] at hmem
    obtain ⟨⟨n, entry⟩, hentry, hn⟩ := mem_map.mp hmem
    obtain ⟨hstored, harriving⟩ := mem_filter.mp hentry
    obtain ⟨-, hlist, -⟩ := Csr.mem_edges.mp hstored
    obtain ⟨i, hi⟩ := List.mem_iff_getElem?.mp hlist
    obtain rfl : n = cur.neighbor := hn
    exact List.ne_nil_of_mem (Csr.mem_candidates.mpr ⟨entry, hi, harriving.2, harriving.1⟩)
  unfold deleteSlot at hdelete
  rw [hcur] at hdelete
  obtain ⟨found, hsearch, hdelete⟩ := bind_eq_ok.mp hdelete
  obtain ⟨mine, other, hmine, hother, hcsr, hcsr'⟩ := deleteEdge_csr h.stored hdelete
  rw [(h.represented isSrc).landing_of_le (h.stored isSrc) hcur le_rfl, Option.some.injEq] at hmine
  subst hmine
  have hfound :=
    landing_fuzzySearch (h.represented (!isSrc)) (h.stored (!isSrc)) hsearch hback hother
  obtain ⟨entry, hentry, hentryTs, hnbr⟩ := Csr.mem_candidates.mp hfound
  exact ⟨cur, other, entry, hcur, hold, hcsr, hentry, ⟨hnbr, hentryTs⟩, hcsr'⟩

section Round

variable {other : Nat} {entry : Nbr}

section

variable (h : Round et et' isSrc v ts slot cur other entry) (hinv : Deleting isSrc v ts et)
  (hts : ts < kDeletedTimestamp)
include h hinv hts

theorem Round.leaving_edges
    (hcur : ((et.csr isSrc).lists v)[slot]? = some cur) (hold : cur.timestamp ≤ ts) :
    (et'.csr isSrc).edges + {(v, cur)} = (et.csr isSrc).edges := by
  have hx := Csr.exchange_tombstone (hinv.represented isSrc).toFramed hcur hold hts
  rw [h.mine, hx.edges_eq, add_zero]

theorem Round.arriving_edges :
    (et'.csr (!isSrc)).edges + {(cur.neighbor, entry)} = (et.csr (!isSrc)).edges := by
  have hx := Csr.exchange_tombstone (hinv.represented (!isSrc)).toFramed h.found h.arriving.2 hts
  rw [h.others, hx.edges_eq, add_zero]

theorem Round.deleting
    (hcur : ((et.csr isSrc).lists v)[slot]? = some cur) (hold : cur.timestamp ≤ ts) :
    Deleting isSrc v ts et' := by
  have hcsr : ∀ dir, ∃ u i, et'.csr dir = (et.csr dir).tombstone u i ts := by
    intro dir
    rcases Bool.eq_or_eq_not dir isSrc with rfl | rfl
    · exact ⟨v, slot, h.mine⟩
    · exact ⟨cur.neighbor, other, h.others⟩
  refine ⟨fun dir => ?_, fun dir => ?_, ?_⟩
  · obtain ⟨u, i, hdir⟩ := hcsr dir
    rw [hdir]
    exact hinv.stored dir
  · obtain ⟨u, i, hdir⟩ := hcsr dir
    rw [hdir]
    exact (hinv.represented dir).tombstone u i ts
  · -- one edge to the same neighbour is gone from each side
    have hneighbours := hinv.neighbours
    rw [← h.leaving_edges hinv hts hcur hold, ← h.arriving_edges hinv hts, filter_add,
      filter_add, filter_singleton, filter_singleton,
      if_pos (show Leaving v ts (v, cur) from ⟨rfl, hold⟩), if_pos h.arriving, Multiset.map_add,
      Multiset.map_add, map_singleton, map_singleton] at hneighbours
    exact add_right_cancel hneighbours

end

end Round

/-- The loop removes the edges of `v` from both directions and no others. -/
theorem deleteSlots_edges {slots : List Nat} (hinv : Deleting isSrc v ts et)
    (hts : ts < kDeletedTimestamp) (hslots : (et.csr isSrc).visibleSlots v ts = slots)
    (hdelete : slots.foldlM (deleteSlot past isSrc v ts) et = .ok et') : Deleting isSrc v ts et' ∧
      (et'.csr isSrc).edges = (et.csr isSrc).edges.filter (fun e => ¬Leaving v ts e) ∧
      (et'.csr (!isSrc)).edges = (et.csr (!isSrc)).edges.filter (fun e => ¬Arriving v ts e) := by
  induction slots generalizing et with
  | nil =>
    cases hdelete
    have hnone : (et'.csr isSrc).edges.filter (Leaving v ts) = 0 := by
      rw [filter_eq_nil]
      rintro e he ⟨rfl, hold⟩
      obtain ⟨-, hlist, -⟩ := Csr.mem_edges.mp he
      obtain ⟨i, hi⟩ := List.mem_iff_getElem?.mp hlist
      have hvisible := Csr.mem_visibleSlots.mpr ⟨e.2, hi, hold⟩
      rw [hslots] at hvisible
      cases hvisible
    have hnone' : (et'.csr (!isSrc)).edges.filter (Arriving v ts) = 0 := by
      rw [← Multiset.map_eq_zero (f := Prod.fst), ← hinv.neighbours, hnone, Multiset.map_zero]
    refine ⟨hinv, ?_, ?_⟩
    · exact (filter_eq_self.mpr (filter_eq_nil.mp hnone)).symm
    · exact (filter_eq_self.mpr (filter_eq_nil.mp hnone')).symm
  | cons slot rest ih =>
    rw [List.foldlM_cons, bind_eq_ok] at hdelete
    obtain ⟨mid, hmid, hrest⟩ := hdelete
    have hslot : slot ∈ (et.csr isSrc).visibleSlots v ts := by
      rw [hslots]
      exact List.mem_cons_self
    obtain ⟨cur, other, entry, hcur, hold, hround⟩ := hinv.round hts hslot hmid
    have hvisible : (mid.csr isSrc).visibleSlots v ts = rest := by
      have hincreasing := (et.csr isSrc).visibleSlots_increasing v ts
      rw [hslots, List.pairwise_cons] at hincreasing
      rw [hround.mine, Csr.visibleSlots_tombstone hcur hold hts, hslots,
        List.filter_cons_of_neg (by simp), List.filter_eq_self]
      intro i hi
      simpa using Nat.ne_of_gt (hincreasing.1 i hi)
    obtain ⟨hend, hmine, hothers⟩ := ih (hround.deleting hinv hts hcur hold) hvisible hrest
    refine ⟨hend, ?_, ?_⟩
    · rw [hmine, ← hround.leaving_edges hinv hts hcur hold, filter_add,
        filter_singleton, if_neg (not_not.mpr ⟨rfl, hold⟩)]
      exact (add_zero _).symm
    · rw [hothers, ← hround.arriving_edges hinv hts, filter_add,
        filter_singleton, if_neg (not_not.mpr hround.arriving)]
      exact (add_zero _).symm

theorem Balanced.deleteVertex (h : et.Balanced) (hout : et.outCsr.Represented)
    (hin : et.inCsr.Represented) (hts : ts < kDeletedTimestamp)
    (hdelete : et.deleteVertex past isSrc v ts = .ok et') : et'.Balanced := by
  unfold EdgeTable.deleteVertex at hdelete
  split at hdelete
  · cases hdelete
  obtain ⟨hend, hmine, hothers⟩ :=
    deleteSlots_edges (h.deleting hout hin isSrc v ts) hts rfl hdelete
  refine ⟨⟨hend.stored true, hend.stored false⟩, (hend.represented true).toFramed,
    (hend.represented false).toFramed, ?_⟩
  have hflip : (et'.csr isSrc).edges = (et'.csr (!isSrc)).edges.map flipEdge := by
    rw [hmine, hothers, h.csr_same isSrc]
    exact filter_flip _ _ (fun _ => Iff.rfl) _
  cases isSrc with
  | true => exact hflip
  | false =>
    have hback := congrArg (Multiset.map flipEdge) hflip
    rw [map_flipEdge_flipEdge] at hback
    exact hback.symm

end EdgeTable

end Neug.Storage
