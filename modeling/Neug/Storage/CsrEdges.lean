import Neug.Storage.EdgeTableBatch

/-! # The edges of an adjacency structure

What an adjacency structure stores is the multiset of its entries that are not marked
deleted, each with the vertex in whose list it is.  This file says for each operation of
a structure what it does to this multiset.  A deletion that finds its entry by an offset
removes whatever is there, and a batch insertion may lose edges: those it skips and those
it overwrites.  Both are named, so that the two structures of an edge table can be
compared.
-/

namespace Neug.Storage

open Library Function List Nbr

/-! ### Marked entries do not count -/

variable (s : Multiset (Nat × Nbr))

def liveEdges : Multiset (Nat × Nbr) :=
  s.filter fun e => e.2.live = true

@[simp] theorem liveEdges_add (s t : Multiset (Nat × Nbr)) :
    liveEdges (s + t) = liveEdges s + liveEdges t :=
  Multiset.filter_add _ s t

theorem liveEdges_single {e : Nat × Nbr} (h : e.2.live = true) : liveEdges {e} = {e} := by
  rw [liveEdges, Multiset.filter_singleton, if_pos h]

theorem liveEdges_single_of_not {e : Nat × Nbr} (h : e.2.live = false) : liveEdges {e} = 0 := by
  rw [liveEdges, Multiset.filter_singleton, if_neg (by simp [h])]
  rfl

theorem Nbr.dead_live (nbr : Nbr) : nbr.dead.live = false := by
  simp [dead, live]

theorem Csr.settled_live (nbr : Nbr) : (settled nbr).live = true := by
  simp [settled, live, kDeletedTimestamp]

theorem Nbr.live_of_le {nbr : Nbr} {ts : Nat} (hts : ts < kDeletedTimestamp)
    (hle : nbr.timestamp ≤ ts) : nbr.live = true := by
  simp [live, Nat.ne_of_lt (Nat.lt_of_le_of_lt hle hts)]

@[simp] theorem map_flipEdge_flipEdge : (s.map flipEdge).map flipEdge = s := by
  rw [Multiset.map_map]
  exact Multiset.map_id s

theorem liveEdges_flip : liveEdges (s.map flipEdge) = (liveEdges s).map flipEdge :=
  Multiset.filter_map _ _ _

/-- Selecting by a property of edges, seen from the other end. -/
theorem filter_flip (p q : Nat × Nbr → Prop) [DecidablePred p] [DecidablePred q]
    (h : ∀ e, p (flipEdge e) ↔ q e) (s : Multiset (Nat × Nbr)) :
    (s.map flipEdge).filter p = (s.filter q).map flipEdge := by
  rw [Multiset.filter_map]
  congr 1
  exact Multiset.filter_congr fun e _ => h e

namespace Csr

variable {csr csr' : Csr} {v nbr ts slot offset : Nat}

def edges (csr : Csr) : Multiset (Nat × Nbr) := ↑csr.batchExport

theorem edges_eq (csr : Csr) : csr.edges = liveEdges ↑(owned csr.vertexCapacity csr.lists) := by
  simp [edges, batchExport, liveEdges]

theorem mem_edges {e : Nat × Nbr} : e ∈ csr.edges ↔
    e.1 < csr.vertexCapacity ∧ e.2 ∈ csr.lists e.1 ∧ e.2.live = true := by
  rw [edges, Multiset.mem_coe, batchExport, mem_filter, mem_owned, and_assoc]

/-- Lists that do not get longer stay within the arrays. -/
theorem Framed.of_length_le (h : csr.Framed) {lists : Nat → List Nbr}
    (hlength : ∀ v, (lists v).length ≤ (csr.lists v).length) :
    ({ csr with lists } : Csr).Framed := by
  constructor
  · intro v hv
    have hle := hlength v
    rw [h.beyond v hv] at hle
    exact eq_nil_of_length_eq_zero (Nat.le_zero.mp hle)
  · intro hsingle v
    exact (hlength v).trans (h.single hsingle v)

/-- A structure keeps its layout and stays within its arrays while the edges `gone` go and
the edges `new` come. -/
structure Exchange (csr csr' : Csr) (gone new : Multiset (Nat × Nbr)) : Prop where
  framed : csr'.Framed
  type_eq : csr'.type = csr.type
  edges_eq : csr'.edges + gone = csr.edges + new

theorem Exchange.refl (h : csr.Framed) : csr.Exchange csr 0 0 := ⟨h, rfl, rfl⟩

theorem Exchange.trans {csr'' : Csr} {gone new gone' new' : Multiset (Nat × Nbr)}
    (h : csr.Exchange csr' gone new) (h' : csr'.Exchange csr'' gone' new') :
    csr.Exchange csr'' (gone + gone') (new + new') := by
  refine ⟨h'.framed, h'.type_eq.trans h.type_eq, ?_⟩
  rw [add_comm gone, ← add_assoc, h'.edges_eq, add_right_comm, h.edges_eq, add_assoc]

def setList (csr : Csr) (v : Nat) (l : List Nbr) : Csr :=
  { csr with lists := update csr.lists v l }

theorem exchange_setList (h : csr.Framed) (hv : v < csr.vertexCapacity) {l : List Nbr}
    (hl : csr.type = .singleMutable → l.length ≤ 1) : csr.Exchange (csr.setList v l)
      (liveEdges ↑((csr.lists v).map (v, ·))) (liveEdges ↑(l.map (v, ·))) := by
  refine ⟨⟨fun u hu => ?_, fun hsingle u => ?_⟩, rfl, ?_⟩
  · have hne : u ≠ v := fun heq => absurd hu (Nat.not_le.mpr (heq ▸ hv))
    exact (update_of_ne hne _ _).trans (h.beyond u hu)
  · by_cases hu : u = v
    · subst hu
      simpa only [setList, update_self] using hl hsingle
    · simpa only [setList, update_of_ne hu] using h.single hsingle u
  · rw [edges_eq, edges_eq, ← liveEdges_add, ← liveEdges_add]
    exact congrArg liveEdges (owned_update csr.lists l hv)

variable {entry : Nbr}

theorem Framed.modify (h : csr.Framed) (v slot : Nat) (f : Nbr → Nbr) :
    (csr.setList v ((csr.lists v).modify slot f)).Framed := by
  refine h.of_length_le fun u => le_of_eq ?_
  by_cases hu : u = v
  · subst hu
    simp only [update_self, length_modify]
  · simp only [update_of_ne hu]

theorem exchange_modify (h : csr.Framed) (f : Nbr → Nbr)
    (hentry : (csr.lists v)[slot]? = some entry) :
    csr.Exchange (csr.setList v ((csr.lists v).modify slot f)) (liveEdges {(v, entry)})
      (liveEdges {(v, f entry)}) := by
  refine ⟨h.modify v slot f, rfl, ?_⟩
  rw [edges_eq, edges_eq, ← liveEdges_add, ← liveEdges_add]
  exact congrArg liveEdges (owned_modify csr.lists f (h.lt_capacity hentry) hentry)

/-! ### Insertion -/

section Insertion

variable {data : Value} {e : Nat × Nbr}

theorem exchange_append (h : csr.Framed) (htype : csr.type = .mutable) (entry : Nbr)
    (hv : v < csr.vertexCapacity) :
    csr.Exchange (csr.setList v (csr.lists v ++ [entry])) 0 (liveEdges {(v, entry)}) := by
  have hset := exchange_setList h hv (l := csr.lists v ++ [entry]) (by simp [htype])
  have hedges := hset.edges_eq
  rw [map_append, ← Multiset.coe_add, liveEdges_add, ← add_assoc, add_right_comm] at hedges
  exact ⟨hset.framed, rfl, (add_zero _).trans (add_right_cancel hedges)⟩

theorem exchange_putEdge (h : csr.Framed) (hstored : csr.type ≠ .empty)
    (hput : csr.putEdge v nbr data ts = .ok csr') :
    csr.Exchange csr' 0 (liveEdges {(v, ⟨nbr, ts, data⟩)}) := by
  unfold putEdge at hput
  split at hput
  next htype =>
    split at hput
    · cases hput
    next hv =>
      cases hput
      exact exchange_append h htype _ (Nat.lt_of_not_le hv)
  next =>
    split at hput
    · cases hput
    next hv =>
      split at hput
      next hfree =>
        cases hput
        have hset := exchange_setList h (Nat.lt_of_not_le hv) (l := [⟨nbr, ts, data⟩])
          fun _ => le_rfl
        have hnone : liveEdges ↑((csr.lists v).map (v, ·)) = 0 := by
          rw [liveEdges, Multiset.filter_eq_nil]
          intro e he
          obtain ⟨old, hold, rfl⟩ := mem_map.mp (Multiset.mem_coe.mp he)
          simp [live, hfree old hold]
        rw [hnone] at hset
        exact hset
      next => cases hput
  next htype => exact absurd htype hstored

/-- What one round of a batch insertion loses: the edge itself when the structure has no
place for it, and what was in its place. -/
def displaced (csr : Csr) (e : Nat × Nbr) : List (Nat × Nbr) :=
  if e.1 < csr.vertexCapacity then
    match csr.type with
    | .mutable => []
    | .singleMutable => ((csr.lists e.1).filter live).map (e.1, ·)
    | .empty => [e]
  else [e]

def lost (csr : Csr) : List (Nat × Nbr) → List (Nat × Nbr)
  | [] => []
  | e :: rest => csr.displaced e ++ (csr.batchPutEdge e).lost rest

theorem batchPutEdge_layout (csr : Csr) (e : Nat × Nbr) :
    (csr.batchPutEdge e).type = csr.type ∧
      (csr.batchPutEdge e).vertexCapacity = csr.vertexCapacity := by
  unfold batchPutEdge
  split
  · split <;> exact ⟨rfl, rfl⟩
  · exact ⟨rfl, rfl⟩

theorem exchange_batchPutEdge (h : csr.Framed) (hlive : e.2.live = true) :
    csr.Exchange (csr.batchPutEdge e) ↑(csr.displaced e) {e} := by
  obtain ⟨type, cap, lists⟩ := csr
  by_cases hv : e.1 < cap
  · cases type with
    | «mutable» =>
      have hput := exchange_append h rfl e.2 hv
      rw [liveEdges_single (e := (e.1, e.2)) hlive] at hput
      simp only [batchPutEdge, displaced, hv, if_true]
      exact hput
    | singleMutable =>
      have hput := exchange_setList h hv (l := [e.2]) fun _ => le_rfl
      have hold : liveEdges ↑((lists e.1).map (e.1, ·)) =
          ↑(((lists e.1).filter live).map (e.1, ·)) := by
        simp [liveEdges, filter_map, comp_def]
      have hnew : liveEdges ↑([e.2].map (e.1, ·)) = {e} := liveEdges_single hlive
      rw [hold, hnew] at hput
      simp only [batchPutEdge, displaced, hv, if_true]
      exact hput
    | empty =>
      simp only [batchPutEdge, displaced, hv, if_true]
      exact ⟨h, rfl, rfl⟩
  · simp only [batchPutEdge, displaced, hv, if_false]
    exact ⟨h, rfl, rfl⟩

/-- A batch insertion adds its edges up to what it loses. -/
theorem exchange_batchPutEdges (h : csr.Framed) {es : List (Nat × Nbr)}
    (hlive : ∀ e ∈ es, e.2.live = true) :
    csr.Exchange (csr.batchPutEdges es) ↑(csr.lost es) ↑es := by
  induction es generalizing csr with
  | nil => exact .refl h
  | cons e rest ih =>
    rw [forall_mem_cons] at hlive
    have hfirst := exchange_batchPutEdge h hlive.1
    have hall := hfirst.trans (ih hfirst.framed hlive.2)
    rw [Multiset.coe_add, Multiset.singleton_add, Multiset.cons_coe] at hall
    exact hall

/-- There is a place for an edge of each of some vertices: they are within the capacity and, in
the single-entry layout, occur once and have no entry that is not deleted. -/
def Takes (csr : Csr) (vs : List Nat) : Prop :=
  (∀ v ∈ vs, v < csr.vertexCapacity) ∧ (csr.type = .singleMutable → vs.Nodup ∧
    ∀ v ∈ vs, ∀ nbr ∈ csr.lists v, nbr.live = false)

theorem lost_eq_nil (hstored : csr.type ≠ .empty) {es : List (Nat × Nbr)}
    (htakes : csr.Takes (es.map Prod.fst)) : csr.lost es = [] := by
  induction es generalizing csr with
  | nil => rfl
  | cons e rest ih =>
    obtain ⟨hcap, hsingle⟩ := htakes
    rw [map_cons] at hcap hsingle
    have hv := hcap e.1 mem_cons_self
    have hdisplaced : csr.displaced e = [] := by
      unfold displaced
      rw [if_pos hv]
      split
      next => rfl
      next htype => simpa using (hsingle htype).2 e.1 mem_cons_self
      next htype => exact absurd htype hstored
    rw [lost, hdisplaced, nil_append]
    obtain ⟨hsame, hsize⟩ := csr.batchPutEdge_layout e
    refine ih (by rwa [hsame]) ⟨fun v hv' => ?_, fun htype => ?_⟩
    · rw [hsize]
      exact hcap v (mem_cons_of_mem _ hv')
    · rw [hsame] at htype
      obtain ⟨hnodup, hfree⟩ := hsingle htype
      rw [nodup_cons] at hnodup
      refine ⟨hnodup.2, fun v hv' => ?_⟩
      have hne : v ≠ e.1 := fun heq => hnodup.1 (heq ▸ hv')
      unfold batchPutEdge
      simp only [hv, if_true, htype, update_of_ne hne]
      exact hfree v (mem_cons_of_mem _ hv')

end Insertion

/-! ### Operations on all lists -/

def mapLists (csr : Csr) (f : Nat → Nbr → Nbr) : Csr :=
  { csr with lists := fun v => (csr.lists v).map (f v) }

/-- Deleting by a property, where the lists do not get longer. -/
theorem Framed.strike (h : csr.Framed) {lists : Nat → List Nbr}
    (hlength : ∀ v, (lists v).length ≤ (csr.lists v).length) (p : Nat × Nbr → Prop)
    [DecidablePred p] (hedges : ({ csr with lists } : Csr).edges = csr.edges.filter fun e => ¬p e) :
    csr.Exchange { csr with lists } (csr.edges.filter p) 0 := by
  refine ⟨h.of_length_le hlength, rfl, ?_⟩
  rw [hedges, add_comm, Multiset.filter_add_not, add_zero]

theorem exchange_mark (h : csr.Framed) (p : Nat → Nbr → Prop) [∀ v nbr, Decidable (p v nbr)] :
    csr.Exchange (csr.mapLists fun v nbr => if p v nbr then nbr.dead else nbr)
      (csr.edges.filter fun e => p e.1 e.2) 0 := by
  refine h.strike (fun v => (length_map _).le) _ ?_
  have hselect : ∀ e : Nat × Nbr, (if p e.1 e.2 then e.2.dead else e.2).live = true ↔
      ¬p e.1 e.2 ∧ e.2.live = true := by
    intro e
    by_cases hp : p e.1 e.2 <;> simp [hp, dead_live]
  rw [edges_eq, edges_eq]
  simp only [owned_map]
  rw [liveEdges, liveEdges, ← Multiset.map_coe, Multiset.filter_map, Multiset.filter_filter]
  simp only [comp_def, hselect]
  -- what is left was not changed
  refine (Multiset.map_congr rfl fun e he => ?_).trans (Multiset.map_id _)
  rw [if_neg (Multiset.mem_filter.mp he).2.1]
  rfl

theorem exchange_drop (h : csr.Framed) (p : Nat → Nbr → Prop) [∀ v nbr, Decidable (p v nbr)] :
    csr.Exchange { csr with lists := fun v => (csr.lists v).filter fun nbr => ¬p v nbr }
      (csr.edges.filter fun e => p e.1 e.2) 0 := by
  refine h.strike (fun v => length_filter_le _ _) _ ?_
  rw [edges_eq, edges_eq]
  simp only [owned_filter _ _ fun v nbr => decide ¬p v nbr]
  rw [liveEdges, liveEdges, Multiset.filter_comm, Multiset.filter_coe]
  simp

theorem exchange_batchDeleteVertices (h : csr.Framed) (hstored : csr.type ≠ .empty)
    (srcSet dstSet : List Nat) : csr.Exchange (csr.batchDeleteVertices srcSet dstSet)
      (csr.edges.filter fun e => e.1 ∈ srcSet ∨ e.2.neighbor ∈ dstSet) 0 := by
  unfold batchDeleteVertices
  split
  next =>
    have hlists : (fun v => if v ∈ srcSet then []
          else (csr.lists v).filter fun nbr => nbr.neighbor ∉ dstSet) =
        fun v => (csr.lists v).filter fun nbr => ¬(v ∈ srcSet ∨ nbr.neighbor ∈ dstSet) := by
      funext v
      by_cases hv : v ∈ srcSet <;> simp [hv]
    rw [hlists]
    exact exchange_drop h fun v nbr => v ∈ srcSet ∨ nbr.neighbor ∈ dstSet
  next => exact exchange_mark h fun v nbr => v ∈ srcSet ∨ nbr.neighbor ∈ dstSet
  next htype => exact absurd htype hstored

theorem exchange_batchDeleteEdges (h : csr.Framed) (hstored : csr.type ≠ .empty)
    (pairs : List (Nat × Nat)) : csr.Exchange (csr.batchDeleteEdges pairs)
      (csr.edges.filter fun e => (e.1, e.2.neighbor) ∈ pairs) 0 := by
  unfold batchDeleteEdges
  split
  next htype => exact absurd htype hstored
  next => exact exchange_mark h fun v nbr => (v, nbr.neighbor) ∈ pairs

theorem edges_compact (hstored : csr.type ≠ .empty) :
    csr.compact.edges = csr.edges.map fun e => (e.1, settled e.2) := by
  rw [edges_eq, edges_eq]
  unfold compact
  split
  next =>
    simp only [owned_map _ (fun v => (csr.lists v).filter live) fun _ => settled,
      owned_filter _ _ fun _ => live]
    simp [liveEdges, filter_map, comp_def, settled_live]
  next =>
    simp only [owned_map _ csr.lists fun _ nbr => if nbr.live then settled nbr else nbr]
    rw [liveEdges, liveEdges, ← Multiset.map_coe, Multiset.filter_map]
    have hsame : ∀ nbr : Nbr, (if nbr.live then settled nbr else nbr).live = nbr.live := by
      intro nbr
      by_cases hlive : nbr.live = true
      · rw [if_pos hlive, settled_live, hlive]
      · rw [if_neg hlive]
    simp only [comp_def, hsame]
    refine Multiset.map_congr rfl fun e he => ?_
    rw [if_pos (Multiset.mem_filter.mp he).2]
  next htype => exact absurd htype hstored

theorem exchange_compact (h : csr.Framed) (hstored : csr.type ≠ .empty) :
    csr.Exchange csr.compact csr.edges (csr.edges.map fun e => (e.1, settled e.2)) := by
  have hlayout : csr.compact.Framed ∧ csr.compact.type = csr.type := by
    unfold compact
    split
    next =>
      refine ⟨h.of_length_le fun v => ?_, rfl⟩
      rw [length_map]
      exact length_filter_le _ _
    next => exact ⟨h.of_length_le fun v => (length_map _).le, rfl⟩
    next => exact ⟨h, rfl⟩
  refine ⟨hlayout.1, hlayout.2, ?_⟩
  rw [edges_compact hstored, add_comm]

theorem edges_batchSortByEdgeData (csr : Csr) (order : NbrSort) :
    (csr.batchSortByEdgeData order).edges = csr.edges := by
  rw [edges_eq, edges_eq]
  unfold batchSortByEdgeData
  split
  next => exact congrArg liveEdges (Multiset.coe_eq_coe.mpr (owned_perm fun v => order.perm _))
  next => rfl

theorem exchange_batchSortByEdgeData (h : csr.Framed) (order : NbrSort) :
    csr.Exchange (csr.batchSortByEdgeData order) 0 0 := by
  have hlayout : (csr.batchSortByEdgeData order).Framed ∧
      (csr.batchSortByEdgeData order).type = csr.type := by
    unfold batchSortByEdgeData
    split
    next => exact ⟨h.of_length_le fun v => (order.perm _).length_eq.le, rfl⟩
    next => exact ⟨h, rfl⟩
  exact ⟨hlayout.1, hlayout.2, congrArg (· + 0) (csr.edges_batchSortByEdgeData order)⟩

theorem resize_of_stored (hstored : csr.type ≠ .empty) (vnum : Nat) : csr.resize vnum =
    ⟨csr.type, vnum, fun v => if v < min csr.vertexCapacity vnum then csr.lists v else []⟩ := by
  unfold resize
  split
  next htype => exact absurd htype hstored
  next => rfl

/-- Resizing cuts off the edges of the vertices beyond, if there are any. -/
theorem exchange_resize (h : csr.Framed) (hstored : csr.type ≠ .empty) {vnum : Nat}
    (hwithin : ∀ e ∈ csr.edges, e.1 < vnum) : csr.Exchange (csr.resize vnum) 0 0 := by
  obtain ⟨kept, hkept⟩ : ∃ kept : Nat → List Nbr,
      kept = fun v => if v < min csr.vertexCapacity vnum then csr.lists v else [] := ⟨_, rfl⟩
  have hbeyond : ∀ v, min csr.vertexCapacity vnum ≤ v → kept v = [] := by
    intro v hv
    rw [hkept]
    exact if_neg (Nat.not_lt.mpr hv)
  have hfilter : (owned csr.vertexCapacity csr.lists).filter (fun e => decide (e.1 < vnum)) =
      owned csr.vertexCapacity kept := by
    rw [← owned_filter _ _ fun v _ => decide (v < vnum), hkept]
    apply owned_congr
    intro v hv
    by_cases hlt : v < vnum <;> simp [hv, hlt]
  rw [resize_of_stored hstored, ← hkept]
  refine ⟨⟨fun v hv => hbeyond v ((min_le_right _ _).trans hv), fun hsingle v => ?_⟩, rfl, ?_⟩
  · simp only [hkept]
    split
    next => exact h.single hsingle v
    next => exact Nat.zero_le 1
  · rw [← Multiset.filter_eq_self.mpr hwithin, edges_eq, edges_eq, liveEdges, liveEdges,
      Multiset.filter_comm, Multiset.filter_coe _ (owned csr.vertexCapacity csr.lists), hfilter,
      owned_of_le (Nat.min_le_right _ _) hbeyond, owned_of_le (Nat.min_le_left _ _) hbeyond]

theorem exchange_resize_of_le (h : csr.Framed) (hstored : csr.type ≠ .empty) {vnum : Nat}
    (hle : csr.vertexCapacity ≤ vnum) : csr.Exchange (csr.resize vnum) 0 0 :=
  exchange_resize h hstored fun _ he => (mem_edges.mp he).1.trans_le hle

theorem edges_cleared (csr : Csr) : csr.cleared.edges = 0 := by
  simp only [edges_eq, cleared, owned_nil]
  rfl

theorem Framed.cleared (h : csr.Framed) : csr.cleared.Framed :=
  h.of_length_le fun _ => Nat.zero_le _

/-- In the single-entry layout every vertex has at most one edge. -/
theorem Framed.owners_nodup (h : csr.Framed) (hsingle : csr.type = .singleMutable) :
    (csr.edges.map Prod.fst).Nodup := by
  rw [Multiset.nodup_iff_count_le_one]
  intro v
  rw [Multiset.count_map]
  by_cases hv : v < csr.vertexCapacity
  · calc (csr.edges.filter fun e => v = e.1).card
      _ ≤ ((↑(owned csr.vertexCapacity csr.lists) : Multiset (Nat × Nbr)).filter
            fun e => v = e.1).card := by
          apply Multiset.card_le_card
          apply Multiset.filter_le_filter
          rw [edges_eq]
          exact Multiset.filter_le _ _
      _ = (csr.lists v).length := by
          simp only [eq_comm (a := v)]
          rw [Multiset.filter_coe, owned_filter_owner csr.lists hv, Multiset.coe_card, length_map]
      _ ≤ 1 := h.single hsingle v
  · have hnone : (csr.edges.filter fun e => v = e.1) = 0 := by
      rw [Multiset.filter_eq_nil]
      rintro e he rfl
      exact hv (mem_edges.mp he).1
    rw [hnone]
    exact Nat.zero_le 1

/-- A new structure has a place for as many edges of each vertex as the old one had. -/
theorem Framed.takes_cleared (h : csr.Framed) {vs : List Nat}
    (howners : (↑vs : Multiset Nat) = csr.edges.map Prod.fst) : csr.cleared.Takes vs := by
  refine ⟨fun v hv => ?_, fun hsingle => ⟨?_, fun _ _ _ hnbr => by cases hnbr⟩⟩
  · rw [← Multiset.mem_coe, howners] at hv
    obtain ⟨old, hold, rfl⟩ := Multiset.mem_map.mp hv
    exact (mem_edges.mp hold).1
  · rw [← Multiset.coe_nodup, howners]
    exact h.owners_nodup hsingle

/-! ### Deletion by offsets -/

/-- The entry that an offset stands for, if it is not marked. -/
def hit (csr : Csr) (v offset : Nat) : Option (Nat × Nbr) :=
  (csr.landing v offset).bind fun slot =>
    (((csr.lists v)[slot]?).filter live).map (v, ·)

def struck (csr : Csr) (v offset ts : Nat) : Option (Nat × Nbr) :=
  (csr.hit v offset).filter fun e => e.2.timestamp ≤ ts

def struckBy (csr : Csr) : List (Nat × Nat) → List (Nat × Nbr)
  | [] => []
  | edge :: rest => (csr.hit edge.1 edge.2).toList ++ (csr.batchDeleteOffset edge).struckBy rest

theorem hit_of_landing (hland : csr.landing v offset = some slot) :
    csr.hit v offset = (((csr.lists v)[slot]?).filter live).map (v, ·) := by
  rw [hit, hland, Option.bind_some]

theorem setList_self (csr : Csr) (v : Nat) : csr.setList v (csr.lists v) = csr := by
  rw [setList, update_eq_self]

/-- Changing a slot that is not there changes nothing. -/
theorem setList_modify_of_none (f : Nbr → Nbr) (hnone : (csr.lists v)[slot]? = none) :
    csr.setList v ((csr.lists v).modify slot f) = csr := by
  rw [modify_eq_self (List.getElem?_eq_none_iff.mp hnone), setList_self]

theorem liveEdges_entry (v : Nat) (entry : Nbr) :
    liveEdges {(v, entry)} = ↑(((some entry).filter live).map (v, ·)).toList := by
  by_cases hlive : entry.live = true
  · rw [liveEdges_single hlive]
    simp [Option.filter_some, hlive]
  · rw [liveEdges_single_of_not (by simpa using hlive)]
    simp [Option.filter_some, hlive]

theorem exchange_batchDeleteOffset (h : csr.Framed) (edge : Nat × Nat) :
    csr.Exchange (csr.batchDeleteOffset edge) ↑(csr.hit edge.1 edge.2).toList 0 := by
  unfold batchDeleteOffset
  split
  next hnone =>
    rw [hit, hnone]
    exact .refl h
  next slot hland =>
    rw [hit_of_landing hland]
    change csr.Exchange (csr.setList edge.1 ((csr.lists edge.1).modify slot dead)) _ 0
    cases hentry : (csr.lists edge.1)[slot]? with
    | none =>
      rw [setList_modify_of_none dead hentry]
      exact .refl h
    | some entry =>
      have hmodify := exchange_modify h dead hentry
      rwa [liveEdges_single_of_not (e := (edge.1, entry.dead)) entry.dead_live,
        liveEdges_entry] at hmodify

theorem exchange_batchDeleteOffsets (h : csr.Framed) (edges : List (Nat × Nat)) :
    csr.Exchange (csr.batchDeleteOffsets edges) ↑(csr.struckBy edges) 0 := by
  induction edges generalizing csr with
  | nil => exact .refl h
  | cons edge rest ih =>
    have hfirst := exchange_batchDeleteOffset h edge
    have hall := hfirst.trans (ih hfirst.framed)
    rw [Multiset.coe_add] at hall
    exact hall

/-- The other entries stay. -/
theorem Framed.entry_batchDeleteOffset (h : csr.Framed) (hstored : csr.type ≠ .empty)
    {edge other : Nat × Nat} (hentry : (csr.lists edge.1)[edge.2]? = some entry)
    (hne : other ≠ edge) :
    ((csr.batchDeleteOffset edge).lists other.1)[other.2]? = (csr.lists other.1)[other.2]? := by
  rw [batchDeleteOffset, h.landing_of_le hstored hentry le_rfl]
  by_cases hv : other.1 = edge.1
  · have hslot : edge.2 ≠ other.2 := fun heq => hne (Prod.ext hv heq.symm)
    simp only [hv, update_self, getElem?_modify_ne _ _ hslot]
  · simp only [update_of_ne hv]

/-- Offsets of different entries delete these entries. -/
theorem Framed.struckBy_eq (h : csr.Framed) (hstored : csr.type ≠ .empty)
    {edges : List (Nat × Nat)} (hnodup : edges.Nodup)
    (hentries : ∀ e ∈ edges, ∃ entry, (csr.lists e.1)[e.2]? = some entry) :
    csr.struckBy edges = edges.filterMap fun e => csr.hit e.1 e.2 := by
  induction edges generalizing csr with
  | nil => rfl
  | cons edge rest ih =>
    obtain ⟨entry, hentry⟩ := hentries edge mem_cons_self
    have hexchange := exchange_batchDeleteOffset h edge
    have hstored' : (csr.batchDeleteOffset edge).type ≠ .empty := by rwa [hexchange.type_eq]
    rw [nodup_cons] at hnodup
    have hsame : ∀ e ∈ rest, ((csr.batchDeleteOffset edge).lists e.1)[e.2]? =
        (csr.lists e.1)[e.2]? := fun e he =>
      h.entry_batchDeleteOffset hstored hentry fun heq => hnodup.1 (heq ▸ he)
    have hrest := fun e he => hentries e (mem_cons_of_mem edge he)
    have hfound : ∀ e ∈ rest, ∃ entry,
        ((csr.batchDeleteOffset edge).lists e.1)[e.2]? = some entry := by
      intro e he
      rw [hsame e he]
      exact hrest e he
    rw [struckBy, ih hexchange.framed hstored' hnodup.2 hfound]
    have hhits : ∀ e ∈ rest, (csr.batchDeleteOffset edge).hit e.1 e.2 = csr.hit e.1 e.2 := by
      intro e he
      obtain ⟨other, hother⟩ := hrest e he
      rw [hit_of_landing (h.landing_of_le hstored hother le_rfl), hit_of_landing
        (hexchange.framed.landing_of_le hstored' ((hsame e he).trans hother) le_rfl), hsame e he]
    rw [filterMap_congr hhits, filterMap_cons]
    cases csr.hit edge.1 edge.2 <;> rfl

theorem exchange_tombstone (h : csr.Framed) (hentry : (csr.lists v)[slot]? = some entry)
    (hold : entry.timestamp ≤ ts) (hts : ts < kDeletedTimestamp) :
    csr.Exchange (csr.tombstone v slot ts) {(v, entry)} 0 := by
  have hmodify := exchange_modify h (mark ts) hentry
  rw [mark, if_pos hold, liveEdges_single (e := (v, entry)) (live_of_le hts hold),
    liveEdges_single_of_not (e := (v, entry.dead)) entry.dead_live] at hmodify
  exact hmodify

/-- `delete_edge` removes the edge at its offset unless that one is newer. -/
theorem exchange_deleteEdge (h : csr.Framed) (hstored : csr.type ≠ .empty)
    (hts : ts < kDeletedTimestamp) (hdelete : csr.deleteEdge v offset ts = .ok csr') :
    csr.Exchange csr' ↑(csr.struck v offset ts).toList 0 := by
  obtain ⟨slot, hland, rfl⟩ := (deleteEdge_eq_ok_iff hstored).mp hdelete
  rw [struck, hit_of_landing hland]
  cases hentry : (csr.lists v)[slot]? with
  | none =>
    change csr.Exchange (csr.setList v ((csr.lists v).modify slot (mark ts))) _ 0
    rw [setList_modify_of_none (mark ts) hentry]
    exact .refl h
  | some entry =>
    by_cases hold : entry.timestamp ≤ ts
    · have hlive := live_of_le hts hold
      simpa [Option.filter_some, hlive, hold] using exchange_tombstone h hentry hold hts
    · have hmodify := exchange_modify h (mark ts) hentry
      have hnone : (((some entry).filter live).map (v, ·)).filter
          (fun e => decide (e.2.timestamp ≤ ts)) = none := by
        by_cases hlive : entry.live = true <;> simp [Option.filter_some, hlive, hold]
      rw [hnone]
      have hedges := hmodify.edges_eq
      rw [mark, if_neg hold] at hedges
      exact ⟨hmodify.framed, rfl, congrArg (· + 0) (add_right_cancel hedges)⟩

/-- The structure without the visible edges between two vertices. -/
theorem exchange_erase (h : csr.Framed) (v nbr ts : Nat) : csr.Exchange (csr.erase v nbr ts)
    (csr.edges.filter fun e => e.1 = v ∧ e.2.timestamp ≤ ts ∧ e.2.neighbor = nbr) 0 := by
  have hmark := exchange_mark h fun u entry => u = v ∧ entry.timestamp ≤ ts ∧ entry.neighbor = nbr
  convert hmark using 1
  unfold erase mapLists
  congr 1
  funext u
  by_cases hu : u = v
  · subst hu
    simp
  · simp [hu]

end Csr

end Neug.Storage
