import Neug.Library.Overwriting
import Neug.Storage.CsrEdges

/-! # What a batch leaves in an adjacency structure

A structure is resized to its vertex table and takes a batch of entries.  With lists it has
all of them afterwards; with one entry per vertex it has the last one of each vertex.  This
file says when it has what it had before and the entries that were wanted.
-/

namespace Neug.Storage

open Library Function List

namespace Csr

variable {csr : Csr} {es : List (Nat × Nbr)} {v n : Nat}

theorem edges_filter_owner (csr : Csr) (hv : v < csr.vertexCapacity) :
    csr.edges.filter (fun e => e.1 = v) = liveEdges ↑((csr.lists v).map (v, ·)) := by
  rw [edges_eq, liveEdges, liveEdges, Multiset.filter_comm, Multiset.filter_coe,
    owned_filter_owner csr.lists hv]

theorem batchPutEdges_layout (csr : Csr) (es : List (Nat × Nbr)) :
    (csr.batchPutEdges es).type = csr.type ∧
      (csr.batchPutEdges es).vertexCapacity = csr.vertexCapacity := by
  induction es generalizing csr with
  | nil => exact ⟨rfl, rfl⟩
  | cons e rest ih =>
    obtain ⟨htype, hsize⟩ := csr.batchPutEdge_layout e
    exact ⟨(ih _).1.trans htype, (ih _).2.trans hsize⟩

theorem batchPutEdge_single {e : Nat × Nbr} (hsingle : csr.type = .singleMutable)
    (hv : e.1 < csr.vertexCapacity) : csr.batchPutEdge e = csr.setList e.1 [e.2] := by
  obtain ⟨type, capacity, lists⟩ := csr
  obtain rfl : type = .singleMutable := hsingle
  exact if_pos hv

/-- The single entry of a vertex is the last one of the batch. -/
theorem lists_batchPutEdges_single (hsingle : csr.type = .singleMutable)
    (hcap : ∀ e ∈ es, e.1 < csr.vertexCapacity) : (csr.batchPutEdges es).lists v =
      match (es.filter fun e => e.1 = v).getLast? with | some e => [e.2] | none => csr.lists v := by
  induction es using reverseRecOn with
  | nil => rfl
  | append_singleton es e ih =>
    have hrest := ih fun e' he' => hcap e' (mem_append_left _ he')
    obtain ⟨htype, hsize⟩ := csr.batchPutEdges_layout es
    have hv : e.1 < (csr.batchPutEdges es).vertexCapacity := by
      rw [hsize]
      exact hcap e (mem_append_right _ (mem_singleton_self e))
    have hput : csr.batchPutEdges (es ++ [e]) =
        (csr.batchPutEdges es).setList e.1 [e.2] := by
      rw [batchPutEdges, foldl_append]
      change (csr.batchPutEdges es).batchPutEdge e = _
      exact batchPutEdge_single (htype.trans hsingle) hv
    rw [hput, setList, filter_append]
    by_cases heq : e.1 = v
    · rw [filter_cons_of_pos (by simpa using heq), filter_nil,
        getLast?_append, getLast?_singleton, ← heq]
      simp only [update_self, Option.some_or]
    · rw [filter_cons_of_neg (by simpa using heq), filter_nil, append_nil, ← hrest]
      exact update_of_ne (Ne.symm heq) _ _

end Csr

/-! ## Items -/

/-- Entries seen as items: what the entries of a batch stand for, and what the structure
keeps of them. -/
structure Csr.Batch {α : Type*} (csr : Csr) (n : Nat) (view view' : Nat × Nbr → α)
    (owner : α → Nat) (keep : α → α) (items : List α) (es : List (Nat × Nbr)) : Prop where
  framed : csr.Framed
  within : ∀ e ∈ csr.edges, e.1 < n
  entries : es.map view' = items.map keep
  capacity : ∀ e ∈ es, e.1 < n
  live : ∀ e ∈ es, e.2.live = true
  old : ∀ e ∈ csr.edges, view' e = view e
  owner_view : ∀ e, owner (view' e) = e.1
  owner_keep : ∀ a, owner (keep a) = owner a

/-- The condition under which a structure takes items as they are wanted. -/
def Csr.TakesWanted {α : Type*} (csr : Csr) (wanted : α → Bool) (keep : α → α) (owner : α → Nat)
    (stored : Multiset α) (items : List α) : Prop :=
  match csr.type with
  | .mutable => ∀ a ∈ items, wanted a = true ∧ keep a = a
  | .singleMutable => FairlyOverwritten wanted keep owner stored items
  | .empty => True

namespace Csr.Batch

variable {α : Type*} {csr : Csr} {n : Nat} {view view' : Nat × Nbr → α} {owner : α → Nat}
  {keep : α → α} {items : List α} {es : List (Nat × Nbr)}

section

variable (h : csr.Batch n view view' owner keep items es)
include h

theorem map_old : csr.edges.map view' = csr.edges.map view :=
  Multiset.map_congr rfl h.old

theorem map_filter_owner (v : Nat) :
    (es.filter fun e => e.1 = v).map view' = (items.filter (owner · = v)).map keep := by
  have hfilter := congrArg (List.filter fun a => owner a = v) h.entries
  rw [filter_map, filter_map] at hfilter
  simp only [comp_def, h.owner_view, h.owner_keep] at hfilter
  exact hfilter

theorem filter_view (s : Multiset (Nat × Nbr)) (v : Nat) :
    (s.map view').filter (owner · = v) = (s.filter fun e => e.1 = v).map view' := by
  rw [Multiset.filter_map]
  simp only [comp_def, h.owner_view]

/-- The structure has room for the entries, and nothing is cut off. -/
theorem resized (hstored : csr.type ≠ .empty) :
    (csr.resize n).vertexCapacity = n ∧ csr.Exchange (csr.resize n) 0 0 := by
  refine ⟨?_, exchange_resize h.framed hstored h.within⟩
  rw [resize_of_stored hstored]

/-- Lists have all entries. -/
theorem edges_mutable (htype : csr.type = .mutable) :
    (((csr.resize n).batchPutEdges es).edges).map view' =
      csr.edges.map view + ↑(items.map keep) := by
  obtain ⟨hcap, hresize⟩ := h.resized (by simp [htype])
  have hlost : (csr.resize n).lost es = [] := by
    refine lost_eq_nil (by simp [hresize.type_eq, htype]) ⟨?_, by simp [hresize.type_eq, htype]⟩
    rw [hcap, forall_mem_map]
    exact h.capacity
  have hput := (hresize.trans (exchange_batchPutEdges hresize.framed h.live)).edges_eq
  rw [hlost, Multiset.coe_nil, add_zero, add_zero, zero_add] at hput
  rw [hput, Multiset.map_add, h.map_old, Multiset.map_coe, h.entries]

theorem overwritten (htype : csr.type = .singleMutable) :
    Overwritten keep owner (csr.edges.map view) items
      (((csr.resize n).batchPutEdges es).edges.map view') := by
  obtain ⟨hcap, hresize⟩ := h.resized (by simp [htype])
  have hlists := fun v => @lists_batchPutEdges_single (csr.resize n) es v
    (hresize.type_eq.trans htype) (by rw [hcap]; exact h.capacity)
  have hcap' : ((csr.resize n).batchPutEdges es).vertexCapacity = n :=
    (batchPutEdges_layout _ _).2.trans hcap
  rw [← h.map_old]
  constructor
  · intro v hnone
    have hes : (es.filter fun e => e.1 = v) = [] := by
      have hmap := h.map_filter_owner v
      rwa [hnone, map_nil, map_eq_nil_iff] at hmap
    rw [h.filter_view, h.filter_view]
    congr 1
    rw [← add_right_cancel hresize.edges_eq]
    by_cases hv : v < n
    · rw [edges_filter_owner _ (hv.trans_eq hcap'.symm),
        edges_filter_owner _ (hv.trans_eq hcap.symm), hlists v, hes]
      rfl
    · -- neither structure has a vertex beyond the capacity
      have hnot : ∀ c : Csr, c.vertexCapacity = n →
          c.edges.filter (fun e => e.1 = v) = 0 := by
        intro c hc
        rw [Multiset.filter_eq_nil]
        rintro e he rfl
        exact hv (hc ▸ (mem_edges.mp he).1)
      rw [hnot _ hcap', hnot _ hcap]
  · intro v before last hitems
    have hmap := h.map_filter_owner v
    rw [hitems, map_append, map_eq_append_iff] at hmap
    obtain ⟨front, back, hes, -, hback⟩ := hmap
    rw [map_singleton] at hback
    obtain ⟨e, rfl, hview⟩ := map_eq_singleton_iff.mp hback
    have hmem : e ∈ es.filter fun e => e.1 = v := by
      rw [hes]
      exact mem_append_right _ (mem_singleton_self e)
    obtain ⟨hin, howner⟩ := mem_filter.mp hmem
    obtain rfl : e.1 = v := of_decide_eq_true howner
    have hlist : ((csr.resize n).batchPutEdges es).lists e.1 = [e.2] := by
      rw [hlists e.1, hes, getLast?_append, getLast?_singleton]
      rfl
    rw [h.filter_view, edges_filter_owner _ ((h.capacity e hin).trans_eq hcap'.symm), hlist,
      map_singleton, Multiset.coe_singleton, liveEdges_single (h.live e hin),
      Multiset.map_singleton, hview]

end

/-- A structure that stores edges has what it had and the wanted items exactly under the
condition of its layout. -/
theorem takes_iff {wanted : α → Bool} (h : csr.Batch n view view' owner keep items es)
    (hwanted : ∀ a ∈ items, wanted (keep a) = wanted a)
    (hkeep : ∀ a ∈ items, keep (keep a) = keep a) :
    (csr.type ≠ .empty → ((csr.resize n).batchPutEdges es).edges.map view' =
        csr.edges.map view + ↑(items.filter wanted)) ↔
      csr.TakesWanted wanted keep owner (csr.edges.map view) items := by
  unfold TakesWanted
  split
  next htype =>
    rw [forall_prop_of_true (by simp [htype]), h.edges_mutable htype,
      add_map_eq_iff wanted keep hkeep]
  next htype =>
    rw [forall_prop_of_true (by simp [htype])]
    exact (h.overwritten htype).eq_add_iff hwanted
  next htype => exact ⟨fun _ => trivial, fun _ hstored => absurd htype hstored⟩

end Csr.Batch

end Neug.Storage
