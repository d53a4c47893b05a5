import Neug.Storage.CsrEdges

/-! # Both directions of an edge table

An operation of an edge table changes its two structures separately.  This file says first what
each operation does to the structures, whatever else it does.  An edge table is balanced when its
outgoing and its incoming structure store the same edges; each operation keeps the balance, if
need be under a condition on what it is called with.
-/

namespace Neug.Storage

open Library Csr Multiset

namespace EdgeTable

variable {et et' : EdgeTable} {defaults : List Value} {ts src dst : Nat} {csr : Csr}

/-! ### What the operations do to the structures -/

/-- Only the property table differs. -/
def SameCsr (et et' : EdgeTable) : Prop :=
  et'.outCsr = et.outCsr ∧ et'.inCsr = et.inCsr

def ends (e : Nat × Nbr) : Nat × Nat := (e.1, e.2.neighbor)

/-- New entries for edges between given vertices. -/
structure Fresh (pairs : List (Nat × Nat)) (es : List (Nat × Nbr)) : Prop where
  ends : es.map EdgeTable.ends = pairs
  zero : ∀ e ∈ es, e.2.timestamp = 0

section

variable {pairs : List (Nat × Nat)} {es : List (Nat × Nbr)} (h : Fresh pairs es)
include h

theorem Fresh.live : ∀ e ∈ es, e.2.live = true := by
  intro e he
  simp [Nbr.live, h.zero e he, kDeletedTimestamp]

theorem Fresh.sources : es.map Prod.fst = pairs.map Prod.fst := by
  rw [← h.ends, List.map_map]
  rfl

theorem Fresh.flip : Fresh (pairs.map Prod.swap) (es.map flipEdge) := by
  refine ⟨?_, List.forall_mem_map.mpr h.zero⟩
  rw [← h.ends, List.map_map, List.map_map]
  rfl

end

theorem fresh_map {α : Type} (l : List α) {f : α → Nat × Nbr} {pair : α → Nat × Nat}
    (hends : ∀ a, ends (f a) = pair a) (hzero : ∀ a, (f a).2.timestamp = 0) :
    Fresh (l.map pair) (l.map f) := by
  refine ⟨?_, List.forall_mem_map.mpr fun a _ => hzero a⟩
  rw [List.map_map]
  exact List.map_congr_left fun a _ => hends a

/-- Entries for the exported edges, with other data. -/
abbrev Entries (et : EdgeTable) (es : List (Nat × Nbr)) : Prop :=
  Fresh (et.outCsr.batchExport.map ends) es

/-- The structures stay, or new ones are built from what is exported. -/
def Relaid (et et' : EdgeTable) : Prop :=
  et.SameCsr et' ∨ ∃ es, et.Entries es ∧ (et.rebuild es).SameCsr et'

theorem ensureCapacity_csr {capacity : Nat} (h : et.ensureCapacity capacity defaults = .ok et') :
    et.SameCsr et' := by
  unfold ensureCapacity at h
  split at h
  · cases h
    exact ⟨rfl, rfl⟩
  · obtain ⟨table, -, h⟩ := bind_eq_ok.mp h
    cases h
    exact ⟨rfl, rfl⟩

theorem addEdge_csr {props : List Value} {insertSafe : Bool}
    (h : et.addEdge src dst props ts insertSafe = .ok et') :
    ∃ data put, et.putEntries src dst data ts = .ok put ∧ put.SameCsr et' := by
  unfold addEdge at h
  split at h
  · exact ⟨_, et', h, rfl, rfl⟩
  split at h
  · cases h
  obtain ⟨put, hput, h⟩ := bind_eq_ok.mp h
  obtain ⟨table, -, h⟩ := bind_eq_ok.mp h
  cases h
  exact ⟨_, put, hput, rfl, rfl⟩

theorem fresh_batchEntries (et : EdgeTable) (edges : List (Nat × Nat × List Value)) :
    Fresh (edges.map fun e => (e.1, e.2.1)) (et.batchEntries edges) := by
  unfold batchEntries
  split
  · exact fresh_map edges (fun _ => rfl) fun _ => rfl
  · rw [← List.zipIdx_map_fst et.tableIdx edges, List.map_map, List.zipIdx_map_fst]
    exact fresh_map _ (fun _ => rfl) fun _ => rfl

theorem batchAddEdges_csr {edges : List (Nat × Nat × List Value)}
    (h : et.batchAddEdges edges defaults = .ok et') :
    (et.putBatch (et.batchEntries edges)).SameCsr et' := by
  unfold batchAddEdges at h
  obtain ⟨room, hroom, h⟩ := bind_eq_ok.mp h
  obtain ⟨hout, hin⟩ := ensureCapacity_csr hroom
  split at h
  · cases h
    simp [SameCsr, putBatch, hout, hin]
  · obtain ⟨table, -, h⟩ := bind_eq_ok.mp h
    cases h
    simp [SameCsr, putBatch, hout, hin]

theorem relaid_rebuild {et₀ : EdgeTable} (hsame : et.SameCsr et₀) {es : List (Nat × Nbr)}
    (hes : et.Entries es) : et.Relaid (et₀.rebuild es) := by
  refine .inr ⟨es, hes, ?_⟩
  simp [SameCsr, rebuild, putBatch, hsame.1, hsame.2]

theorem entries_exportWith (et : EdgeTable) (data : Nat × Nbr → Value) :
    et.Entries (et.exportWith data) :=
  fresh_map _ (fun _ => rfl) fun _ => rfl

theorem entries_exportRows (et : EdgeTable) : et.Entries et.exportRows := by
  rw [Entries, ← List.zipIdx_map_fst 0 et.outCsr.batchExport, List.map_map]
  exact fresh_map _ (fun _ => rfl) fun _ => rfl

theorem newUnbundledCsr_relaid {preserve : Bool}
    (h : et.newUnbundledCsr preserve defaults = .ok et') : et.Relaid et' := by
  unfold newUnbundledCsr at h
  obtain ⟨table, -, h⟩ := bind_eq_ok.mp h
  obtain ⟨room, hroom, h⟩ := bind_eq_ok.mp h
  cases h
  exact relaid_rebuild (ensureCapacity_csr hroom) et.entries_exportRows

theorem addProperties_relaid {types : List DataType} {oldDefaults : List Value}
    (h : et.addProperties types oldDefaults defaults = .ok et') : et.Relaid et' := by
  unfold addProperties at h
  simp only at h
  split at h
  · cases h
    exact .inl ⟨rfl, rfl⟩
  split at h
  · split at h
    · cases h
      exact relaid_rebuild ⟨rfl, rfl⟩ (et.entries_exportWith _)
    · have hextended := newUnbundledCsr_relaid h
      exact hextended
  split at h
  · cases h
  obtain ⟨columns, -, h⟩ := bind_eq_ok.mp h
  cases h
  exact .inl ⟨rfl, rfl⟩

theorem deleteProperties_relaid {cols : List Nat} (h : et.deleteProperties cols = .ok et') :
    et.Relaid et' := by
  unfold deleteProperties at h
  simp only at h
  split at h
  · split at h
    · cases h
      exact relaid_rebuild ⟨rfl, rfl⟩ (et.entries_exportWith _)
    · cases h
      exact .inl ⟨rfl, rfl⟩
  split at h
  next =>
    cases h
    exact relaid_rebuild ⟨rfl, rfl⟩ (et.entries_exportWith _)
  next =>
    cases h
    exact .inl ⟨rfl, rfl⟩
  next =>
    unfold newBundledCsrFrom at h
    split at h
    · cases h
      exact relaid_rebuild ⟨rfl, rfl⟩ (et.entries_exportWith _)
    · cases h
  next =>
    cases h
    exact .inl ⟨rfl, rfl⟩

theorem updateEdgeProperty_csr {oeOffset ieOffset col : Nat} {value : Value}
    (h : et.updateEdgeProperty src dst oeOffset ieOffset col value ts = .ok et') :
    et.SameCsr et' ∨ et.isBundled = true ∧ ∃ type oe ie,
      entryAt et.outCsr src oeOffset ts = some oe ∧ entryAt et.inCsr dst ieOffset ts = some ie ∧
      et'.outCsr = setInline et.outCsr src oeOffset type value ts ∧
      et'.inCsr = setInline et.inCsr dst ieOffset type value ts := by
  unfold updateEdgeProperty at h
  split at h
  next => cases h
  next type _ =>
    split at h
    · cases h
    split at h
    · cases h
    split at h
    next => cases h
    next oe hoe =>
      split at h
      next hbundled =>
        split at h
        · cases h
        split at h
        next => cases h
        next ie hie =>
          cases h
          exact .inr ⟨hbundled, type, oe, ie, hoe, hie, rfl, rfl⟩
      next =>
        split at h
        next => cases h
        next =>
          obtain ⟨column, -, h⟩ := bind_eq_ok.mp h
          cases h
          exact .inl ⟨rfl, rfl⟩

theorem mem_entryAt {v offset : Nat} {entry : Nbr} (h : entryAt csr v offset ts = some entry) :
    (csr.lists v)[offset]? = some entry ∧ entry.timestamp ≤ ts := by
  obtain ⟨hentry, hts⟩ := Option.filter_eq_some_iff.mp h
  exact ⟨hentry, of_decide_eq_true hts⟩

/-- The entry that `set_data` leaves. -/
def written (type : DataType) (value : Value) (ts : Nat) (nbr : Nbr) : Nbr :=
  { nbr with timestamp := ts, data := if type = .empty then nbr.data else value }

theorem exchange_setInline {v offset : Nat} {entry : Nbr} (hframed : csr.Framed)
    (hts : ts < kDeletedTimestamp) (h : entryAt csr v offset ts = some entry) (type : DataType)
    (value : Value) : csr.Exchange (setInline csr v offset type value ts) {(v, entry)}
      {(v, written type value ts entry)} := by
  obtain ⟨hentry, hle⟩ := mem_entryAt h
  have hmodify := exchange_modify hframed (written type value ts) hentry
  have hwritten : (written type value ts entry).live = true := Nbr.live_of_le hts le_rfl
  rw [liveEdges_single (e := (v, entry)) (Nbr.live_of_le hts hle),
    liveEdges_single (e := (v, written type value ts entry)) hwritten] at hmodify
  exact hmodify

/-! ### Balance -/

/-- Both directions are stored, and store the same edges. -/
structure Balanced (et : EdgeTable) : Prop where
  stored : et.outCsr.type ≠ .empty ∧ et.inCsr.type ≠ .empty
  outFramed : et.outCsr.Framed
  inFramed : et.inCsr.Framed
  same : et.outCsr.edges = et.inCsr.edges.map flipEdge

variable (h : et.Balanced)
include h

theorem Balanced.of_sameCsr (hsame : et.SameCsr et') : et'.Balanced := by
  obtain ⟨hstored, houtFramed, hinFramed, hedges⟩ := h
  rw [← hsame.1, ← hsame.2] at *
  exact ⟨hstored, houtFramed, hinFramed, hedges⟩

/-- When both structures lose the same edges and gain the same edges, they still store
the same edges. -/
theorem Balanced.of_exchange (gone new : Multiset (Nat × Nbr))
    (hout : et.outCsr.Exchange et'.outCsr gone new)
    (hin : et.inCsr.Exchange et'.inCsr (gone.map flipEdge) (new.map flipEdge)) :
    et'.Balanced := by
  refine ⟨?_, hout.framed, hin.framed, ?_⟩
  · rw [hout.type_eq, hin.type_eq]
    exact h.stored
  · have hflipped := congrArg (Multiset.map flipEdge) hin.edges_eq
    simp only [Multiset.map_add, map_flipEdge_flipEdge, ← h.same] at hflipped
    exact add_right_cancel (hout.edges_eq.trans hflipped.symm)

/-! ### Insertion -/

theorem Balanced.putEntries {data : Value}
    (hput : et.putEntries src dst data ts = .ok et') : et'.Balanced := by
  unfold EdgeTable.putEntries at hput
  obtain ⟨into, hinto, hput⟩ := bind_eq_ok.mp hput
  obtain ⟨out, hout, hput⟩ := bind_eq_ok.mp hput
  cases hput
  refine h.of_exchange 0 _ (exchange_putEdge h.outFramed h.stored.1 hout) ?_
  rw [← liveEdges_flip]
  exact exchange_putEdge h.inFramed h.stored.2 hinto

theorem Balanced.addEdge {props : List Value} {insertSafe : Bool}
    (hadd : et.addEdge src dst props ts insertSafe = .ok et') : et'.Balanced := by
  obtain ⟨data, put, hput, hsame⟩ := addEdge_csr hadd
  exact (h.putEntries hput).of_sameCsr hsame

/-- Both structures have a place for the edges. -/
def Takes (et : EdgeTable) (pairs : List (Nat × Nat)) : Prop :=
  et.outCsr.Takes (pairs.map Prod.fst) ∧ et.inCsr.Takes (pairs.map Prod.snd)

theorem Balanced.putBatch {pairs : List (Nat × Nat)} {es : List (Nat × Nbr)}
    (hes : Fresh pairs es) (htakes : et.Takes pairs) : (et.putBatch es).Balanced := by
  have hswap : pairs.map Prod.snd = (pairs.map Prod.swap).map Prod.fst := by
    rw [List.map_map]
    rfl
  have hout := lost_eq_nil h.stored.1 (hes.sources ▸ htakes.1)
  have hin := lost_eq_nil h.stored.2 (hes.flip.sources ▸ hswap ▸ htakes.2)
  refine h.of_exchange 0 ↑es ?_ ?_
  · simpa [EdgeTable.putBatch, hout] using exchange_batchPutEdges h.outFramed hes.live
  · simpa [EdgeTable.putBatch, hin] using exchange_batchPutEdges h.inFramed hes.flip.live

theorem Balanced.batchAddEdges {edges : List (Nat × Nat × List Value)}
    (htakes : et.Takes (edges.map fun e => (e.1, e.2.1)))
    (hadd : et.batchAddEdges edges defaults = .ok et') : et'.Balanced :=
  (h.putBatch (et.fresh_batchEntries edges) htakes).of_sameCsr (batchAddEdges_csr hadd)

theorem Balanced.resizeVertices {srcCap dstCap : Nat}
    (hsrc : et.outCsr.vertexCapacity ≤ srcCap) (hdst : et.inCsr.vertexCapacity ≤ dstCap) :
    (et.resizeVertices srcCap dstCap).Balanced :=
  h.of_exchange 0 0 (exchange_resize_of_le h.outFramed h.stored.1 hsrc)
    (exchange_resize_of_le h.inFramed h.stored.2 hdst)

omit h in
theorem exchange_grow (hframed : csr.Framed) (hstored : csr.type ≠ .empty) (cap : Nat) :
    csr.Exchange (if csr.size < cap then csr.resize cap else csr) 0 0 := by
  have hsize : csr.size = csr.vertexCapacity := by
    unfold Csr.size
    split
    next htype => exact absurd htype hstored
    next => rfl
  split
  next hlt => exact exchange_resize_of_le hframed hstored (hsize ▸ hlt.le)
  next => exact .refl hframed

theorem Balanced.reserveVertices (srcCap dstCap : Nat) :
    (et.reserveVertices srcCap dstCap).Balanced :=
  h.of_exchange 0 0 (exchange_grow h.outFramed h.stored.1 srcCap)
    (exchange_grow h.inFramed h.stored.2 dstCap)

/-! ### Deletion -/

/-- Deleting by a property of edges that both structures can tell. -/
theorem Balanced.of_filter (p q : Nat × Nbr → Prop)
    [DecidablePred p] [DecidablePred q] (hpq : ∀ e, p (flipEdge e) ↔ q e)
    (hout : et.outCsr.Exchange et'.outCsr (et.outCsr.edges.filter p) 0)
    (hin : et.inCsr.Exchange et'.inCsr (et.inCsr.edges.filter q) 0) : et'.Balanced := by
  refine h.of_exchange _ _ hout ?_
  rw [h.same, filter_flip p q hpq, map_flipEdge_flipEdge]
  exact hin

theorem Balanced.batchDeleteVertices (srcSet dstSet : List Nat) :
    (et.batchDeleteVertices srcSet dstSet).Balanced := by
  refine h.of_filter _ _ ?_ (exchange_batchDeleteVertices h.outFramed h.stored.1 _ _)
    (exchange_batchDeleteVertices h.inFramed h.stored.2 _ _)
  intro e
  simp only [flipEdge]
  rw [or_comm]

theorem Balanced.batchDeleteEdges (pairs : List (Nat × Nat)) :
    (et.batchDeleteEdges pairs).Balanced := by
  refine h.of_filter _ _ ?_ (exchange_batchDeleteEdges h.outFramed h.stored.1 _)
    (exchange_batchDeleteEdges h.inFramed h.stored.2 _)
  intro e
  constructor
  · exact fun hmem => List.mem_map.mpr ⟨_, hmem, rfl⟩
  · intro hmem
    obtain ⟨pair, hpair, heq⟩ := List.mem_map.mp hmem
    obtain rfl : pair = (e.2.neighbor, e.1) := by rw [← Prod.swap_swap pair, heq]; rfl
    exact hpair

theorem Balanced.eraseEdges (src dst ts : Nat) : (et.eraseEdges src dst ts).Balanced := by
  refine h.of_filter _ _ ?_ (exchange_erase h.outFramed src dst ts)
    (exchange_erase h.inFramed dst src ts)
  intro e
  simp only [flipEdge]
  tauto

/-- Two offsets stand for the two entries of one edge. -/
def Paired (et : EdgeTable) (oe ie : Nat × Nat) : Prop :=
  ∃ out into, (et.outCsr.lists oe.1)[oe.2]? = some out ∧ (et.inCsr.lists ie.1)[ie.2]? = some into ∧
    (oe.1, out) = flipEdge (ie.1, into)

variable {oe ie : Nat × Nat}

/-- The two entries are those of the same edge, also when it is deleted. -/
theorem Balanced.hit_eq (hpaired : et.Paired oe ie) :
    et.inCsr.hit ie.1 ie.2 = (et.outCsr.hit oe.1 oe.2).map flipEdge := by
  obtain ⟨out, into, hout, hin, hflip⟩ := hpaired
  have hlive : into.live = out.live := congrArg (fun e => e.2.live) hflip.symm
  rw [hit_of_landing (h.outFramed.landing_of_le h.stored.1 hout le_rfl),
    hit_of_landing (h.inFramed.landing_of_le h.stored.2 hin le_rfl), hout, hin, Option.map_map,
    Option.filter_some, Option.filter_some, hlive]
  split
  · exact congrArg some (congrArg flipEdge hflip).symm
  · rfl

theorem Balanced.deleteEdge {oeOffset ieOffset : Nat} (hts : ts < kDeletedTimestamp)
    (hpaired : et.Paired (src, oeOffset) (dst, ieOffset))
    (hdelete : et.deleteEdge src dst oeOffset ieOffset ts = .ok et') : et'.Balanced := by
  unfold EdgeTable.deleteEdge at hdelete
  obtain ⟨out, hout, hdelete⟩ := bind_eq_ok.mp hdelete
  obtain ⟨into, hin, hdelete⟩ := bind_eq_ok.mp hdelete
  cases hdelete
  have hgone : (↑(et.outCsr.struck src oeOffset ts).toList : Multiset (Nat × Nbr)).map flipEdge =
      ↑(et.inCsr.struck dst ieOffset ts).toList := by
    rw [struck, struck, h.hit_eq hpaired, map_coe, Option.filter_map, ← Option.toList_map]
    rfl
  refine h.of_exchange _ _ (exchange_deleteEdge h.outFramed h.stored.1 hts hout) ?_
  rw [hgone]
  exact exchange_deleteEdge h.inFramed h.stored.2 hts hin

theorem Balanced.batchDeleteOffsets {oeEdges ieEdges : List (Nat × Nat)}
    (hoe : oeEdges.Nodup) (hie : ieEdges.Nodup) (hpaired : List.Forall₂ et.Paired oeEdges ieEdges) :
    (et.batchDeleteOffsets oeEdges ieEdges).Balanced := by
  have hout : et.outCsr.struckBy oeEdges = oeEdges.filterMap fun e => et.outCsr.hit e.1 e.2 :=
    h.outFramed.struckBy_eq h.stored.1 hoe fun e he => by
      obtain ⟨_, -, out, -, hentry, -⟩ := exists_of_forall₂ hpaired he
      exact ⟨out, hentry⟩
  have hin : et.inCsr.struckBy ieEdges = ieEdges.filterMap fun e => et.inCsr.hit e.1 e.2 :=
    h.inFramed.struckBy_eq h.stored.2 hie fun e he => by
      obtain ⟨_, -, -, into, -, hentry, -⟩ := exists_of_forall₂ hpaired.flip he
      exact ⟨into, hentry⟩
  have hflip : (et.outCsr.struckBy oeEdges).map flipEdge = et.inCsr.struckBy ieEdges := by
    rw [hout, hin]
    clear hout hin hoe hie
    induction hpaired with
    | nil => rfl
    | cons hfirst _ ih =>
      rw [List.filterMap_cons, List.filterMap_cons, h.hit_eq hfirst]
      cases et.outCsr.hit _ _ with
      | none => exact ih
      | some e => exact congrArg (flipEdge e :: ·) ih
  refine h.of_exchange _ _ (exchange_batchDeleteOffsets h.outFramed oeEdges) ?_
  rw [map_coe, hflip]
  exact exchange_batchDeleteOffsets h.inFramed ieEdges

theorem Balanced.deleteEdges (hout : et.outCsr.Represented)
    (hin : et.inCsr.Represented) {past : PastEnd} {readTs writeTs : Nat}
    (hread : readTs < kDeletedTimestamp) (hwrite : writeTs < kDeletedTimestamp)
    (hseparable : et.Separable past src dst readTs writeTs)
    (hdelete : et.deleteEdges past src dst readTs writeTs = .ok et') : et'.Balanced := by
  rw [(deleteEdges_eq_eraseEdges_iff hout hin hread hwrite).mpr hseparable] at hdelete
  cases hdelete
  exact h.eraseEdges src dst readTs

/-! ### Changes of the properties -/

/-- Building both structures from the outgoing edges keeps the balance: the old
structures had a place for each edge, so the new ones have. -/
theorem Balanced.rebuild {es : List (Nat × Nbr)} (hes : et.Entries es) :
    (et.rebuild es).Balanced := by
  have hcleared : ({ et with outCsr := et.outCsr.cleared, inCsr := et.inCsr.cleared } :
      EdgeTable).Balanced := by
    refine ⟨h.stored, h.outFramed.cleared, h.inFramed.cleared, ?_⟩
    rw [edges_cleared, edges_cleared, Multiset.map_zero]
  refine hcleared.putBatch hes ⟨h.outFramed.takes_cleared ?_, h.inFramed.takes_cleared ?_⟩
  · rw [List.map_map, ← map_coe]
    rfl
  · rw [List.map_map, ← map_coe]
    change (et.outCsr.edges.map fun e => e.2.neighbor) = _
    rw [h.same, map_map]
    rfl

theorem Balanced.relaid (hrelaid : et.Relaid et') : et'.Balanced := by
  rcases hrelaid with hsame | ⟨es, hes, hsame⟩
  · exact h.of_sameCsr hsame
  · exact (h.rebuild hes).of_sameCsr hsame

theorem Balanced.compact {order : Option NbrSort}
    (hcompact : et.compact order = .ok et') : et'.Balanced := by
  have hcompacted : ({ et with outCsr := et.outCsr.compact, inCsr := et.inCsr.compact } :
      EdgeTable).Balanced := by
    refine h.of_exchange _ _ (exchange_compact h.outFramed h.stored.1) ?_
    rw [h.same, map_flipEdge_flipEdge, map_map, map_map]
    exact exchange_compact h.inFramed h.stored.2
  unfold EdgeTable.compact at hcompact
  simp only at hcompact
  split at hcompact
  next =>
    cases hcompact
    exact hcompacted
  next order =>
    split at hcompact
    · cases hcompact
      exact hcompacted.of_exchange 0 0 (exchange_batchSortByEdgeData hcompacted.outFramed order)
        (exchange_batchSortByEdgeData hcompacted.inFramed order)
    · cases hcompact

theorem Balanced.updateEdgeProperty {oeOffset ieOffset col : Nat} {value : Value}
    (hts : ts < kDeletedTimestamp)
    (hpaired : et.isBundled = true → et.Paired (src, oeOffset) (dst, ieOffset))
    (hupdate : et.updateEdgeProperty src dst oeOffset ieOffset col value ts = .ok et') :
    et'.Balanced := by
  rcases updateEdgeProperty_csr hupdate with hsame | ⟨hbundled, type, oe, ie, hoe, hie, hout, hin⟩
  · exact h.of_sameCsr hsame
  obtain ⟨out, into, hentryOut, hentryIn, hflip⟩ := hpaired hbundled
  obtain rfl : out = oe := Option.some.inj (hentryOut.symm.trans (mem_entryAt hoe).1)
  obtain rfl : into = ie := Option.some.inj (hentryIn.symm.trans (mem_entryAt hie).1)
  refine h.of_exchange _ _ (hout ▸ exchange_setInline h.outFramed hts hoe type value) ?_
  have hold : flipEdge (src, out) = (dst, into) := congrArg flipEdge hflip
  have hnew : flipEdge (src, written type value ts out) = (dst, written type value ts into) := by
    obtain ⟨rfl, rfl⟩ := Prod.mk.inj hflip
    rfl
  rw [map_singleton, map_singleton, hold, hnew, hin]
  exact exchange_setInline h.inFramed hts hie type value

end EdgeTable

end Neug.Storage
