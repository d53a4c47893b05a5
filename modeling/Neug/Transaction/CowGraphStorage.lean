import Neug.Storage.EdgeDeletion

/-! # Writes of a copy-on-write transaction

A copy-on-write transaction applies its writes to a graph of its own.  Detaching shared
buffers before a write is not visible in the graph and is left out.
-/

namespace Neug.Transaction

open Storage

/-- The timestamps of `CowGraphStorage`: those up to `read` are visible, and writes get
`write`. -/
structure CowTimestamps where
  read : Nat
  write : Nat
  read_lt : read < kDeletedTimestamp
  write_lt : write < kDeletedTimestamp

namespace CowTimestamps

def snapshot (ts : Nat) (hts : ts < kDeletedTimestamp) : CowTimestamps := ⟨ts, ts, hts, hts⟩

end CowTimestamps

inductive CowError where
  | invalidEndpoint
  | edge (error : EdgeError)
  deriving DecidableEq, Repr

def deleteEdges (past : PastEnd) (ts : CowTimestamps) (g : Graph) (label : EdgeLabel)
    (src dst : Nat) : Except CowError Graph :=
  if (g.vertices label.src).isValidLid src ts.read ∧ (g.vertices label.dst).isValidLid dst ts.read
  then
    match g.edges label with
    | none => .error (.edge (.noSuchTable label))
    | some et =>
      match et.deleteEdges past src dst ts.read ts.write with
      | .error error => .error (.edge error)
      | .ok et' => .ok (g.setEdges label et')
  else .error .invalidEndpoint

/-- For two vertices of the graph, deleting the edges from one to the other succeeds and
leaves the graph without exactly the visible edges between them, in both lists, if and
only if the edge table is separable for them. -/
theorem deleteEdges_exact_iff (past : PastEnd) (ts : CowTimestamps) (g : Graph)
    (label : EdgeLabel) (et : EdgeTable) (src dst : Nat) (het : g.edges label = some et)
    (hout : et.outCsr.Represented) (hin : et.inCsr.Represented)
    (hsrc : (g.vertices label.src).isValidLid src ts.read = true)
    (hdst : (g.vertices label.dst).isValidLid dst ts.read = true) :
    deleteEdges past ts g label src dst = .ok (g.setEdges label (et.eraseEdges src dst ts.read)) ↔
      et.Separable past src dst ts.read ts.write := by
  rw [← EdgeTable.deleteEdges_eq_eraseEdges_iff hout hin ts.read_lt ts.write_lt, deleteEdges,
    if_pos ⟨hsrc, hdst⟩, het]
  simp only
  cases hdelete : et.deleteEdges past src dst ts.read ts.write with
  | error error => exact iff_of_false (fun h => by cases h) fun h => by cases h
  | ok et' =>
    simp only [Except.ok.injEq]
    constructor
    · intro h
      have hsame := congrArg (fun g' : Graph => g'.edges label) h
      simpa only [Graph.setEdges_self, Option.some.injEq] using hsame
    · rintro rfl
      rfl

def starTable (out : List Nbr) (into : Nat → List Nbr) : EdgeTable where
  properties := [.fixed .int64]
  outCsr := ⟨.mutable, 4, fun v => if v = 0 then out else []⟩
  inCsr := ⟨.mutable, 4, fun v => if v < 4 then into v else []⟩
  table := []
  tableIdx := 0
  capacity := 0

def starGraph (et : EdgeTable) : Graph where
  vertices := fun _ => {
    indexer := {
      keys := ⟨.fixed .int64, 4, 0, 0, fun lid => .fixed .int64 lid⟩
      indices := fun i => if i < 3 then some i else none
      numSlots := 8
      numElements := 3 }
    vts := ⟨3, 4, by decide, fun _ => kDeletedTimestamp, ∅⟩
    table := [] }
  edges := fun _ => some et

theorem starTable_represented (out : List Nbr) (into : Nat → List Nbr)
    (hout : out.length ≤ kNoOffset) (hinto : ∀ v, (into v).length ≤ kNoOffset) :
    (starTable out into).outCsr.Represented ∧ (starTable out into).inCsr.Represented := by
  refine ⟨⟨⟨fun v hv => ?_, nofun⟩, fun v => ?_⟩, ⟨fun v hv => ?_, nofun⟩, fun v => ?_⟩
  · exact if_neg (Nat.ne_of_gt (Nat.lt_of_lt_of_le (Nat.succ_pos 3) hv))
  · simp only [starTable]
    split
    · exact hout
    · exact Nat.zero_le _
  · exact if_neg (Nat.not_lt.mpr hv)
  · simp only [starTable]
    split
    · exact hinto v
    · exact Nat.zero_le _

/-- Two parallel edges that differ in their property, stored in different orders. -/
theorem deleteEdges_exact_parallel : ∃ et : EdgeTable, (et.outCsr.candidates 0 1 9).length = 2 ∧
      deleteEdges (fun _ _ => 0) (.snapshot 9 (by decide)) (starGraph et) ⟨0, 0, 0⟩ 0 1 =
        .ok ((starGraph et).setEdges ⟨0, 0, 0⟩ (et.eraseEdges 0 1 9)) := by
  refine ⟨starTable [⟨1, 3, .fixed .int64 5⟩, ⟨1, 3, .fixed .int64 6⟩]
    (fun _ => [⟨0, 3, .fixed .int64 6⟩, ⟨0, 3, .fixed .int64 5⟩]), by decide, ?_⟩
  obtain ⟨hout, hin⟩ := starTable_represented [⟨1, 3, .fixed .int64 5⟩, ⟨1, 3, .fixed .int64 6⟩]
    (fun _ => [⟨0, 3, .fixed .int64 6⟩, ⟨0, 3, .fixed .int64 5⟩]) (by decide) fun _ => by decide
  refine (deleteEdges_exact_iff _ _ _ _ _ 0 1 rfl hout hin (by decide) (by decide)).mpr
    ⟨by decide, by decide, ⟨?_, ?_⟩, by decide, by decide, fun _ _ => ⟨by decide, by decide, ?_⟩⟩
  · unfold Csr.NotNewer
    decide
  · unfold Csr.NotNewer
    decide
  · decide

/-- Edges from 0 to 1 and from 0 to 2 are inserted and the first one is deleted.  The
deletion of the second one marks the slot of the first again: the outgoing list keeps the
edge, the incoming list loses it. -/
theorem deleteEdges_after_deletion :
    ∃ et et' : EdgeTable,
      (do
        let et ← (starTable [] fun _ => []).addEdge 0 1 [.fixed .int64 5] 1 true
        let et ← et.addEdge 0 2 [.fixed .int64 6] 2 true
        et.deleteEdges (fun _ _ => 0) 0 1 3 3) = .ok et ∧
      deleteEdges (fun _ _ => 0) (.snapshot 4 (by decide)) (starGraph et) ⟨0, 0, 0⟩ 0 2 =
        .ok ((starGraph et).setEdges ⟨0, 0, 0⟩ et') ∧
      et'.outCsr.candidates 0 2 4 = [1] ∧ et'.inCsr.candidates 2 0 4 = [] ∧
      (et.eraseEdges 0 2 4).outCsr.candidates 0 2 4 = [] :=
  ⟨_, _, rfl, rfl, by decide, by decide, by decide⟩

end Neug.Transaction
