import Mathlib.Data.Fintype.Basic
import Neug.Transaction.MvccInsertUniqueness

/-! # What insert transactions can rely on

Two guarantees and the runs that break them without their condition, where writes
are not disturbed.  An index that a transaction has resolved translates back to its
object id as long as it is not a live id inside the transaction's own provisional
range.  Object ids stay unique as long as no key is contended when an id is claimed
for it.
-/

namespace Neug.Transaction

open Storage Library InsertState

variable {Tid : Type*} [DecidableEq Tid] {policy : HashPolicy}

/-! ### Schedules -/

def InsertState.play (policy : HashPolicy) (guard : InsertState Tid → Tid → InsertAction → Bool)
    (s : InsertState Tid) (schedule : List (Tid × InsertAction)) : Option (InsertState Tid) :=
  schedule.foldlM (fun s m => if guard s m.1 m.2 then s.next policy m.1 m.2 else none) s

/-- A schedule is a run of the steps that its guard allows where an invariant holds. -/
theorem InsertState.run_of_play {guard : InsertState Tid → Tid → InsertAction → Bool}
    (P : InsertState Tid → Prop) (hP : ∀ s s', P s → s.Step policy s' → P s')
    (allowed : InsertState Tid → Tid → InsertAction → Prop)
    (hguard : ∀ s t action, P s → guard s t action = true → allowed s t action)
    {s s' : InsertState Tid} (hs : P s) {schedule : List (Tid × InsertAction)}
    (hplay : s.play policy guard schedule = some s') : Relation.ReflTransGen
      (fun s s' => ∃ t action, allowed s t action ∧ s.next policy t action = some s') s s' := by
  refine run_of_foldlM P (fun s m s' hs h => ?_) hs hplay
  obtain ⟨hallowed, hnext⟩ := Option.ite_none_right_eq_some.mp h
  exact ⟨⟨m.1, m.2, hguard s m.1 m.2 hs hallowed, hnext⟩, hP s s' hs ⟨m.1, m.2, hnext⟩⟩

theorem InsertState.steps_of_play {s s' : InsertState Tid} {schedule : List (Tid × InsertAction)}
    (hplay : s.play policy (fun _ _ _ => true) schedule = some s') :
    Relation.ReflTransGen (InsertState.Step policy) s s' := by
  have hrun := run_of_play (fun _ => True) (fun _ _ _ _ => trivial) (fun _ _ _ => True)
    (fun _ _ _ _ _ => trivial) trivial hplay
  refine Relation.ReflTransGen.mono ?_ _ _ hrun
  rintro a b ⟨t, action, -, hnext⟩
  exact ⟨t, action, hnext⟩

theorem InsertState.undisturbed_of_play [Fintype Tid] {s s' : InsertState Tid}
    {schedule : List (Tid × InsertAction)}
    (hplay : s.play policy (fun s t _ => decide (s.Undisturbed t)) schedule = some s') :
    Relation.ReflTransGen (InsertState.UndisturbedStep policy) s s' :=
  run_of_play (fun _ => True) (fun _ _ _ _ => trivial) (fun s t _ => s.Undisturbed t)
    (fun _ _ _ _ h => of_decide_eq_true h) trivial hplay

/-- A schedule that plays to the end, in a state that passes a test. -/
theorem InsertState.exists_of_play (policy : HashPolicy)
    (guard : InsertState Tid → Tid → InsertAction → Bool) (s : InsertState Tid)
    (schedule : List (Tid × InsertAction)) (test : InsertState Tid → Prop) [DecidablePred test]
    (h : (s.play policy guard schedule).any (fun s' => decide (test s')) = true) :
    ∃ s', s.play policy guard schedule = some s' ∧ test s' := by
  obtain ⟨s', hs', htest⟩ := (Option.any_eq_true _ _).mp h
  exact ⟨s', hs', of_decide_eq_true htest⟩

/-- A table of integer keys with room for four vertices and no properties, in
which no vertex is valid; every key cell holds 7. -/
def smallTable (indices : Nat → Option Nat) (numElements : Nat) : VertexTable where
  indexer := {
    keys := ⟨.fixed .int64, 4, 0, 0, fun _ => .fixed .int64 7⟩
    indices := indices
    numSlots := 8
    numElements := numElements }
  vts := ⟨0, 4, Nat.zero_le 4, fun _ => kDeletedTimestamp, ∅⟩
  table := []

def smallState (Tid : Type*) (vt : VertexTable) : InsertState Tid where
  graph := ⟨fun _ => vt, fun _ => none⟩
  wal := []
  used := []
  threads := fun _ => ⟨.start 0, .closed⟩

theorem smallTable_entry (indices : Nat → Option Nat) (numElements lid : Nat) :
    (smallTable indices numElements).vts.entry lid = none := by
  simp [smallTable, VertexTimestamp.entry]

omit [DecidableEq Tid] in
theorem smallState_initial {indices : Nat → Option Nat} {numElements : Nat}
    (hindices : ∀ i lid, indices i = some lid → lid < numElements ∧ lid < 4) :
    (smallState Tid (smallTable indices numElements)).Initial := by
  refine ⟨fun _ => ⟨?_, ?_, Nat.le_refl 4⟩, fun _ => rfl⟩
  · rintro lid ⟨i, hi⟩
    exact hindices i lid hi
  · intro lid e he
    rw [show ((smallState Tid (smallTable indices numElements)).graph.vertices _).vts.entry lid =
      none from smallTable_entry indices numElements lid] at he
    cases he

def emptyState (Tid : Type*) : InsertState Tid := smallState Tid (smallTable (fun _ => none) 0)

omit [DecidableEq Tid] in
theorem emptyState_loaded : (emptyState Tid).Loaded firstSlot := by
  refine ⟨smallState_initial nofun, fun _ => ⟨Nat.succ_pos 7, nofun, nofun, nofun⟩⟩

/-! ### Translating an index back -/

namespace InsertTxn

/-- `idx` is the provisional id of an object id that the transaction added. -/
def Provisional (txn : InsertTxn) (label : Nat) (oid : Value) (idx : Nat) : Prop :=
  ∃ keys i, txn.added label = some keys ∧ keys[i]? = some oid ∧ idx = txn.base label + i

/-- `idx` is below the provisional ids of the transaction. -/
def BelowProvisional (txn : InsertTxn) (label idx : Nat) : Prop :=
  txn.added label = none ∨ idx < txn.base label

/-- An object id of the key type of the label resolves to an index. -/
def Resolves (policy : HashPolicy) (g : Graph) (txn : InsertTxn) (label : Nat) (oid : Value)
    (idx : Nat) : Prop :=
  (g.vertices label).indexer.Accepts oid ∧ txn.getVertexIndex policy g label oid = some idx

variable {txn : InsertTxn} {label idx : Nat} {oid : Value}

/-- An object id resolves to a visible vertex of the graph or to an own one. -/
theorem getVertexIndex_cases {g : Graph} (h : txn.getVertexIndex policy g label oid = some idx) :
    g.getLid policy label oid txn.timestamp = some idx ∨ txn.Provisional label oid idx := by
  unfold getVertexIndex at h
  split at h
  next lid hlid =>
    cases h
    exact .inl hlid
  next =>
    split at h
    next keys hkeys =>
      obtain ⟨i, hi, rfl⟩ := Option.map_eq_some_iff.mp h
      obtain ⟨hlt, hkey, -⟩ := List.idxOf?_eq_some_iff.mp hi
      exact .inr ⟨keys, i, hkeys, by rw [List.getElem?_eq_getElem hlt, hkey], Nat.add_comm _ _⟩
    next => cases h

theorem Provisional.continues {txn' : InsertTxn} (h : txn.Provisional label oid idx)
    (hcont : txn.Continues txn') : txn'.Provisional label oid idx := by
  obtain ⟨keys, i, hkeys, hi, rfl⟩ := h
  obtain ⟨more, hmore, hbase⟩ := hcont.added label keys hkeys
  refine ⟨keys ++ more, i, hmore, ?_, by rw [hbase]⟩
  obtain ⟨hlt, -⟩ := List.getElem?_eq_some_iff.mp hi
  rw [List.getElem?_append_left hlt, hi]

theorem Provisional.getVertexId (h : txn.Provisional label oid idx) (g : Graph) :
    txn.getVertexId g label idx = .ok oid := by
  obtain ⟨keys, i, hkeys, hi, rfl⟩ := h
  simp [InsertTxn.getVertexId, hkeys, hi]

theorem BelowProvisional.getVertexId (h : txn.BelowProvisional label idx) (g : Graph) :
    txn.getVertexId g label idx = (g.getOid label idx txn.timestamp).mapError .vertex := by
  unfold InsertTxn.getVertexId
  split
  next => rfl
  next keys hkeys =>
    rcases h with hnone | hlt
    · rw [hkeys] at hnone
      cases hnone
    · rw [if_neg (Nat.not_le.mpr hlt)]

end InsertTxn

/-- An index that an open transaction resolved from an object id translates back
to it later in a run without disturbed writes, whatever was committed in between,
exactly when it is the transaction's own provisional id of that object id or lies
below its provisional ids. -/
theorem InsertState.getVertexId_resolved_iff {s s' : InsertState Tid} {t : Tid}
    {label idx : Nat} {oid : Value} (hreach : Reachable Initial (UndisturbedStep policy) s)
    (hopen : (s.threads t).pc = .opened)
    (hresolves : (s.threads t).txn.Resolves policy s.graph label oid idx)
    (hrun : Relation.ReflTransGen (UndisturbedStep policy) s s')
    (hopen' : (s'.threads t).pc = .opened) :
    (s'.threads t).txn.getVertexId s'.graph label idx = .ok oid ↔
      (s'.threads t).txn.Provisional label oid idx ∨
        (s'.threads t).txn.BelowProvisional label idx := by
  have hinv := inv_of_undisturbed hreach
  have hrun := steps_of_undisturbed hrun
  have hcont := continues_of_run hrun hopen hopen'
  constructor
  · intro hid
    unfold InsertTxn.getVertexId at hid
    split at hid
    next hnone => exact .inr (.inl hnone)
    next keys hkeys =>
      split at hid
      next hle =>
        split at hid
        next key hkey =>
          cases hid
          exact .inl ⟨keys, _, hkeys, hkey, (Nat.add_sub_cancel' hle).symm⟩
        next => cases hid
      next hlt => exact .inr (.inr (Nat.lt_of_not_le hlt))
  · rintro (hprovisional | hbelow)
    · exact hprovisional.getVertexId s'.graph
    · rcases InsertTxn.getVertexIndex_cases hresolves.2 with hlive | hown
      · obtain ⟨hindex, hvalid⟩ := VertexTable.getLid_eq_some.mp hlive
        obtain ⟨hkey, hindexed⟩ := LFIndexer.getIndex_sound hindex
        have hlt := ((hinv.table label).indexed_lt idx hindexed).1
        have hoid := (grows_of_run hinv hrun label).1.getOid hindexed hlt hvalid
        rw [hbelow.getVertexId, Graph.getOid, hcont.timestamp, hoid, hkey]
        rfl
      · exact (hown.continues hcont).getVertexId s'.graph

/-- The second transaction adds key 10, so its provisional ids start at 0. -/
def secondOpens : List (Fin 2 × InsertAction) :=
  [(0, .begin 1), (1, .begin 2), (1, .addVertex 0 (.fixed .int64 10) [])]

/-- The first transaction commits key 7, which gets the live id 0. -/
def firstCommits : List (Fin 2 × InsertAction) :=
  [(0, .addVertex 0 (.fixed .int64 7) []), (0, .commit true)] ++
    List.replicate 8 (0, .ingest false)

/-- The own vertex of the second transaction still translates back after the
first one has committed. -/
theorem InsertState.getVertexId_resolved_iff_own : ∃ s s' : InsertState (Fin 2),
      (s.threads 1).txn.Resolves firstSlot s.graph 0 (.fixed .int64 10) 0 ∧
      (s'.threads 0).pc = .ended .committed ∧
      (s'.threads 1).txn.getVertexId s'.graph 0 0 = .ok (.fixed .int64 10) := by
  obtain ⟨s, hs, hopen, haccepts, hindex, hnext⟩ := exists_of_play
    firstSlot (fun s t _ => decide (s.Undisturbed t)) (emptyState (Fin 2))
    secondOpens
    (fun s => (s.threads 1).pc = .opened ∧
      (s.graph.vertices 0).indexer.Accepts (.fixed .int64 10) ∧
      (s.threads 1).txn.getVertexIndex firstSlot s.graph 0 (.fixed .int64 10) = some 0 ∧
      (s.play firstSlot (fun s t _ => decide (s.Undisturbed t)) firstCommits).any (fun s' =>
        (s'.threads 0).pc = .ended .committed ∧ (s'.threads 1).pc = .opened ∧
        (s'.threads 1).txn.added 0 = some [.fixed .int64 10] ∧
        (s'.threads 1).txn.base 0 = 0) = true)
    (by decide +kernel)
  obtain ⟨s', hs', hended, hopen', hadded, hbase⟩ := exists_of_play _ _ _ _ _ hnext
  have hreach : Reachable InsertState.Initial (InsertState.UndisturbedStep firstSlot) s :=
    ⟨_, emptyState_loaded.initial, undisturbed_of_play hs⟩
  refine ⟨s, s', ⟨haccepts, hindex⟩, hended, ?_⟩
  apply (getVertexId_resolved_iff hreach hopen ⟨haccepts, hindex⟩
    (undisturbed_of_play hs') hopen').mpr
  exact .inl ⟨_, 0, hadded, rfl, by rw [hbase]⟩

/-- The key that the first transaction committed resolves to the live id 0 in the
second one, and 0 translates back to the second transaction's own key. -/
theorem InsertState.getVertexId_confuses_live_id :
    ∃ s : InsertState (Fin 2), Reachable Initial (Step firstSlot) s ∧ (s.threads 1).pc = .opened ∧
      (s.threads 1).txn.Resolves firstSlot s.graph 0 (.fixed .int64 7) 0 ∧
      (s.threads 1).txn.getVertexId s.graph 0 0 = .ok (.fixed .int64 10) := by
  obtain ⟨s, hs, hopen, haccepts, hindex, hid⟩ := exists_of_play
    firstSlot (fun _ _ _ => true) (emptyState (Fin 2))
    (secondOpens ++ firstCommits)
    (fun s => (s.threads 1).pc = .opened ∧
      (s.graph.vertices 0).indexer.Accepts (.fixed .int64 7) ∧
      (s.threads 1).txn.getVertexIndex firstSlot s.graph 0 (.fixed .int64 7) = some 0 ∧
      (s.threads 1).txn.getVertexId s.graph 0 0 = .ok (.fixed .int64 10))
    (by decide +kernel)
  exact ⟨s, ⟨_, emptyState_loaded.initial, steps_of_play hs⟩, hopen,
    ⟨haccepts, hindex⟩, hid⟩

/-! ### Uniqueness of object ids -/

/-- In runs in which no key is contended and no write disturbed, at most one vertex of
a label is valid for an object id, and looking the object id up gives that vertex. -/
theorem InsertState.valid_vertex_unique {s : InsertState Tid}
    (hreach : Reachable (Loaded policy) (UncontendedStep policy) s) {label lid ts : Nat}
    {oid : Value} (hvalid : (s.graph.vertices label).Valid lid oid ts) :
    (∀ lid' ts', (s.graph.vertices label).Valid lid' oid ts' → lid' = lid) ∧
      s.graph.getLid policy label oid ts = some lid := by
  have hunique := unique_of_reachable hreach
  have hslot : ∀ {lid ts : Nat}, (s.graph.vertices label).Valid lid oid ts →
      Indexed (s.graph.vertices label).indexer lid := by
    intro lid ts h
    obtain ⟨e, he, -⟩ := (VertexTimestamp.isVertexValid_iff _ _ _).mp h.2.2
    exact (hunique.inv.table label).entry_indexed lid e he
  obtain ⟨i, hi⟩ := hslot hvalid
  refine ⟨?_, ?_⟩
  · intro lid' ts' hvalid'
    obtain ⟨j, hj⟩ := hslot hvalid'
    exact (hunique.consistent label).key_unique j i lid' lid hj hi
      (hvalid'.2.1.trans hvalid.2.1.symm)
  · apply VertexTable.getLid_eq_some.mpr
    refine ⟨?_, hvalid.2.2⟩
    have hfound := (hunique.consistent label).getIndex_eq hi
    rwa [hvalid.2.1] at hfound

/-- A test for `Uncontended`: no id that was claimed has the key, and no other transaction is
adding it. -/
def InsertState.claimsFreely (s : InsertState (Fin 2)) (t : Fin 2) : Bool :=
  match (s.threads t).pc, (s.threads (1 - t)).pc with
  | .ingesting (.insertVertex label oid _) .claim _, other =>
    let ix := (s.graph.vertices label).indexer
    (List.range ix.numElements).all (fun lid => ix.getKey lid ≠ oid) &&
      decide (Column.stored ix.keys.type oid = some oid) &&
      match other with
      | .ingesting (.insertVertex _ oid' _) _ _ => oid' ≠ oid
      | _ => true
  | _, _ => true

theorem InsertState.Inv.uncontended {s : InsertState (Fin 2)} (hinv : s.Inv) {t : Fin 2}
    (h : s.claimsFreely t = true) : s.Uncontended t := by
  rintro label oid ⟨props, rest, hpc⟩
  simp only [claimsFreely, hpc, Bool.and_eq_true, List.all_eq_true, List.mem_range,
    decide_eq_true_eq] at h
  obtain ⟨⟨habsent, hkept⟩, hother⟩ := h
  refine ⟨fun lid hlid => habsent lid ((hinv.table label).indexed_lt lid hlid).1, hkept, ?_⟩
  rintro t' pc hne ⟨props', rest', hpc'⟩
  obtain rfl : t' = 1 - t := by omega
  rw [hpc'] at hother
  exact absurd rfl (of_decide_eq_true hother)

/-- Two transactions add different keys, and both look their keys up before one claims an id. -/
def twoKeys : List (Fin 2 × InsertAction) :=
  [(0, .begin 1), (0, .addVertex 0 (.fixed .int64 8) []), (1, .begin 2),
    (1, .addVertex 0 (.fixed .int64 9) []), (0, .commit true), (1, .commit true),
    (0, .ingest false), (0, .ingest false), (1, .ingest false), (1, .ingest false),
    (1, .ingest false), (0, .ingest false)] ++
  List.replicate 5 (0, .ingest false) ++ List.replicate 6 (1, .ingest false)

/-- Both vertices are found by their keys. -/
theorem InsertState.valid_vertex_unique_twoKeys : ∃ s : InsertState (Fin 2),
      (s.graph.vertices 0).Valid 1 (.fixed .int64 8) 2 ∧
      (s.graph.vertices 0).Valid 0 (.fixed .int64 9) 2 ∧
      s.graph.getLid firstSlot 0 (.fixed .int64 8) 2 = some 1 ∧
      s.graph.getLid firstSlot 0 (.fixed .int64 9) 2 = some 0 := by
  obtain ⟨s, hs, h, h'⟩ := exists_of_play
    firstSlot (fun s t _ => s.claimsFreely t && decide (s.Undisturbed t)) (emptyState (Fin 2))
    twoKeys
    (fun s => (s.graph.vertices 0).Valid 1 (.fixed .int64 8) 2 ∧
      (s.graph.vertices 0).Valid 0 (.fixed .int64 9) 2)
    (by decide +kernel)
  have hrun := run_of_play Inv (fun _ _ hinv => hinv.step)
    (fun s t _ => s.Uncontended t ∧ s.Undisturbed t)
    (fun s t _ hinv hguard => by
      obtain ⟨hfree, hundisturbed⟩ := (Bool.and_eq_true _ _).mp hguard
      exact ⟨hinv.uncontended hfree, of_decide_eq_true hundisturbed⟩)
    (.of_initial emptyState_loaded.initial) hs
  have hreach : Reachable (Loaded firstSlot) (UncontendedStep firstSlot) s :=
    ⟨_, emptyState_loaded, hrun⟩
  exact ⟨s, h, h', (valid_vertex_unique hreach h).2, (valid_vertex_unique hreach h').2⟩

/-- Two transactions add the same key, both look it up, and then both insert it. -/
def bothProbe : List (Fin 2 × InsertAction) :=
  [(0, .begin 1), (0, .addVertex 0 (.fixed .int64 7) []), (1, .begin 2),
    (1, .addVertex 0 (.fixed .int64 7) []), (0, .commit true), (1, .commit true),
    (0, .ingest false), (0, .ingest false), (1, .ingest false), (1, .ingest false)] ++
  List.replicate 6 (0, .ingest false) ++ List.replicate 7 (1, .ingest false)

/-- Afterwards both transactions have committed and there are two valid vertices
with that key. -/
theorem InsertState.valid_vertex_duplicated :
    ∃ s : InsertState (Fin 2), Reachable (Loaded firstSlot) (Step firstSlot) s ∧
      (s.threads 0).pc = .ended .committed ∧ (s.threads 1).pc = .ended .committed ∧
      (s.graph.vertices 0).Valid 0 (.fixed .int64 7) 2 ∧
      (s.graph.vertices 0).Valid 1 (.fixed .int64 7) 2 := by
  obtain ⟨s, hs, h⟩ := exists_of_play
    firstSlot (fun _ _ _ => true) (emptyState (Fin 2))
    bothProbe
    (fun s => (s.threads 0).pc = .ended .committed ∧
      (s.threads 1).pc = .ended .committed ∧
      (s.graph.vertices 0).Valid 0 (.fixed .int64 7) 2 ∧
      (s.graph.vertices 0).Valid 1 (.fixed .int64 7) 2)
    (by decide +kernel)
  exact ⟨s, ⟨_, emptyState_loaded, steps_of_play hs⟩, h⟩

end Neug.Transaction
