import Neug.Transaction.MvccInsertSafety

/-! # Runs of concurrent insert transactions

What a step of one transaction does to the whole system, and the invariant that
every interleaving keeps: the tables are well formed, each committer knows what
its program point requires, and an id claimed but not yet indexed has one owner.
Along any run the tables only grow.
-/

namespace Neug.Transaction

open Function List
open Storage Library

/-! ### The buffer of a transaction -/

/-- `txn'` continues the buffer `txn`: local keys keep their provisional ids. -/
structure InsertTxn.Continues (txn txn' : InsertTxn) : Prop where
  timestamp : txn'.timestamp = txn.timestamp
  added : ∀ label keys, txn.added label = some keys →
    ∃ more, txn'.added label = some (keys ++ more) ∧ txn'.base label = txn.base label

namespace InsertTxn

variable {policy : HashPolicy} {g : Graph} {txn txn' txn'' : InsertTxn}

theorem Continues.refl (txn : InsertTxn) : txn.Continues txn :=
  ⟨rfl, fun _ keys h => ⟨[], by rw [h, append_nil], rfl⟩⟩

theorem Continues.trans (h : txn.Continues txn') (h' : txn'.Continues txn'') :
    txn.Continues txn'' := by
  refine ⟨h'.timestamp.trans h.timestamp, ?_⟩
  intro label keys hkeys
  obtain ⟨more, hmore, hbase⟩ := h.added label keys hkeys
  obtain ⟨more', hmore', hbase'⟩ := h'.added label _ hmore
  exact ⟨more ++ more', by rw [hmore', append_assoc], hbase'.trans hbase⟩

theorem createIdIndexer_continues {label : Nat} (h : txn.createIdIndexer g label = .ok txn') :
    txn.Continues txn' := by
  unfold createIdIndexer at h
  split at h
  next => cases h; exact .refl txn
  next hnone =>
    split at h
    · cases h
      refine ⟨rfl, ?_⟩
      intro l keys hkeys
      have hne : l ≠ label := by
        rintro rfl
        rw [hnone] at hkeys
        cases hkeys
      refine ⟨[], ?_, update_of_ne hne _ _⟩
      rw [append_nil]
      exact (update_of_ne hne _ _).trans hkeys
    · cases h

theorem addVertex_continues {label vid : Nat} {id : Value} {props : List Value}
    (h : txn.addVertex policy g label id props = .ok (txn', vid)) : txn.Continues txn' := by
  simp only [addVertex] at h
  split at h
  · cases h
  split at h
  · cases h
  split at h
  next => cases h
  next made hmade =>
    have hcont := createIdIndexer_continues hmade
    split at h
    next => cases h; exact hcont
    next =>
      cases h
      refine hcont.trans ⟨rfl, ?_⟩
      intro l keys hkeys
      by_cases heq : l = label
      · subst heq
        exact ⟨[id], by simp [hkeys], rfl⟩
      · refine ⟨[], ?_, rfl⟩
        rw [append_nil]
        exact (update_of_ne heq _ _).trans hkeys

theorem addEdge_continues {label : EdgeLabel} {src dst : Nat} {props : List Value}
    (h : txn.addEdge g label src dst props = .ok txn') : txn.Continues txn' := by
  unfold addEdge at h
  split at h
  · cases h
  · cases h
  split at h
  · cases h
  split at h
  · cases h
  split at h
  · cases h
  · cases h
    exact ⟨rfl, fun _ keys hkeys => ⟨[], by rw [append_nil]; exact hkeys, rfl⟩⟩

end InsertTxn

/-! ### Steps of the system -/

section System

variable {Tid : Type*} [DecidableEq Tid] {policy : HashPolicy}

inductive InsertMove (policy : HashPolicy) (s : InsertState Tid) (t : Tid)
    (action : InsertAction) : InsertState Tid → Prop
  | rejected : InsertMove policy s t action s
  | begin {ts : Nat} (hpc : (s.threads t).pc = .closed) (hfresh : ts ∉ s.used)
      (hpos : 0 < ts) (hlt : ts < kDeletedTimestamp) :
      InsertMove policy s t action { s with
        used := ts :: s.used
        threads := update s.threads t ⟨.start ts, .opened⟩ }
  | buffer {txn : InsertTxn} (hpc : (s.threads t).pc = .opened)
      (hcont : (s.threads t).txn.Continues txn) :
      InsertMove policy s t action (s.setThread t ⟨txn, .opened⟩)
  | finish {outcome : Outcome} (hpc : (s.threads t).pc = .opened)
      (hempty : outcome = .committed → (s.threads t).txn.arc = [])
      (hquiet : ∀ e, outcome ≠ .threw e) :
      InsertMove policy s t action (s.setThread t ⟨(s.threads t).txn, .ended outcome⟩)
  | append (hpc : (s.threads t).pc = .opened) (hne : (s.threads t).txn.arc ≠ []) :
      InsertMove policy s t action { s with
        wal := s.wal ++ [((s.threads t).txn.timestamp, (s.threads t).txn.arc)]
        threads := update s.threads t
          ⟨(s.threads t).txn, .ofRecords (s.threads t).txn.arc⟩ }
  | ingest {r : Redo} {pc : IngestPc} {rest : List Redo} (spurious : Bool)
      (haction : action = .ingest spurious) (hpc : (s.threads t).pc = .ingesting r pc rest) :
      InsertMove policy s t action { s with
        graph := (ingestStep policy s.graph (s.threads t).txn.timestamp r pc spurious).1
        threads := update s.threads t ⟨(s.threads t).txn, .ofProgress r rest
          (ingestStep policy s.graph (s.threads t).txn.timestamp r pc spurious).2⟩ }

theorem InsertState.next_move {s s' : InsertState Tid} {t : Tid} {action : InsertAction}
    (h : s.next policy t action = some s') : InsertMove policy s t action s' := by
  cases hpc : (s.threads t).pc with
  | closed =>
    cases action with
    | begin ts =>
      simp only [next, hpc] at h
      split at h
      next hguard =>
        cases h
        exact .begin hpc hguard.1 hguard.2.1 hguard.2.2
      next => cases h
    | _ => simp [next, hpc] at h
  | opened =>
    cases action with
    | addVertex label id props =>
      simp only [next, hpc] at h
      split at h
      next txn vid hadd =>
        cases h
        exact .buffer hpc (InsertTxn.addVertex_continues hadd)
      next => cases h; exact .rejected
    | addEdge label src dst props =>
      simp only [next, hpc] at h
      split at h
      next txn hadd =>
        cases h
        exact .buffer hpc (InsertTxn.addEdge_continues hadd)
      next => cases h; exact .rejected
    | commit appended =>
      simp only [next, hpc] at h
      split at h
      next hempty => cases h; exact .finish hpc (fun _ => hempty) nofun
      next hne =>
        split at h
        · cases h; exact .append hpc hne
        · cases h; exact .finish hpc nofun nofun
    | abort =>
      simp only [next, hpc] at h
      cases h
      exact .finish hpc nofun nofun
    | begin _ | ingest _ => simp [next, hpc] at h
  | ingesting r pc rest =>
    cases action with
    | ingest spurious =>
      simp only [next, hpc] at h
      cases h
      exact .ingest spurious rfl hpc
    | _ => simp [next, hpc] at h
  | ended outcome =>
    cases action with
    | _ => simp [next, hpc] at h

/-! ### The invariant -/

/-- The transaction is adding a vertex of the label, at the given point. -/
def TxnLocal.At (l : TxnLocal) (label : Nat) (pc : IngestPc) : Prop :=
  ∃ oid props rest, l.pc = .ingesting (.insertVertex label oid props) pc rest

structure InsertState.Inv (s : InsertState Tid) : Prop where
  table : ∀ label, TableOk (s.graph.vertices label)
  pc : ∀ t label pc, (s.threads t).At label pc →
    PcOk (s.graph.vertices label) (s.threads t).txn.timestamp pc
  sole : ∀ t t' label pc pc' ind, (s.threads t).At label pc → (s.threads t').At label pc' →
    pc.claimed = some ind → pc'.claimed = some ind → t = t'
  stamp : ∀ t, (s.threads t).pc ≠ .closed → (s.threads t).txn.timestamp ∈ s.used ∧
    0 < (s.threads t).txn.timestamp ∧ (s.threads t).txn.timestamp < kDeletedTimestamp

/-- What a step of one transaction has to establish for the invariant to survive. -/
structure Preserves (s s' : InsertState Tid) (t : Tid) (l : TxnLocal) : Prop where
  threads : s'.threads = update s.threads t l
  used : ∀ ts ∈ s.used, ts ∈ s'.used
  table : ∀ label, TableOk (s'.graph.vertices label)
  grows : ∀ label, Grows (s.graph.vertices label) (s'.graph.vertices label)
  indexed : ∀ label lid, Indexed (s'.graph.vertices label).indexer lid →
    Indexed (s.graph.vertices label).indexer lid ∨
      ∃ pc, (s.threads t).At label pc ∧ pc.claimed = some lid
  own : ∀ label pc, l.At label pc → PcOk (s'.graph.vertices label) l.txn.timestamp pc
  claims : ∀ label pc ind, l.At label pc → pc.claimed = some ind →
    (∃ pc', (s.threads t).At label pc' ∧ pc'.claimed = some ind) ∨
      ind = (s.graph.vertices label).indexer.numElements
  stamp : l.pc ≠ .closed → l.txn.timestamp ∈ s'.used ∧ 0 < l.txn.timestamp ∧
    l.txn.timestamp < kDeletedTimestamp

namespace InsertState.Inv

variable {s s' : InsertState Tid} {t : Tid} {l : TxnLocal}

omit [DecidableEq Tid] in
theorem stamp_ne (hinv : s.Inv) (hopen : (s.threads t).pc ≠ .closed) :
    (s.threads t).txn.timestamp ≠ 0 ∧ (s.threads t).txn.timestamp ≠ kDeletedTimestamp := by
  obtain ⟨-, hpos, hlt⟩ := hinv.stamp t hopen
  exact ⟨Nat.ne_of_gt hpos, Nat.ne_of_lt hlt⟩

theorem preserve (hinv : s.Inv) (h : Preserves s s' t l) : s'.Inv := by
  have hself : s'.threads t = l := by rw [h.threads, update_self]
  have hother : ∀ t', t' ≠ t → s'.threads t' = s.threads t' := by
    intro t' hne
    rw [h.threads, update_of_ne hne]
  -- a claim of the acting transaction meets no claim of another one
  have hforeign : ∀ {t' label ind pc pc'}, t' ≠ t → l.At label pc → (s.threads t').At label pc' →
      pc.claimed = some ind → pc'.claimed ≠ some ind := by
    intro t' label ind pc pc' hne hat hat' hclaimed hclaimed'
    rcases h.claims label pc ind hat hclaimed with ⟨pc₀, hat₀, hclaimed₀⟩ | rfl
    · exact hne (hinv.sole t' t label pc' pc₀ ind hat' hat₀ hclaimed' hclaimed₀)
    · exact Nat.lt_irrefl _ ((hinv.pc t' label pc' hat').claimed hclaimed').lt_numElements
  refine ⟨h.table, ?_, ?_, ?_⟩
  · intro t' label pc hat
    by_cases heq : t' = t
    · subst heq
      rw [hself] at hat ⊢
      exact h.own label pc hat
    · rw [hother t' heq] at hat ⊢
      refine (hinv.pc t' label pc hat).grows (h.grows label) ?_
      intro ind hclaimed hindexed
      rcases h.indexed label ind hindexed with hold | ⟨pc₀, hat₀, hclaimed₀⟩
      · exact ((hinv.pc t' label pc hat).claimed hclaimed).not_indexed hold
      · exact heq (hinv.sole t' t label pc pc₀ ind hat hat₀ hclaimed hclaimed₀)
  · intro t₁ t₂ label pc₁ pc₂ ind hat₁ hat₂ hclaimed₁ hclaimed₂
    by_cases h₁ : t₁ = t
    · by_cases h₂ : t₂ = t
      · exact h₁.trans h₂.symm
      · rw [h₁, hself] at hat₁
        rw [hother t₂ h₂] at hat₂
        exact absurd hclaimed₂ (hforeign h₂ hat₁ hat₂ hclaimed₁)
    · rw [hother t₁ h₁] at hat₁
      by_cases h₂ : t₂ = t
      · rw [h₂, hself] at hat₂
        exact absurd hclaimed₁ (hforeign h₁ hat₂ hat₁ hclaimed₂)
      · rw [hother t₂ h₂] at hat₂
        exact hinv.sole t₁ t₂ label pc₁ pc₂ ind hat₁ hat₂ hclaimed₁ hclaimed₂
  · intro t' hopen
    by_cases heq : t' = t
    · subst heq
      rw [hself] at hopen ⊢
      exact h.stamp hopen
    · rw [hother t' heq] at hopen ⊢
      obtain ⟨hused, hrange⟩ := hinv.stamp t' hopen
      exact ⟨h.used _ hused, hrange⟩

end InsertState.Inv

/-! ### Every step keeps the invariant -/

variable {pc : IngestPc} {r r' : Redo} {records rest rest' : List Redo}
  {progress : IngestProgress}

theorem TxnPc.ofRecords_start (h : TxnPc.ofRecords records = .ingesting r pc rest) :
    pc = r.start := by
  cases records <;> cases h
  rfl

/-- After an access the transaction is still at the same record, or begins the
next one. -/
theorem TxnPc.ofProgress_cases
    (h : TxnPc.ofProgress r rest progress = .ingesting r' pc rest') :
    r' = r ∧ progress = .running pc ∨ pc = r'.start := by
  cases progress with
  | running pc' =>
    cases h
    exact .inl ⟨rfl, rfl⟩
  | applied => exact .inr (ofRecords_start h)
  | failed e => cases h

/-- A step that leaves the vertex tables alone and begins at most a new record. -/
theorem Preserves.of_quiet {s s' : InsertState Tid} {t : Tid} {l : TxnLocal} (hinv : s.Inv)
    (hthreads : s'.threads = update s.threads t l)
    (hvertices : s'.graph.vertices = s.graph.vertices) (hused : ∀ ts ∈ s.used, ts ∈ s'.used)
    (hat : ∀ label pc, l.At label pc → pc = .checkCapacity)
    (hstamp : l.pc ≠ .closed → l.txn.timestamp ∈ s'.used ∧ 0 < l.txn.timestamp ∧
      l.txn.timestamp < kDeletedTimestamp) : Preserves s s' t l where
  threads := hthreads
  used := hused
  table := by rw [hvertices]; exact hinv.table
  grows := by rw [hvertices]; exact fun _ => .refl _
  indexed := by rw [hvertices]; exact fun _ _ h => .inl h
  own := by
    intro label pc h
    rw [hat label pc h]
    trivial
  claims := by
    intro label pc ind h hclaimed
    rw [hat label pc h] at hclaimed
    cases hclaimed
  stamp := hstamp

/-- Applying a record of edges leaves the vertex tables alone. -/
theorem ingestStep_insertEdge (policy : HashPolicy) (g : Graph) (ts : Nat) (label : EdgeLabel)
    (src dst : Value)
    (props : List Value) (pc : IngestPc) (spurious : Bool) :
    (ingestStep policy g ts (.insertEdge label src dst props) pc spurious).1.vertices =
      g.vertices := by
  unfold ingestStep
  simp only
  split
  · split <;> rfl
  · split <;> rfl
  · split <;> rfl

/-- The step of a committer inside a record of a vertex. -/
theorem InsertState.Inv.ingestVertex {s : InsertState Tid} {t : Tid} (hinv : s.Inv) {label : Nat}
    {oid : Value} {props : List Value} {vt : VertexTable}
    (hpc : (s.threads t).pc = .ingesting (.insertVertex label oid props) pc rest)
    (hmove : VertexMove policy (s.graph.vertices label) oid props (s.threads t).txn.timestamp pc
      vt progress) :
    Preserves s
      { s with
        graph := s.graph.setVertices label vt
        threads := update s.threads t
          ⟨(s.threads t).txn, .ofProgress (.insertVertex label oid props) rest progress⟩ } t
      ⟨(s.threads t).txn, .ofProgress (.insertVertex label oid props) rest progress⟩ := by
  have hstamp := hinv.stamp t (by rw [hpc]; nofun)
  have hAt : (s.threads t).At label pc := ⟨oid, props, rest, hpc⟩
  have hok := hinv.table label
  have hpcOk := hinv.pc t label pc hAt
  have hts := Nat.ne_of_lt hstamp.2.2
  refine {
    threads := rfl
    used := fun _ h => h
    table := (forall_update_iff _ fun _ => TableOk).mpr
      ⟨hmove.tableOk hok hpcOk hts, fun l _ => hinv.table l⟩
    grows := (forall_update_iff _ fun l => Grows (s.graph.vertices l)).mpr
      ⟨hmove.grows hok hpcOk hts, fun l _ => .refl _⟩
    indexed := (forall_update_iff _ fun l (vt : VertexTable) => ∀ lid, Indexed vt.indexer lid →
        Indexed (s.graph.vertices l).indexer lid ∨
          ∃ pc, (s.threads t).At l pc ∧ pc.claimed = some lid).mpr ⟨?_, fun l _ _ h => .inl h⟩
    own := ?_
    claims := ?_
    stamp := fun _ => hstamp }
  · intro lid hlid
    exact (hmove.indexed_cases hlid).imp_right fun hclaimed => ⟨pc, hAt, hclaimed⟩
  · rintro l p ⟨_, _, _, h⟩
    rcases TxnPc.ofProgress_cases h with ⟨hr, hrunning⟩ | rfl
    · cases hr
      rw [Graph.setVertices_self]
      rw [hrunning] at hmove
      exact hmove.pcOk hok hpcOk hts
    · trivial
  · rintro l p ind ⟨_, _, _, h⟩ hclaimed
    rcases TxnPc.ofProgress_cases h with ⟨hr, hrunning⟩ | rfl
    · cases hr
      rw [hrunning] at hmove
      exact (hmove.claimed_cases hclaimed).imp_left fun hold => ⟨pc, hAt, hold⟩
    · cases hclaimed

/-- A move changes nothing, or what the preservation rule allows. -/
theorem InsertMove.preserves {s s' : InsertState Tid} {t : Tid} {action : InsertAction}
    (hmove : InsertMove policy s t action s') (hinv : s.Inv) :
    s' = s ∨ ∃ l, Preserves s s' t l := by
  cases hmove with
  | rejected => exact .inl rfl
  | @begin ts hpc hfresh hpos hlt =>
    refine .inr ⟨⟨.start ts, .opened⟩,
      .of_quiet hinv rfl rfl (fun _ => mem_cons_of_mem _) ?_ fun _ => ⟨mem_cons_self, hpos, hlt⟩⟩
    rintro _ _ ⟨_, _, _, h⟩
    cases h
  | @buffer txn hpc hcont =>
    have hstamp := hinv.stamp t (by rw [hpc]; nofun)
    refine .inr ⟨⟨txn, .opened⟩, .of_quiet hinv rfl rfl (fun _ h => h) ?_ ?_⟩
    · rintro _ _ ⟨_, _, _, h⟩
      cases h
    · intro _
      rw [hcont.timestamp]
      exact hstamp
  | @finish outcome hpc =>
    refine .inr ⟨⟨(s.threads t).txn, .ended outcome⟩, .of_quiet hinv rfl rfl (fun _ h => h) ?_
      fun _ => hinv.stamp t (by rw [hpc]; nofun)⟩
    rintro _ _ ⟨_, _, _, h⟩
    cases h
  | append hpc =>
    refine .inr ⟨⟨(s.threads t).txn, .ofRecords (s.threads t).txn.arc⟩,
      .of_quiet hinv rfl rfl (fun _ h => h) ?_ fun _ => hinv.stamp t (by rw [hpc]; nofun)⟩
    rintro _ _ ⟨_, _, _, h⟩
    exact TxnPc.ofRecords_start h
  | @ingest r pc rest spurious _ hpc =>
    have hopen : (s.threads t).pc ≠ .closed := by rw [hpc]; nofun
    cases r with
    | insertVertex label oid props =>
      exact .inr ⟨_, hinv.ingestVertex hpc (vertexStep_move policy _ oid props
        (hinv.stamp_ne hopen).1 pc spurious)⟩
    | insertEdge label src dst props =>
      refine .inr ⟨_, .of_quiet hinv rfl
        (ingestStep_insertEdge policy _ _ label src dst props pc spurious) (fun _ h => h) ?_
        fun _ => hinv.stamp t hopen⟩
      rintro _ _ ⟨_, _, _, h⟩
      rcases TxnPc.ofProgress_cases h with ⟨hr, -⟩ | hstart
      · cases hr
      · exact hstart

namespace InsertState

structure Initial (s : InsertState Tid) : Prop where
  table : ∀ label, TableOk (s.graph.vertices label)
  closed : ∀ t, (s.threads t).pc = .closed

variable {s s' : InsertState Tid}

omit [DecidableEq Tid] in
theorem Inv.of_initial (h : s.Initial) : s.Inv := by
  have hnot : ∀ t label pc, ¬(s.threads t).At label pc := by
    rintro t label pc ⟨oid, props, rest, hpc⟩
    rw [h.closed t] at hpc
    cases hpc
  exact ⟨h.table, fun t label pc hat => absurd hat (hnot t label pc),
    fun t _ label pc _ _ hat => absurd hat (hnot t label pc),
    fun t hopen => absurd (h.closed t) hopen⟩

theorem Inv.step (hinv : s.Inv) (hstep : s.Step policy s') : s'.Inv := by
  obtain ⟨t, action, hnext⟩ := hstep
  rcases (next_move hnext).preserves hinv with rfl | ⟨l, hpreserves⟩
  · exact hinv
  · exact hinv.preserve hpreserves

theorem inv_of_undisturbed (hreach : Reachable Initial (UndisturbedStep policy) s) : s.Inv :=
  Reachable.invariant Inv (fun _ => Inv.of_initial)
    (fun _ _ _ hinv ⟨t, action, _, hnext⟩ => hinv.step ⟨t, action, hnext⟩) hreach

/-- Along a run every vertex table only grows. -/
theorem grows_of_run (hinv : s.Inv) (hrun : Relation.ReflTransGen (Step policy) s s')
    (label : Nat) : Grows (s.graph.vertices label) (s'.graph.vertices label) ∧ s'.Inv := by
  induction hrun with
  | refl => exact ⟨.refl _, hinv⟩
  | tail _ hlast ih =>
    obtain ⟨hgrows, hmid⟩ := ih
    refine ⟨hgrows.trans ?_, hmid.step hlast⟩
    obtain ⟨t, action, hnext⟩ := hlast
    rcases (next_move hnext).preserves hmid with rfl | ⟨l, hpreserves⟩
    · exact .refl _
    · exact hpreserves.grows label

/-- A step continues the buffer of every transaction that is open after it. -/
theorem continues_of_step (hstep : s.Step policy s') (t : Tid)
    (hopen : (s.threads t).pc ≠ .closed) :
    (s'.threads t).pc ≠ .closed ∧ ((s'.threads t).pc = .opened →
      (s.threads t).pc = .opened ∧ (s.threads t).txn.Continues (s'.threads t).txn) := by
  obtain ⟨t', action, hnext⟩ := hstep
  have hmove := next_move hnext
  by_cases heq : t = t'
  · subst heq
    cases hmove with
    | rejected => exact ⟨hopen, fun h => ⟨h, .refl _⟩⟩
    | begin hpc => exact absurd hpc hopen
    | buffer hpc hcont =>
      simp only [setThread, update_self]
      exact ⟨nofun, fun _ => ⟨hpc, hcont⟩⟩
    | finish => simp [setThread]
    | append =>
      simp only [update_self]
      cases (s.threads t).txn.arc <;> exact ⟨nofun, nofun⟩
    | @ingest r pc rest spurious _ hpc =>
      simp only [update_self]
      cases (ingestStep policy s.graph (s.threads t).txn.timestamp r pc spurious).2 with
      | running | failed => exact ⟨nofun, nofun⟩
      | applied => cases rest <;> exact ⟨nofun, nofun⟩
  · have hsame : s'.threads t = s.threads t := by
      cases hmove with
      | rejected => rfl
      | _ => exact update_of_ne heq _ _
    rw [hsame]
    exact ⟨hopen, fun h => ⟨h, .refl _⟩⟩

theorem continues_of_run {t : Tid} (hrun : Relation.ReflTransGen (Step policy) s s')
    (hopen : (s.threads t).pc = .opened) (hopen' : (s'.threads t).pc = .opened) :
    (s.threads t).txn.Continues (s'.threads t).txn := by
  suffices h : (s'.threads t).pc ≠ .closed ∧ ((s'.threads t).pc = .opened →
      (s.threads t).txn.Continues (s'.threads t).txn) from h.2 hopen'
  clear hopen'
  induction hrun with
  | refl => exact ⟨by rw [hopen]; nofun, fun _ => .refl _⟩
  | tail _ hlast ih =>
    obtain ⟨hnotClosed, hcont⟩ := continues_of_step hlast t ih.1
    refine ⟨hnotClosed, fun h => ?_⟩
    obtain ⟨hmid, hlastCont⟩ := hcont h
    exact (ih.2 hmid).trans hlastCont

end InsertState

end System

end Neug.Transaction
