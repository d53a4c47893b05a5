import Neug.Transaction.MvccInsertCommit
import Neug.Transaction.MvccInsertGuarantees

/-! # How a commit ends

A commit that has begun to apply its records has applied a first part of them
completely and is inside the next one; no other transaction touches what it has
written.  In runs in which every access finds what it needs and is not disturbed, a
transaction that has ended has therefore all its records in the graph and in the
log, or none in either.
-/

namespace Neug.Transaction

open Function List
open Storage Library InsertState

/-! ### One access of a committer -/

/-- A record of a vertex of the label was applied at the id. -/
def VertexAt (label lid : Nat) : Redo × Footprint → Prop
  | (.insertVertex label' _ _, .vertex lid') => label' = label ∧ lid' = lid
  | _ => False

section Access

variable (g : Graph) (ts : Nat) (pairs : List (Redo × Footprint))

/-- What the committer of a record has found and written so far, after it has
applied the records of `pairs`. -/
def SoFar (pc : IngestPc) : Redo → Prop
  | .insertVertex label oid props => VertexSoFar (g.vertices label) oid props pc ∧
      ∀ vid, pc.writesVertex = some vid → ∀ p ∈ pairs, ¬VertexAt label vid p
  | .insertEdge label src dst props => EdgeSoFar g ts label src dst props pairs pc

def PointOk (pc : IngestPc) : Redo → Prop
  | .insertVertex label _ _ => PcOk (g.vertices label) ts pc
  | .insertEdge label _ _ _ => pc.Placing → ∃ et, g.edges label = some et ∧ RowOk et ts pc.row

/-- What is to be shown of an access: the committer goes on as it should, or its
record has been applied at a place of its own. -/
def Advances (r : Redo) : IngestProgress → Prop
  | .running pc => SoFar g ts pairs pc r
  | .applied => ∃ f, Applied g ts r f ∧ ∀ p ∈ pairs, Apart g p (r, f)
  | .failed _ => False

end Access

theorem SoFar.start (g : Graph) (ts : Nat) (pairs : List (Redo × Footprint)) (r : Redo) :
    SoFar g ts pairs r.start r := by
  cases r with
  | insertVertex => exact ⟨trivial, nofun⟩
  | insertEdge => trivial

section Step

variable {policy : HashPolicy} {g : Graph} {ts : Nat} {pairs : List (Redo × Footprint)}
  {pc : IngestPc} {r : Redo} {spurious : Bool} {g' : Graph} {progress : IngestProgress}

theorem ingestStep_keeps (hstep : ingestStep policy g ts r pc spurious = (g', progress))
    (hok : ∀ label, TableOk (g.vertices label)) (hpoint : PointOk g ts pc r) (hpos : ts ≠ 0)
    (hts : ts ≠ kDeletedTimestamp) : Keeps g g' (r.WritesVertex pc) (r.WritesRow pc) := by
  obtain rfl : _ = g' := congrArg Prod.fst hstep
  cases r with
  | insertVertex label oid props =>
    have hmove := vertexStep_move policy (g.vertices label) oid props hpos pc spurious
    exact hmove.keepsGraph (hmove.grows (hok label) hpoint hts)
  | insertEdge label src dst props =>
    exact (ingestStep_link policy g ts label src dst props pc spurious).keepsGraph

/-- The committer begins to write the properties of a vertex when it has given it
its timestamp. -/
theorem VertexMove.writesVertex_cases {vt vt' : VertexTable} {oid : Value} {props : List Value}
    {pc' : IngestPc} {vid : Nat}
    (hmove : VertexMove policy vt oid props ts pc vt' (.running pc')) (hok : TableOk vt)
    (hpc : PcOk vt ts pc) (hts : ts ≠ kDeletedTimestamp) (h : pc'.writesVertex = some vid) :
    pc.writesVertex = some vid ∨ vt.vts.entry vid = none := by
  cases hmove with
  | @search _ pc' _ hsearching _ =>
    cases pc' with
    | checkCapacity | probe _ | claim => cases h
    | _ => exact absurd hsearching id
  | publish hpublish =>
    cases h
    exact .inr (publish_entry hok hpc hts hpublish).1
  | setProp => exact .inl h
  | _ => cases h

/-- An access that finds what it needs advances its commit. -/
theorem ingestStep_advances (hstep : ingestStep policy g ts r pc spurious = (g', progress))
    (h : SoFar g ts pairs pc r) (hready : Ready policy g ts spurious pc r)
    (hok : ∀ label, TableOk (g.vertices label))
    (hpoint : PointOk g ts pc r) (hpairs : ∀ p ∈ pairs, Applied g ts p.1 p.2)
    (hentries : ∀ label et, g.edges label = some et → EntriesClaimed et)
    (hpos : ts ≠ 0) (hts : ts ≠ kDeletedTimestamp) : Advances g' ts pairs r progress := by
  cases r with
  | insertVertex label oid props =>
    have hmove := vertexStep_move policy (g.vertices label) oid props hpos pc spurious
    have hnofail := vertexStep_ready policy (hok label) hpoint hready
    rw [ingestStep] at hstep
    generalize vertexStep policy (g.vertices label) oid props ts pc spurious = moved
      at hmove hnofail hstep
    obtain ⟨vt', progress'⟩ := moved
    cases hstep
    cases progress with
    | failed e => exact hnofail e rfl
    | running pc' =>
      have hself := Graph.setVertices_self g label vt'
      refine ⟨?_, ?_⟩
      · rw [hself]
        exact hmove.soFar h.1 hready
      · intro vid hvid p hp hat
        rcases hmove.writesVertex_cases (hok label) hpoint hts hvid with hold | hnone
        · exact h.2 vid hold p hp hat
        · -- an applied record has a timestamp at its id, the new id has none
          obtain ⟨r', f⟩ := p
          cases r' with
          | insertEdge => exact hat
          | insertVertex label' =>
            cases f with
            | edge => exact hat
            | vertex lid =>
              obtain ⟨rfl, rfl⟩ := hat
              have hentry := (hpairs _ hp).1
              rw [hnone] at hentry
              cases hentry
    | applied =>
      obtain ⟨vid, col, rfl, rfl, hentry, hkey, hholds⟩ := hmove.complete h.1 hpoint
      refine ⟨.vertex vid, ?_, ?_⟩
      · simp only [Applied, Graph.setVertices_self]
        exact ⟨hentry, hkey, hholds⟩
      · rintro ⟨r', f⟩ hp
        cases r' with
        | insertEdge => cases f <;> trivial
        | insertVertex label' =>
          cases f with
          | edge => trivial
          | vertex lid =>
            intro hlabel hlid
            exact h.2 vid rfl _ hp ⟨hlabel, hlid⟩
  | insertEdge label src dst props =>
    have hmove := ingestStep_link policy g ts label src dst props pc spurious
    have hnofail := ingestStep_ready_edge spurious hready
    rw [hstep] at hmove hnofail
    cases progress with
    | failed e => exact hnofail e rfl
    | running pc' => exact hmove.soFar h hok hpairs (hentries label) hts
    | applied => exact hmove.complete h hpairs hts hpoint

/-- The committer writes nothing at the places of its earlier records. -/
theorem SoFar.avoids (h : SoFar g ts pairs pc r) {p : Redo × Footprint} (hp : p ∈ pairs) :
    Avoids g (r.WritesVertex pc) (r.WritesRow pc) p.1 p.2 := by
  obtain ⟨r', f⟩ := p
  cases r' with
  | insertVertex label oid props =>
    cases f with
    | edge => trivial
    | vertex lid =>
      rintro ⟨⟨oid', props', rfl⟩, hlid⟩
      exact h.2 lid hlid _ hp ⟨rfl, rfl⟩
  | insertEdge label src dst props =>
    cases f with
    | vertex => trivial
    | edge s d outSlot inSlot row =>
      rintro et het hstores row' rfl ⟨⟨src', dst', props', rfl⟩, hrow⟩
      cases pc with
      | setEdgeProp row col =>
        cases hrow
        obtain ⟨_, _, _, _, -, -, et₀, het₀, hfresh, -⟩ := h
        cases het.symm.trans het₀
        exact hfresh hstores _ rfl _ hp ⟨rfl, rfl⟩
      | _ => cases hrow

/-! ### Accesses of other committers -/

/-- A committer writes nothing at the places of another transaction. -/
theorem PointOk.avoids (h : PointOk g ts pc r) {ts' : Nat} (hne : ts' ≠ ts)
    {p : Redo × Footprint} (hp : Applied g ts' p.1 p.2) :
    Avoids g (r.WritesVertex pc) (r.WritesRow pc) p.1 p.2 := by
  obtain ⟨r', f⟩ := p
  cases r' with
  | insertVertex label oid props =>
    cases f with
    | edge => trivial
    | vertex lid =>
      rintro ⟨⟨oid', props', rfl⟩, hlid⟩
      cases pc with
      | setProp vid col =>
        cases hlid
        exact hne (Option.some.inj (hp.1.symm.trans h.2))
      | _ => cases hlid
  | insertEdge label src dst props =>
    cases f with
    | vertex => trivial
    | edge s d outSlot inSlot row =>
      rintro et het hstores row' rfl ⟨⟨src', dst', props', rfl⟩, hrow⟩
      cases pc with
      | setEdgeProp row col =>
        cases hrow
        obtain ⟨et₀, het₀, -, -, howner⟩ := h trivial
        cases het.symm.trans het₀
        obtain ⟨nbr, hnbr, hdata, hstamp⟩ := (hp.edgeAt het).2.2 _ ⟨rfl, rfl⟩ hstores
        exact hne (hstamp.symm.trans (howner nbr hnbr hdata))
      | _ => cases hrow

/-- No trace of a timestamp in the graph or in the log. -/
structure Untouched (g : Graph) (wal : List (Nat × List Redo)) (ts : Nat) : Prop where
  entry : ∀ label lid, (g.vertices label).vts.entry lid ≠ some ts
  nbr : ∀ label et nbr, g.edges label = some et → HasNbr et nbr → nbr.timestamp ≠ ts
  wal : ∀ records, (ts, records) ∉ wal

/-- A committer leaves no trace of another timestamp. -/
theorem Untouched.ingestStep {wal : List (Nat × List Redo)} {ts' : Nat}
    (h : Untouched g wal ts') (hstep : ingestStep policy g ts r pc spurious = (g', progress))
    (hne : ts' ≠ ts) (hok : ∀ label, TableOk (g.vertices label)) (hpoint : PointOk g ts pc r)
    (hpos : ts ≠ 0) (hts : ts ≠ kDeletedTimestamp) : Untouched g' wal ts' := by
  cases r with
  | insertVertex label oid props =>
    have hmove := vertexStep_move policy (g.vertices label) oid props hpos pc spurious
    obtain ⟨rfl, -⟩ := Prod.mk.inj hstep
    refine ⟨?_, h.nbr, h.wal⟩
    intro label' lid hentry
    by_cases heq : label' = label
    · subst heq
      rw [Graph.setVertices_self] at hentry
      rcases hmove.entry_cases (hok label') hpoint hts hentry with hold | ⟨-, heq⟩
      · exact h.entry label' lid hold
      · exact hne heq
    · rw [Graph.setVertices_of_ne _ heq] at hentry
      exact h.entry label' lid hentry
  | insertEdge label src dst props =>
    have hmove := ingestStep_link policy g ts label src dst props pc spurious
    simp only [hstep] at hmove
    cases hmove with
    | fail | foundSrc | foundDst => exact h
    | @table _ et et' _ het hmove =>
      refine ⟨h.entry, ?_, h.wal⟩
      intro label' et₁ nbr het₁ hnbr
      by_cases heq : label' = label
      · subst heq
        rw [Graph.setEdges_self] at het₁
        cases het₁
        rcases hmove.hasNbr hnbr with hold | ⟨hstamp, -⟩
        · exact h.nbr label' et nbr het hold
        · exact fun hts' => hne (hts'.symm.trans hstamp)
      · rw [Graph.setEdges_of_ne _ heq] at het₁
        exact h.nbr label' et₁ nbr het₁ hnbr

end Step

/-! ### Transactions along a run -/

/-- All records of the transaction are in the graph, each at a place of its own,
and in the log. -/
structure AllIn (g : Graph) (wal : List (Nat × List Redo)) (txn : InsertTxn) : Prop where
  written : ∃ places, Written g txn.timestamp txn.arc places
  logged : txn.arc ≠ [] → (txn.timestamp, txn.arc) ∈ wal

/-- What is known of a transaction at each of its points. -/
def Tracked (g : Graph) (wal : List (Nat × List Redo)) (l : TxnLocal) : Prop :=
  match l.pc with
  | .closed => True
  | .opened => Untouched g wal l.txn.timestamp
  | .ingesting r pc rest => (l.txn.timestamp, l.txn.arc) ∈ wal ∧
      ∃ done places, l.txn.arc = done ++ r :: rest ∧ Written g l.txn.timestamp done places ∧
        SoFar g l.txn.timestamp (done.zip places) pc r
  | .ended .committed => AllIn g wal l.txn
  | .ended (.threw _) => False
  | .ended .refused | .ended .aborted => Untouched g wal l.txn.timestamp

section

variable {g : Graph} {ts : Nat} {records : List Redo} {places : List Footprint}
  (h : Written g ts records places)
include h

theorem Written.pairs : ∀ p ∈ records.zip places, Applied g ts p.1 p.2 :=
  fun _ hp => forall₂_zip h.applied hp

/-- One more record applied at a place of its own. -/
theorem Written.snoc {r : Redo} {f : Footprint} (happlied : Applied g ts r f)
    (hapart : ∀ p ∈ records.zip places, Apart g p (r, f)) :
    Written g ts (records ++ [r]) (places ++ [f]) := by
  refine ⟨rel_append h.applied (.cons happlied .nil), ?_⟩
  rw [zip_append h.applied.length_eq]
  refine pairwise_append.mpr ⟨h.apart, pairwise_singleton _ _, ?_⟩
  intro p hp q hq
  cases mem_singleton.mp hq
  exact hapart p hp

end

/-- The id of a committer is in the index, or claimed by it. -/
theorem PcOk.target_cases {vt : VertexTable} {ts vid : Nat} {pc : IngestPc}
    (h : PcOk vt ts pc) (htarget : pc.target = some vid) :
    pc.claimed = some vid ∨ Indexed vt.indexer vid := by
  cases pc with
  | setKey _ | publishIndex _ _ => exact .inl htarget
  | checkValid _ | materialize _ =>
    cases htarget
    exact .inr h
  | publishTs _ | setProp _ _ =>
    cases htarget
    exact .inr h.1
  | _ => cases htarget

section System

variable {Tid : Type*} {policy : HashPolicy} {s : InsertState Tid}

theorem InsertState.pointOk (hinv : s.Inv) (howned : s.Owned) {t : Tid} {r : Redo}
    {pc : IngestPc} {rest : List Redo} (hpc : (s.threads t).pc = .ingesting r pc rest) :
    PointOk s.graph (s.threads t).txn.timestamp pc r := by
  cases r with
  | insertVertex label oid props => exact hinv.pc t label pc ⟨oid, props, rest, hpc⟩
  | insertEdge label src dst props =>
    exact howned.row t label pc ⟨src, dst, props, rest, hpc⟩

/-- What is known of a transaction that was begun depends on what it finds of itself in the
graph and in the log. -/
theorem Tracked.preserve {g g' : Graph} {wal wal' : List (Nat × List Redo)} {l : TxnLocal}
    (h : Tracked g wal l) (hwal : wal ⊆ wal')
    (huntouched : l.pc ≠ .closed → Untouched g wal l.txn.timestamp →
      Untouched g' wal' l.txn.timestamp)
    (hwritten : l.pc ≠ .closed → ∀ {records places}, Written g l.txn.timestamp records places →
      Written g' l.txn.timestamp records places)
    (hsofar : ∀ {r pc rest pairs}, l.pc = .ingesting r pc rest →
      SoFar g l.txn.timestamp pairs pc r → SoFar g' l.txn.timestamp pairs pc r) :
    Tracked g' wal' l := by
  unfold Tracked at h ⊢
  cases hpc : l.pc with
  | closed => trivial
  | opened =>
    rw [hpc] at h huntouched
    exact huntouched nofun h
  | ingesting r pc rest =>
    rw [hpc] at h hwritten
    obtain ⟨hlogged, done, places, harc, hw, hs⟩ := h
    exact ⟨hwal hlogged, done, places, harc, hwritten nofun hw, hsofar hpc hs⟩
  | ended outcome =>
    rw [hpc] at h hwritten huntouched
    cases outcome with
    | committed =>
      obtain ⟨places, hw⟩ := h.written
      exact ⟨⟨places, hwritten nofun hw⟩, fun hne => hwal (h.logged hne)⟩
    | refused | aborted => exact huntouched nofun h
    | threw e => exact h

/-- The log of other transactions does not matter to a transaction. -/
theorem Tracked.append {g : Graph} {wal : List (Nat × List Redo)} {l : TxnLocal}
    (h : Tracked g wal l) {ts : Nat} (records : List Redo)
    (hne : l.pc ≠ .closed → l.txn.timestamp ≠ ts) : Tracked g (wal ++ [(ts, records)]) l := by
  refine h.preserve (subset_append_left _ _) (fun hopen hu => ⟨hu.entry, hu.nbr, ?_⟩)
    (fun _ _ _ hw => hw) fun _ hs => hs
  intro records' hmem
  rcases mem_append.mp hmem with hold | hnew
  · exact hu.wal records' hold
  · exact hne hopen (congrArg Prod.fst (mem_singleton.mp hnew))

section Access

variable {t t' : Tid} {r r' : Redo} {pc pc' : IngestPc} {rest rest' : List Redo}
  {pairs : List (Redo × Footprint)} {spurious : Bool} {g' : Graph} {progress : IngestProgress}
  (hinv : s.Inv) (howned : s.Owned) (hne : t' ≠ t)
  (hpc : (s.threads t).pc = .ingesting r pc rest)
  (hstep : ingestStep policy s.graph (s.threads t).txn.timestamp r pc spurious = (g', progress))
include hinv howned hpc hstep

theorem InsertState.ingest_keeps :
    Keeps s.graph g' (r.WritesVertex pc) (r.WritesRow pc) := by
  obtain ⟨hpos, hts⟩ := hinv.stamp_ne (by rw [hpc]; nofun)
  exact ingestStep_keeps hstep hinv.table (pointOk hinv howned hpc) hpos hts

theorem Tracked.own (hready : Ready policy s.graph (s.threads t).txn.timestamp spurious pc r)
    (h : Tracked s.graph s.wal (s.threads t)) :
    Tracked g' s.wal ⟨(s.threads t).txn, .ofProgress r rest progress⟩ := by
  obtain ⟨hpos, hts⟩ := hinv.stamp_ne (by rw [hpc]; nofun)
  unfold Tracked at h
  rw [hpc] at h
  obtain ⟨hlogged, done, places, harc, hw, hsofar⟩ := h
  have hadvances := ingestStep_advances hstep hsofar hready hinv.table (pointOk hinv howned hpc)
    hw.pairs howned.claimed hpos hts
  have hwritten := hw.keeps (ingest_keeps hinv howned hpc hstep) hinv.table hts
    fun p hp => hsofar.avoids hp
  cases progress with
  | failed e => exact absurd hadvances id
  | running pc' => exact ⟨hlogged, done, places, harc, hwritten, hadvances⟩
  | applied =>
    obtain ⟨f, happlied, hapart⟩ := hadvances
    have hsnoc := hwritten.snoc happlied hapart
    cases rest with
    | nil => exact ⟨⟨_, by rw [harc]; exact hsnoc⟩, fun _ => hlogged⟩
    | cons r' rest' =>
      exact ⟨hlogged, done ++ [r], places ++ [f], by rw [harc, append_assoc]; rfl,
        hsnoc, .start _ _ _ _⟩

include hne

/-- The key at which a committer works is not changed by another one. -/
theorem InsertState.getKey_foreign {label vid : Nat}
    (hat : (s.threads t').At label pc') (htarget : pc'.target = some vid) :
    (g'.vertices label).indexer.getKey vid = (s.graph.vertices label).indexer.getKey vid := by
  rcases (hinv.pc t' label pc' hat).target_cases htarget with hclaimed | hindexed
  · obtain rfl : _ = g' := congrArg Prod.fst hstep
    cases r with
    | insertEdge label' src dst props => rw [ingestStep_insertEdge]
    | insertVertex label' oid props =>
      have hmove := vertexStep_move policy (s.graph.vertices label') oid props
        (hinv.stamp_ne (by rw [hpc]; nofun)).1 pc spurious
      change ((s.graph.setVertices label' _).vertices label).indexer.getKey vid = _
      by_cases heq : label = label'
      · subst heq
        rw [Graph.setVertices_self]
        apply hmove.getKey_eq
        intro hown
        exact hne (hinv.sole t' t label pc' pc vid hat ⟨oid, props, rest, hpc⟩ hclaimed hown)
      · rw [Graph.setVertices_of_ne _ heq]
  · exact ((ingest_keeps hinv howned hpc hstep).grows label).getKey vid hindexed

/-- What a committer has written so far is not changed by another one. -/
theorem InsertState.soFar_foreign (hpc' : (s.threads t').pc = .ingesting r' pc' rest')
    (h : SoFar s.graph (s.threads t').txn.timestamp pairs pc' r') :
    SoFar g' (s.threads t').txn.timestamp pairs pc' r' := by
  have hopen : (s.threads t).pc ≠ .closed := by rw [hpc]; nofun
  have hopen' : (s.threads t').pc ≠ .closed := by rw [hpc']; nofun
  have hpoint := pointOk hinv howned hpc
  have hkeeps := ingest_keeps hinv howned hpc hstep
  cases r' with
  | insertVertex label oid props =>
    have hat : (s.threads t').At label pc' := ⟨oid, props, rest', hpc'⟩
    refine ⟨h.1.keeps (hkeeps.grows label) ?_ ?_, h.2⟩
    · intro vid htarget
      exact getKey_foreign hinv howned hne hpc hstep hat htarget
    · -- both would have given the vertex their timestamp
      intro vid hvid
      refine hkeeps.cells label vid ?_
      rintro ⟨⟨oid', props', rfl⟩, hvid'⟩
      have hown := hinv.pc t' label pc' hat
      cases pc' with
      | setProp _ _ =>
        cases hvid
        cases pc with
        | setProp _ _ =>
          cases hvid'
          exact howned.stamps t' t hne hopen' hopen
            (Option.some.inj (hown.2.symm.trans hpoint.2))
        | _ => cases hvid'
      | _ => cases hvid
  | insertEdge label src dst props =>
    refine h.keeps hkeeps hinv.table (hinv.stamp_ne hopen').2 ?_
    rintro row hrow ⟨⟨src', dst', props', rfl⟩, hwrites⟩
    have hrow' : pc.row = some row := by
      cases pc with
      | setEdgeProp _ _ => exact hwrites
      | _ => cases hwrites
    exact hne (howned.row_sole t' t label pc' pc row ⟨src, dst, props, rest', hpc'⟩
      ⟨src', dst', props', rest, hpc⟩ hrow hrow')

/-- What is known of a transaction is not changed by another one's access. -/
theorem Tracked.foreign (h : Tracked s.graph s.wal (s.threads t')) :
    Tracked g' s.wal (s.threads t') := by
  have hopen : (s.threads t).pc ≠ .closed := by rw [hpc]; nofun
  obtain ⟨hpos, hts⟩ := hinv.stamp_ne hopen
  have hpoint := pointOk hinv howned hpc
  have hstamp := fun hopen' => howned.stamps t' t hne hopen' hopen
  refine h.preserve (fun _ h => h) (fun hopen' hu => ?_) (fun hopen' records places hw => ?_)
    fun hpc' => soFar_foreign hinv howned hne hpc hstep hpc'
  · exact hu.ingestStep hstep (hstamp hopen') hinv.table hpoint hpos hts
  · exact hw.keeps (ingest_keeps hinv howned hpc hstep) hinv.table (hinv.stamp_ne hopen').2
      fun p hp => hpoint.avoids (hstamp hopen') (hw.pairs p hp)

end Access

variable [DecidableEq Tid]

/-- The access, if the action is one, finds what it needs. -/
def InsertState.ReadyFor (policy : HashPolicy) (s : InsertState Tid) (t : Tid)
    (action : InsertAction) : Prop :=
  match (s.threads t).pc, action with
  | .ingesting r pc _, .ingest spurious =>
    Ready policy s.graph (s.threads t).txn.timestamp spurious pc r
  | _, _ => True

omit [DecidableEq Tid] in
instance (policy : HashPolicy) (s : InsertState Tid) (t : Tid) (action : InsertAction) :
    Decidable (s.ReadyFor policy t action) := by
  unfold InsertState.ReadyFor
  split <;> infer_instance

/-- A step of a transaction whose access, if it is one, finds what it needs and is not disturbed. -/
def InsertState.ReadyStep (policy : HashPolicy) (s s' : InsertState Tid) : Prop :=
  ∃ t action, (s.ReadyFor policy t action ∧ s.Undisturbed t) ∧ s.next policy t action = some s'

/-- What holds in every state of a run in which every access finds what it needs. -/
structure InsertState.AllTracked (s : InsertState Tid) : Prop where
  inv : s.Inv
  owned : s.Owned
  tracked : ∀ t, Tracked s.graph s.wal (s.threads t)

namespace InsertState.AllTracked

omit [DecidableEq Tid] in
theorem of_accounted (h : s.Accounted) : s.AllTracked := by
  refine ⟨.of_initial h.initial, .of_accounted h, ?_⟩
  intro t
  unfold Tracked
  rw [h.initial.closed t]
  trivial

variable {s' : InsertState Tid} {t : Tid}

/-- A step of one transaction. -/
theorem of_update {l : TxnLocal} (hinv : s'.Inv) (howned : s'.Owned)
    (hthreads : s'.threads = update s.threads t l) (hown : Tracked s'.graph s'.wal l)
    (hothers : ∀ t', t' ≠ t → Tracked s'.graph s'.wal (s.threads t')) : s'.AllTracked := by
  refine ⟨hinv, howned, ?_⟩
  rw [hthreads]
  exact (forall_update_iff _ fun _ => Tracked s'.graph s'.wal).mpr ⟨hown, hothers⟩

section

variable (h : s.AllTracked)
include h

omit [DecidableEq Tid] in
/-- A timestamp that was never handed out has left no trace. -/
theorem untouched_fresh {ts : Nat} (hfresh : ts ∉ s.used) (hpos : 0 < ts)
    (hlt : ts < kDeletedTimestamp) : Untouched s.graph s.wal ts := by
  have hrec := h.owned.recorded
  refine ⟨?_, ?_, ?_⟩
  · intro label lid he
    rcases hrec.entry label lid ts he with hzero | hused
    · exact Nat.ne_of_gt hpos hzero
    · exact hfresh hused
  · intro label et nbr het hnbr hts
    rcases hrec.nbr label et nbr het hnbr with hzero | hdeleted | hused
    · exact Nat.ne_of_gt hpos (hts.symm.trans hzero)
    · exact Nat.ne_of_lt hlt (hts.symm.trans hdeleted)
    · exact hfresh (hts ▸ hused)
  · intro records hmem
    exact hfresh (hrec.wal ts records hmem)

omit [DecidableEq Tid] in
theorem untouched_opened (hpc : (s.threads t).pc = .opened) :
    Untouched s.graph s.wal (s.threads t).txn.timestamp := by
  have htracked := h.tracked t
  unfold Tracked at htracked
  rwa [hpc] at htracked

theorem step (hstep : s.ReadyStep policy s') : s'.AllTracked := by
  obtain ⟨t, action, ⟨hready, -⟩, hnext⟩ := hstep
  have hinv : s'.Inv := h.inv.step ⟨t, action, hnext⟩
  have howned : s'.Owned := h.owned.step h.inv ⟨t, action, hnext⟩
  cases next_move hnext with
  | rejected => exact h
  | begin hpc hfresh hpos hlt =>
    exact of_update hinv howned rfl (h.untouched_fresh hfresh hpos hlt) fun t' _ => h.tracked t'
  | buffer hpc hcont =>
    refine of_update hinv howned rfl ?_ fun t' _ => h.tracked t'
    change Untouched _ _ _
    rw [hcont.timestamp]
    exact h.untouched_opened hpc
  | @finish outcome hpc hempty hquiet =>
    refine of_update hinv howned rfl ?_ fun t' _ => h.tracked t'
    cases outcome with
    | committed =>
      have harc := hempty rfl
      exact ⟨⟨[], by rw [harc]; exact ⟨.nil, .nil⟩⟩, fun hne => absurd harc hne⟩
    | refused | aborted => exact h.untouched_opened hpc
    | threw e => exact absurd rfl (hquiet e)
  | append hpc hne =>
    refine of_update hinv howned rfl ?_ fun t' heq => ?_
    · unfold Tracked
      cases harc : (s.threads t).txn.arc with
      | nil => exact absurd harc hne
      | cons r rest =>
        exact ⟨mem_append_right _ mem_cons_self, [], [], rfl, ⟨.nil, .nil⟩, .start _ _ _ _⟩
    · refine (h.tracked t').append _ fun hopen => ?_
      exact h.owned.stamps t' t heq hopen (by rw [hpc]; nofun)
  | @ingest r pc rest spurious haction hpc =>
    subst haction
    unfold InsertState.ReadyFor at hready
    rw [hpc] at hready
    exact of_update hinv howned rfl (.own h.inv h.owned hpc rfl hready (h.tracked t)) fun t' hne =>
      .foreign h.inv h.owned hne hpc rfl (h.tracked t')

end

end InsertState.AllTracked

theorem InsertState.allTracked_of_reachable
    (hreach : Reachable Accounted (ReadyStep policy) s) : s.AllTracked :=
  Reachable.invariant AllTracked (fun _ => .of_accounted) (fun _ _ _ h => h.step) hreach

/-- In runs in which every access finds what it needs and is not disturbed, a
transaction that has ended has committed with all its records in the graph and in
the log, or was refused or aborted and has left no trace in either. -/
theorem InsertState.commit_all_or_nothing (hreach : Reachable Accounted (ReadyStep policy) s)
    {t : Tid} {outcome : Outcome} (hended : (s.threads t).pc = .ended outcome) :
    outcome = .committed ∧ AllIn s.graph s.wal (s.threads t).txn ∨
      (outcome = .refused ∨ outcome = .aborted) ∧
        Untouched s.graph s.wal (s.threads t).txn.timestamp := by
  have htracked := (allTracked_of_reachable hreach).tracked t
  unfold Tracked at htracked
  rw [hended] at htracked
  cases outcome with
  | committed => exact .inl ⟨rfl, htracked⟩
  | refused => exact .inr ⟨.inl rfl, htracked⟩
  | aborted => exact .inr ⟨.inr rfl, htracked⟩
  | threw e => exact absurd htracked id

/-- Whatever transactions commit, as long as their writes are not disturbed, a vertex that is
visible keeps its id and its object id and stays visible. -/
theorem InsertState.valid_of_run {s' : InsertState Tid} {label lid ts : Nat} {oid : Value}
    (hreach : Reachable Initial (UndisturbedStep policy) s)
    (hrun : Relation.ReflTransGen (UndisturbedStep policy) s s')
    (hvalid : (s.graph.vertices label).Valid lid oid ts) :
    (s'.graph.vertices label).Valid lid oid ts := by
  have hinv := inv_of_undisturbed hreach
  exact (grows_of_run hinv (steps_of_undisturbed hrun) label).1.valid (hinv.table label) hvalid

/-- The first transaction commits a vertex; the second one adds another and commits it as well. -/
theorem InsertState.valid_of_run_committed : ∃ s : InsertState (Fin 2),
    (s.graph.vertices 0).Valid 1 (.fixed .int64 10) 2 ∧
      (s.graph.vertices 0).Valid 0 (.fixed .int64 7) 1 := by
  obtain ⟨s, hs, hvalid, hnext⟩ := exists_of_play firstSlot
    (fun s t _ => decide (s.Undisturbed t)) (emptyState (Fin 2)) (secondOpens ++ firstCommits)
    (fun s => (s.graph.vertices 0).Valid 0 (.fixed .int64 7) 1 ∧
      (s.play firstSlot (fun s t _ => decide (s.Undisturbed t))
        ((1, .commit true) :: replicate 9 (1, .ingest false))).any
        (fun s' => (s'.graph.vertices 0).Valid 1 (.fixed .int64 10) 2) = true)
    (by decide +kernel)
  obtain ⟨s', hs', hlater⟩ := exists_of_play _ _ _ _ _ hnext
  exact ⟨s', hlater, valid_of_run ⟨_, emptyState_loaded.initial, undisturbed_of_play hs⟩
    (undisturbed_of_play hs') hvalid⟩

end System

def linkTable : EdgeTable where
  properties := [.fixed .int64, .fixed .int64]
  outCsr := ⟨.mutable, 4, fun _ => []⟩
  inCsr := ⟨.mutable, 4, fun _ => []⟩
  table := replicate 2 ⟨.fixed .int64, 4, 0, 0, fun _ => .fixed .int64 0⟩
  tableIdx := 0
  capacity := 4

def unlinkedState (Tid : Type*) : InsertState Tid :=
  { emptyState Tid with
    graph := { (emptyState Tid).graph with edges := fun _ => some linkTable } }

theorem unlinkedState_accounted (Tid : Type*) : (unlinkedState Tid).Accounted := by
  have hnone : ∀ nbr, ¬HasNbr linkTable nbr := by
    rintro nbr ⟨v, hout | hin⟩
    · cases hout
    · cases hin
  refine ⟨⟨(@emptyState_loaded Tid).initial.table, fun _ => rfl⟩, ⟨?_, ?_, nofun⟩, ?_⟩
  · intro label lid e he
    rw [show ((unlinkedState Tid).graph.vertices label).vts.entry lid = none from
      smallTable_entry _ _ lid] at he
    cases he
  · rintro label et nbr ⟨rfl⟩ hnbr
    exact absurd hnbr (hnone nbr)
  · rintro label et ⟨rfl⟩ - nbr hnbr
    exact absurd hnbr (hnone nbr)

/-- The first transaction adds two vertices and an edge between them and commits;
the log refuses the second one meanwhile. -/
def linksAndRefused : List (Fin 2 × InsertAction) :=
  [(0, .begin 1), (1, .begin 2), (0, .addVertex 0 (.fixed .int64 7) []),
    (0, .addVertex 0 (.fixed .int64 8) []),
    (0, .addEdge ⟨0, 0, 0⟩ 0 1 [.fixed .int64 5, .fixed .int64 6]),
    (1, .addVertex 0 (.fixed .int64 9) []), (0, .commit true)] ++
  replicate 12 (0, .ingest false) ++ [(1, .commit false)] ++
  replicate 14 (0, .ingest false)

/-- The first transaction is in the graph and in the log with all it buffered, the
second one with nothing. -/
theorem InsertState.commit_all_or_nothing_linked : ∃ s : InsertState (Fin 2),
      (s.threads 0).txn.arc.length = 3 ∧ AllIn s.graph s.wal (s.threads 0).txn ∧
      (s.threads 1).txn.arc.length = 1 ∧ Untouched s.graph s.wal (s.threads 1).txn.timestamp := by
  obtain ⟨s, hs, hfirst, hsecond, harc, harc'⟩ := exists_of_play firstSlot
    (fun s t action => decide (s.ReadyFor firstSlot t action ∧ s.Undisturbed t))
    (unlinkedState (Fin 2)) linksAndRefused
    (fun s => (s.threads 0).pc = .ended .committed ∧ (s.threads 1).pc = .ended .refused ∧
      (s.threads 0).txn.arc.length = 3 ∧ (s.threads 1).txn.arc.length = 1)
    (by decide +kernel)
  have hrun := run_of_play (fun _ => True) (fun _ _ _ _ => trivial)
    (fun s t action => s.ReadyFor firstSlot t action ∧ s.Undisturbed t)
    (fun _ _ _ _ h => of_decide_eq_true h) trivial hs
  have hreach : Reachable InsertState.Accounted (InsertState.ReadyStep firstSlot) s :=
    ⟨_, unlinkedState_accounted (Fin 2), hrun⟩
  have hcommitted := commit_all_or_nothing hreach hfirst
  have hrefused := commit_all_or_nothing hreach hsecond
  refine ⟨s, harc, ?_, harc', ?_⟩
  · exact (hcommitted.resolve_right (by rintro ⟨h | h, -⟩ <;> cases h)).2
  · exact (hrefused.resolve_left (by rintro ⟨h, -⟩; cases h)).2

/-- Both transactions add key 7; the second one adds key 8 before it and commits
after the first one. -/
def secondCommitsLate : List (Fin 2 × InsertAction) :=
  [(0, .begin 1), (1, .begin 2), (0, .addVertex 0 (.fixed .int64 7) []),
    (1, .addVertex 0 (.fixed .int64 8) []), (1, .addVertex 0 (.fixed .int64 7) []),
    (0, .commit true)] ++ replicate 8 (0, .ingest false) ++ [(1, .commit true)] ++
  replicate 13 (1, .ingest false)

/-- The second transaction has put key 8 into the graph and both keys into the
log, and is then rejected because key 7 exists. -/
theorem InsertState.commit_applies_half :
    ∃ s : InsertState (Fin 2), Reachable Accounted (Step firstSlot) s ∧
      (s.threads 1).pc = .ended (.threw (.vertex (.alreadyExists 0))) ∧
      ¬AllIn s.graph s.wal (s.threads 1).txn ∧ (s.graph.vertices 0).Valid 1 (.fixed .int64 8) 2 ∧
      ((s.threads 1).txn.timestamp, (s.threads 1).txn.arc) ∈ s.wal := by
  obtain ⟨s, hs, hended, hts, harc, hvertex, hwal, hmax, hseven⟩ := exists_of_play
    firstSlot (fun _ _ _ => true) (unlinkedState (Fin 2)) secondCommitsLate
    (fun s => (s.threads 1).pc = .ended (.threw (.vertex (.alreadyExists 0))) ∧
      (s.threads 1).txn.timestamp = 2 ∧
      (s.threads 1).txn.arc = [.insertVertex 0 (.fixed .int64 8) [],
        .insertVertex 0 (.fixed .int64 7) []] ∧
      (s.graph.vertices 0).Valid 1 (.fixed .int64 8) 2 ∧
      ((s.threads 1).txn.timestamp, (s.threads 1).txn.arc) ∈ s.wal ∧
      (s.graph.vertices 0).vts.maxVertexNum = 4 ∧
      ∀ lid ∈ range 4, (s.graph.vertices 0).vts.entry lid = some 2 →
        (s.graph.vertices 0).indexer.getKey lid ≠ .fixed .int64 7)
    (by decide +kernel)
  refine ⟨s, ⟨_, unlinkedState_accounted (Fin 2), steps_of_play hs⟩, hended, ?_,
    hvertex, hwal⟩
  rintro ⟨⟨places, hwritten⟩, -⟩
  have happlied := hwritten.applied
  rw [hts, harc] at happlied
  obtain - | ⟨-, hrest⟩ := happlied
  obtain - | @⟨_, f, _, _, hseventh, -⟩ := hrest
  cases f with
  | edge => exact hseventh
  | vertex lid =>
    obtain ⟨hentry, hkey, -⟩ := hseventh
    refine hseven lid ?_ hentry hkey
    -- only ids below the size of the timestamp array have one
    rw [mem_range, ← hmax]
    by_contra hge
    rw [VertexTimestamp.entry, if_pos (Nat.le_of_not_lt hge)] at hentry
    cases hentry

end Neug.Transaction
