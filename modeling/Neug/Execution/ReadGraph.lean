import Neug.Library.Walks
import Neug.Storage.GraphView

/-! # The graph as query operators read it

Operators see the edges that are visible at their read timestamp, through an outgoing and
an incoming adjacency list for each edge triplet and vertex.  A path records its start
vertex and, for each step, the edge label, the direction in which the edge was walked, the
address of the edge's data and the vertex reached.
-/

namespace Neug.Execution

open Storage (EdgeLabel)
open Library List

inductive Direction where
  | kOut
  | kIn
  | kBoth
  deriving DecidableEq, Repr

structure VertexRecord where
  label : Nat
  vid : Nat
  deriving DecidableEq, Repr

/-- An edge.  `data` stands for the address of its properties and tells parallel edges
apart. -/
structure Edge where
  label : EdgeLabel
  src : Nat
  dst : Nat
  data : Nat
  deriving DecidableEq, Repr

structure Nbr where
  neighbor : Nat
  timestamp : Nat
  data : Nat
  deriving DecidableEq, Repr

/-- The edges visible at `readTs` and the adjacency lists that hold them.  A list may hold
entries that are not visible. -/
structure ReadGraph where
  triplets : List EdgeLabel
  edges : List Edge
  readTs : Nat
  outAdj : EdgeLabel → Nat → List Nbr
  inAdj : EdgeLabel → Nat → List Nbr
  nodup_edges : edges.Nodup
  label_mem : ∀ e ∈ edges, e.label ∈ triplets
  out_perm : ∀ t v,
    (((outAdj t v).filter (·.timestamp ≤ readTs)).map fun n => (n.neighbor, n.data)).Perm
      ((edges.filter fun e => e.label = t ∧ e.src = v).map fun e => (e.dst, e.data))
  in_perm : ∀ t v,
    (((inAdj t v).filter (·.timestamp ≤ readTs)).map fun n => (n.neighbor, n.data)).Perm
      ((edges.filter fun e => e.label = t ∧ e.dst = v).map fun e => (e.src, e.data))

/-- The graph of a list of edges, with the adjacency lists in the order of the list. -/
def ReadGraph.ofEdges (triplets : List EdgeLabel) (edges : List Edge) (hnodup : edges.Nodup)
    (hlabel : ∀ e ∈ edges, e.label ∈ triplets) : ReadGraph where
  triplets := triplets
  edges := edges
  readTs := 0
  outAdj t v := (edges.filter fun e => e.label = t ∧ e.src = v).map fun e => ⟨e.dst, 0, e.data⟩
  inAdj t v := (edges.filter fun e => e.label = t ∧ e.dst = v).map fun e => ⟨e.src, 0, e.data⟩
  nodup_edges := hnodup
  label_mem := hlabel
  out_perm t v := by simp [filter_map, Function.comp_def]
  in_perm t v := by simp [filter_map, Function.comp_def]

theorem nodup_label_zero : [(⟨0, 0, 0⟩ : EdgeLabel)].Nodup := nodup_singleton _

structure PathStep where
  edgeLabel : Nat
  dir : Direction
  data : Nat
  node : VertexRecord
  deriving DecidableEq, Repr

structure Path where
  start : VertexRecord
  steps : List PathStep
  deriving DecidableEq, Repr

namespace Path

def expand (p : Path) (s : PathStep) : Path :=
  { p with steps := p.steps ++ [s] }

def nodes (p : Path) : List VertexRecord :=
  p.start :: p.steps.map (·.node)

def length (p : Path) : Nat :=
  p.steps.length

end Path

def PathStep.edge (v : VertexRecord) (s : PathStep) : Edge :=
  match s.dir with
  | .kIn => ⟨⟨s.node.label, v.label, s.edgeLabel⟩, s.node.vid, v.vid, s.data⟩
  | _ => ⟨⟨v.label, s.node.label, s.edgeLabel⟩, v.vid, s.node.vid, s.data⟩

/-- The directions in which an expansion may walk an edge. -/
def Direction.Allows : Direction → Direction → Prop
  | .kOut, d => d = .kOut
  | .kIn, d => d = .kIn
  | .kBoth, d => d = .kOut ∨ d = .kIn

instance (dir d : Direction) : Decidable (dir.Allows d) := by
  cases dir <;> unfold Direction.Allows <;> infer_instance

namespace ReadGraph

variable (g : ReadGraph)

/-- The entries an iteration over `get_edges` of the outgoing view returns. -/
def outgoing (t : EdgeLabel) (v : Nat) : List Nbr :=
  (g.outAdj t v).filter (·.timestamp ≤ g.readTs)

/-- The entries an iteration over `get_edges` of the incoming view returns. -/
def incoming (t : EdgeLabel) (v : Nat) : List Nbr :=
  (g.inAdj t v).filter (·.timestamp ≤ g.readTs)

theorem mem_adjacent {t : EdgeLabel} {v x data : Nat} :
    ((∃ n ∈ g.outgoing t v, n.neighbor = x ∧ n.data = data) ↔ ⟨t, v, x, data⟩ ∈ g.edges) ∧
      ((∃ n ∈ g.incoming t v, n.neighbor = x ∧ n.data = data) ↔ ⟨t, x, v, data⟩ ∈ g.edges) := by
  have hout : (x, data) ∈ (g.outgoing t v).map _ ↔ _ := (g.out_perm t v).mem_iff
  have hin : (x, data) ∈ (g.incoming t v).map _ ↔ _ := (g.in_perm t v).mem_iff
  simp only [mem_map, mem_filter, decide_eq_true_eq, Prod.mk.injEq] at hout hin
  rw [hout, hin]
  constructor
  all_goals
    constructor
    · rintro ⟨⟨_, _, _, _⟩, ⟨he, rfl, rfl⟩, rfl, rfl⟩
      exact he
    · intro he
      exact ⟨_, ⟨he, rfl, rfl⟩, rfl, rfl⟩

theorem nodup_map_adjacent (t : EdgeLabel) (v : Nat) :
    ((g.outgoing t v).map fun n => (n.neighbor, n.data)).Nodup ∧
      ((g.incoming t v).map fun n => (n.neighbor, n.data)).Nodup := by
  constructor
  on_goal 1 => refine (g.out_perm t v).nodup_iff.mpr ?_
  on_goal 2 => refine (g.in_perm t v).nodup_iff.mpr ?_
  all_goals
    refine (g.nodup_edges.filter _).map_on ?_
    rintro ⟨_, _, _, _⟩ he ⟨_, _, _, _⟩ he' heq
    simp only [mem_filter, decide_eq_true_eq, Prod.mk.injEq] at he he' heq
    obtain ⟨-, rfl, rfl⟩ := he
    obtain ⟨-, rfl, rfl⟩ := he'
    obtain ⟨rfl, rfl⟩ := heq
    rfl

/-! ## Steps -/

variable (labels : List EdgeLabel)

def outLabelsMap (label : Nat) : List EdgeLabel :=
  labels.filter (·.src = label)

def inLabelsMap (label : Nat) : List EdgeLabel :=
  labels.filter (·.dst = label)

/-- The steps along outgoing edges, in the order in which the loops meet them. -/
def outSteps (v : VertexRecord) : List PathStep :=
  (outLabelsMap labels v.label).flatMap fun t =>
    (g.outgoing t v.vid).map fun n => ⟨t.edge, .kOut, n.data, ⟨t.dst, n.neighbor⟩⟩

/-- The steps along incoming edges, in the order in which the loops meet them. -/
def inSteps (v : VertexRecord) : List PathStep :=
  (inLabelsMap labels v.label).flatMap fun t =>
    (g.incoming t v.vid).map fun n => ⟨t.edge, .kIn, n.data, ⟨t.src, n.neighbor⟩⟩

def stepsFrom (dir : Direction) (v : VertexRecord) : List PathStep :=
  match dir with
  | .kOut => g.outSteps labels v
  | .kIn => g.inSteps labels v
  | .kBoth => g.outSteps labels v ++ g.inSteps labels v

/-- The step from `v` walks an edge of the graph that has one of the labels. -/
def IsStep (dir : Direction) (v : VertexRecord) (s : PathStep) : Prop :=
  dir.Allows s.dir ∧ s.edge v ∈ g.edges ∧ (s.edge v).label ∈ labels

variable {g} {labels : List EdgeLabel} {dir : Direction} {v : VertexRecord} {s : PathStep}

theorem mem_steps :
    (s ∈ g.outSteps labels v ↔ s.dir = .kOut ∧ s.edge v ∈ g.edges ∧ (s.edge v).label ∈ labels) ∧
      (s ∈ g.inSteps labels v ↔ s.dir = .kIn ∧ s.edge v ∈ g.edges ∧ (s.edge v).label ∈ labels) := by
  obtain ⟨el, d, data, ⟨nl, nv⟩⟩ := s
  obtain ⟨vl, vv⟩ := v
  simp only [outSteps, outLabelsMap, inSteps, inLabelsMap, mem_flatMap, mem_filter,
    decide_eq_true_eq, mem_map, PathStep.mk.injEq, VertexRecord.mk.injEq]
  refine ⟨⟨?_, ?_⟩, ⟨?_, ?_⟩⟩
  · rintro ⟨t, ⟨ht, rfl⟩, n, hn, rfl, rfl, rfl, rfl, rfl⟩
    exact ⟨rfl, g.mem_adjacent.1.mp ⟨n, hn, rfl, rfl⟩, ht⟩
  · rintro ⟨rfl, he, ht⟩
    obtain ⟨n, hn, rfl, rfl⟩ := g.mem_adjacent.1.mpr he
    exact ⟨_, ⟨ht, rfl⟩, n, hn, rfl, rfl, rfl, rfl, rfl⟩
  · rintro ⟨t, ⟨ht, rfl⟩, n, hn, rfl, rfl, rfl, rfl, rfl⟩
    exact ⟨rfl, g.mem_adjacent.2.mp ⟨n, hn, rfl, rfl⟩, ht⟩
  · rintro ⟨rfl, he, ht⟩
    obtain ⟨n, hn, rfl, rfl⟩ := g.mem_adjacent.2.mpr he
    exact ⟨_, ⟨ht, rfl⟩, n, hn, rfl, rfl, rfl, rfl, rfl⟩

theorem mem_stepsFrom : s ∈ g.stepsFrom labels dir v ↔ g.IsStep labels dir v s := by
  cases dir with
  | kOut => exact mem_steps.1
  | kIn => exact mem_steps.2
  | kBoth =>
    rw [stepsFrom, mem_append, mem_steps.1, mem_steps.2, IsStep, Direction.Allows, or_and_right]

/-- Entries that differ lead to different steps, and so do the triplets they are read for. -/
theorem nodup_steps {entries : EdgeLabel → List Nbr} {make : EdgeLabel → Nbr → PathStep}
    (hentries : ∀ t, ((entries t).map fun n => (n.neighbor, n.data)).Nodup) (hlabels : labels.Nodup)
    (hmake : ∀ t ∈ labels, ∀ t' ∈ labels, ∀ n n', make t n = make t' n' →
      t = t' ∧ (n.neighbor, n.data) = (n'.neighbor, n'.data)) :
    (labels.flatMap fun t => (entries t).map (make t)).Nodup := by
  rw [nodup_flatMap]
  refine ⟨?_, ?_⟩
  · intro t ht
    have hinj := (nodup_map_iff_inj_on (Nodup.of_map _ (hentries t))).mp (hentries t)
    refine (Nodup.of_map _ (hentries t)).map_on ?_
    intro n hn n' hn' heq
    exact hinj n hn n' hn' (hmake t ht t ht n n' heq).2
  · refine hlabels.imp_of_mem ?_
    intro t t' ht ht' hne l hl hl'
    obtain ⟨n, -, rfl⟩ := mem_map.mp hl
    obtain ⟨n', -, heq⟩ := mem_map.mp hl'
    exact hne (hmake t' ht' t ht n' n heq).1.symm

theorem nodup_outSteps (hlabels : labels.Nodup) : (g.outSteps labels v).Nodup := by
  refine nodup_steps (fun t => (g.nodup_map_adjacent t v.vid).1) (hlabels.filter _) ?_
  -- both triplets start at the label of `v`
  rintro ⟨_, _, _⟩ ht ⟨_, _, _⟩ ht' n n' heq
  simp_all [outLabelsMap]

theorem nodup_inSteps (hlabels : labels.Nodup) : (g.inSteps labels v).Nodup := by
  refine nodup_steps (fun t => (g.nodup_map_adjacent t v.vid).2) (hlabels.filter _) ?_
  -- both triplets end at the label of `v`
  rintro ⟨_, _, _⟩ ht ⟨_, _, _⟩ ht' n n' heq
  simp_all [inLabelsMap]

theorem nodup_stepsFrom (hlabels : labels.Nodup) : (g.stepsFrom labels dir v).Nodup := by
  cases dir with
  | kOut => exact nodup_outSteps hlabels
  | kIn => exact nodup_inSteps hlabels
  | kBoth =>
    refine (nodup_outSteps hlabels).append (nodup_inSteps hlabels) ?_
    intro s hout hin
    have := (mem_steps.1.mp hout).1.symm.trans (mem_steps.2.mp hin).1
    cases this

end ReadGraph

def ReadGraph.stepGraph (g : ReadGraph) (labels : List EdgeLabel) (dir : Direction) :
    StepGraph VertexRecord PathStep where
  next := g.stepsFrom labels dir
  target := (·.node)

def Path.endNode (p : Path) : VertexRecord :=
  match p.steps.getLast? with
  | none => p.start
  | some s => s.node

/-- What an expansion along paths is asked for: a set of edge triplets of the graph, a
direction and a range of edge counts. -/
structure PathExpandParams (g : ReadGraph) where
  labels : List EdgeLabel
  dir : Direction
  hopLower : Nat
  hopUpper : Nat
  nodup_labels : labels.Nodup
  labels_valid : ∀ t ∈ labels, t ∈ g.triplets

end Neug.Execution
