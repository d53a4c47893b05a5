import Neug.Library.WhileLoop
import Neug.Storage.GraphSchema

/-! # Listing labels

`get_vertex_label_ids` and `get_edge_label_ids` go through the slots with a counter of type
`label_t`.  When all 256 slots are there, the counter never gets past them, and the frontier,
which is a `label_t` as well, is zero.
-/

namespace Neug.Storage

open Library List

/-- A round of the loop over the slots, with the counter and the ids found so far. -/
def nextLabel (tomb : Nat → Bool) (st : Nat × List Nat) : Nat × List Nat :=
  ((st.1 + 1) % kLabelNum, if tomb st.1 then st.2 else st.2 ++ [st.1])

def labelIds (numSlots : Nat) (tomb : Nat → Bool) (fuel : Nat) : Option (List Nat) :=
  (whileLoop (fun st => st.1 < numSlots) (nextLabel tomb) fuel (0, [])).map Prod.snd

namespace Schema

variable {V E : Type} (s : Schema V E)

def getVertexLabelIds : Nat → Option (List Nat) :=
  labelIds s.vlabelIndexer.keys.length s.vlabelTomb

def getEdgeLabelIds : Nat → Option (List Nat) :=
  labelIds s.elabelIndexer.keys.length s.elabelTomb

end Schema

/-- Listing the ids ends, with each valid id once, and all of them are below the frontier. -/
def ListsIds (ids : Nat → Option (List Nat)) (valid : Nat → Bool) (frontier : Nat) : Prop :=
  (∃ l, Returns ids l ∧ ExactlyOnce l fun id => valid id = true) ∧
    ∀ id, valid id = true → id < frontier

variable {numSlots : Nat} {tomb : Nat → Bool}

theorem whileLoop_nextLabel (h : numSlots < kLabelNum) {i d : Nat} (hi : i + d = numSlots) :
    whileLoop (fun st => st.1 < numSlots) (nextLabel tomb) (d + 1)
      (i, Schema.validLabels i tomb) = some (numSlots, Schema.validLabels numSlots tomb) := by
  induction d generalizing i with
  | zero =>
    rw [whileLoop_of_not_guard (by simp; omega), ← hi]
    rfl
  | succ d ih =>
    have hnext : nextLabel tomb (i, Schema.validLabels i tomb) =
        (i + 1, Schema.validLabels (i + 1) tomb) := by
      rw [nextLabel, Nat.mod_eq_of_lt (by omega)]
      simp only [Schema.validLabels, range_succ, filter_append]
      cases htomb : tomb i <;> simp [htomb]
    rw [whileLoop_of_guard (by simp; omega), hnext]
    exact ih (by omega)

/-- The counter of type `label_t` stays below 256. -/
theorem not_returns_labelIds (h : kLabelNum ≤ numSlots) (l : List Nat) :
    ¬Returns (labelIds numSlots tomb) l := by
  rintro ⟨fuel, hfuel⟩
  obtain ⟨st, hrun, -⟩ := Option.map_eq_some_iff.mp hfuel
  obtain ⟨hlt, hstop⟩ := whileLoop_invariant (P := fun st => st.1 < kLabelNum) hrun (by decide)
    fun _ _ _ => Nat.mod_lt _ (by decide)
  exact of_decide_eq_false hstop (hlt.trans_le h)

theorem listsIds_iff : ListsIds (labelIds numSlots tomb)
    (fun id => id < numSlots && !tomb id) (numSlots % kLabelNum) ↔ numSlots < kLabelNum := by
  constructor
  · rintro ⟨⟨l, hl, -⟩, -⟩
    exact Nat.lt_of_not_le fun h => not_returns_labelIds h l hl
  · intro h
    have hrun := @whileLoop_nextLabel numSlots tomb h 0 numSlots (Nat.zero_add numSlots)
    refine ⟨⟨_, ⟨_, congrArg (Option.map Prod.snd) hrun⟩, nodup_range.filter _, fun id => ?_⟩,
      fun id hid => ?_⟩
    · simp [Schema.validLabels]
    · rw [Nat.mod_eq_of_lt h]
      exact of_decide_eq_true (Bool.and_eq_true_iff.mp hid).1

/-- Listing the labels ends with each valid id once, and the frontier is above all of them, exactly
if there are fewer than 256 slots for vertex labels and for edge labels. -/
theorem labels_listed_iff_roomy {V E : Type} (s : Schema V E) :
    ListsIds s.getVertexLabelIds s.isVertexLabelValid s.vertexLabelFrontier ∧
        ListsIds s.getEdgeLabelIds s.isEdgeLabelValid s.edgeLabelFrontier ↔ s.Roomy :=
  (and_congr listsIds_iff listsIds_iff).trans ⟨fun h => ⟨h.1, h.2⟩, fun h => ⟨h.vertex, h.edge⟩⟩

/-- New names get slots as long as there is room. -/
theorem exists_foldlM_add {name : Nat → String} (hname : Function.Injective name) {n : Nat}
    (hn : n ≤ kLabelNum) : ∃ ix : LabelIndexer, (range n).foldlM
        (fun ix i => (ix.add kLabelNum (name i)).map Prod.fst) .empty = some ix ∧
      ix.keys = (range n).map name ∧ ix.free = [] := by
  induction n with
  | zero => exact ⟨.empty, rfl, rfl, rfl⟩
  | succ n ih =>
    obtain ⟨ix, hix, hkeys, hfree⟩ := ih (by omega)
    have hnew : name n ∉ ix.keys := by simp [hkeys, hname.eq_iff]
    have hroom : ix.keys.length < kLabelNum := by
      rw [hkeys, length_map, length_range]
      exact hn
    obtain ⟨ix', hadd, hkeys', hfree'⟩ := NamedSlots.add_of_free_nil hfree hnew hroom
    refine ⟨ix', ?_, ?_, hfree'⟩
    · rw [range_succ, foldlM_append, hix]
      simp [hadd]
    · rw [hkeys', hkeys, range_succ, map_append, map_singleton]

/-- The indexer accepts 256 names, and then the labels cannot be listed. -/
theorem full_indexer_not_listed : ∃ (name : Nat → String) (ix : LabelIndexer),
    (range 256).foldlM (fun ix i => (ix.add kLabelNum (name i)).map Prod.fst) .empty = some ix ∧
      ∀ s : Schema Unit Unit, s.vlabelIndexer = ix →
        ¬ListsIds s.getVertexLabelIds s.isVertexLabelValid s.vertexLabelFrontier := by
  have hname : Function.Injective fun n => String.ofList (replicate n 'v') := by
    intro n m heq
    simpa using congrArg String.length heq
  obtain ⟨ix, hix, hkeys, -⟩ := exists_foldlM_add hname (n := 256) le_rfl
  refine ⟨_, ix, hix, ?_⟩
  rintro s rfl hlists
  have hlt : s.vlabelIndexer.keys.length < kLabelNum := listsIds_iff.mp hlists
  rw [hkeys, length_map, length_range] at hlt
  exact absurd hlt (by decide)

end Neug.Storage
