import Mathlib.Data.List.InsertIdx
import Neug.Library.DistinctKeys
import Neug.Library.Fallible
import Neug.Storage.VertexProperties

/-! # Schema and table stay aligned

The properties of a label are an ordered dictionary from names to columns.  Schema and table
represent it together: the same names in the same order, distinct from each other and from the
primary key, and the map leads from each name to its column.  A request acts on the dictionary
as long as the names it introduces are free when their turn comes.
-/

namespace Neug.Storage

open Library Function Attempt List

variable {DataType Value Col : Type}

/-! ## What is represented -/

/-- The schema lists some properties, none of them soft-deleted. -/
structure VertexSchema.Lists (s : VertexSchema DataType Value) (names : List String) : Prop where
  propertyNames : s.propertyNames = names
  propertyTypes : s.propertyTypes.length = names.length
  defaults : s.defaultPropertyValues.length = names.length
  softDeleted : s.vpropSoftDeleted = replicate names.length false

structure PropertyTable.Holds (t : PropertyTable Col) (d : List (String × Col)) : Prop where
  colNames : t.colNames = d.map Prod.fst
  columns : t.columns = d.map fun e => some e.2
  colIdMap : ∀ name id, t.colIdMap name = some id ↔ (d.map Prod.fst)[id]? = some name

structure LabelProperties.Represents (s : LabelProperties DataType Value Col)
    (d : List (String × Col)) : Prop where
  schema : s.schema.Lists (d.map Prod.fst)
  table : s.table.Holds d
  distinct : (d.map Prod.fst).Nodup
  primaryKey : s.schema.primaryKey ∉ d.map Prod.fst

/-! ## The schema -/

namespace VertexSchema

variable {s : VertexSchema DataType Value} {names : List String}

theorem Lists.hasProperty_iff (h : s.Lists names) (prop : String) :
    s.hasProperty prop = true ↔ prop = s.primaryKey ∨ prop ∈ names := by
  have hlive : ∀ idx, s.vpropSoftDeleted.getD idx false = false := by
    intro idx
    rw [h.softDeleted, getD_eq_getElem?_getD]
    cases hidx : (replicate names.length false)[idx]? with
    | none => rfl
    | some b => exact eq_of_mem_replicate (mem_of_getElem? hidx)
  unfold hasProperty
  rw [h.propertyNames]
  cases hidx : names.idxOf? prop with
  | none =>
    have hnot : prop ∉ names := idxOf?_eq_none_iff.mp hidx
    simp [hnot, @eq_comm _ s.primaryKey prop]
  | some idx =>
    have hmem : prop ∈ names := by
      by_contra hnot
      rw [idxOf?_eq_none_iff.mpr hnot] at hidx
      cases hidx
    simp only [hlive idx, Bool.not_false, Bool.or_true, true_iff]
    exact .inr hmem

theorem Lists.hasPropertyInternal_iff (h : s.Lists names) (prop : String) :
    s.hasPropertyInternal prop = true ↔ prop = s.primaryKey ∨ prop ∈ names := by
  simp [hasPropertyInternal, h.propertyNames, @eq_comm _ s.primaryKey prop]

theorem Lists.addProperties (h : s.Lists names) (props : List (NewProperty DataType Value)) :
    (s.addProperties props).Lists (names ++ props.map (·.name)) := by
  refine ⟨?_, ?_, ?_, ?_⟩
  · simp [VertexSchema.addProperties, h.propertyNames]
  · simp [VertexSchema.addProperties, h.propertyTypes]
  · simp [VertexSchema.addProperties, h.defaults]
  · simp only [VertexSchema.addProperties, h.softDeleted, map_const', length_append,
      length_map, replicate_add]

/-- With distinct names and nothing soft-deleted, a name is replaced. -/
theorem renameFirst_eq {name : String} (rename : String) (hnodup : names.Nodup) :
    renameFirst name rename names (replicate names.length false) =
      names.map (rekey name rename) := by
  induction names with
  | nil => rfl
  | cons n rest ih =>
    obtain ⟨hn, hrest⟩ := nodup_cons.mp hnodup
    rw [length_cons, replicate_succ, renameFirst, if_neg (by simp), map_cons]
    by_cases hname : n = name
    · subst hname
      rw [if_pos rfl, map_rekey_of_notMem rename hn]
      simp [rekey]
    · rw [if_neg hname, ih hrest]
      simp [rekey, hname]

theorem Lists.deleteProperty (h : s.Lists names) (hnodup : names.Nodup) (name : String) :
    (s.deleteProperty name).Lists (names.filter (· ≠ name)) ∧
      (s.deleteProperty name).primaryKey = s.primaryKey := by
  unfold VertexSchema.deleteProperty
  rw [h.propertyNames]
  cases hidx : names.idxOf? name with
  | none =>
    have hnot : name ∉ names := idxOf?_eq_none_iff.mp hidx
    have hkeep : names.filter (· ≠ name) = names :=
      filter_eq_self_of_notMem id (by simpa using hnot)
    rw [hkeep]
    exact ⟨h, rfl⟩
  | some j =>
    obtain ⟨hlt, hj, -⟩ := idxOf?_eq_some_iff.mp hidx
    have herase : names.eraseIdx j = names.filter (· ≠ name) :=
      eraseIdx_eq_filter id (by simpa using hnodup) (by simp [hlt, hj])
    rw [← herase]
    refine ⟨⟨?_, ?_, ?_, ?_⟩, rfl⟩
    · simp only [eraseProperty, h.propertyNames]
    · simp only [eraseProperty, length_eraseIdx, h.propertyTypes]
    · simp only [eraseProperty, length_eraseIdx, h.defaults]
    · simp only [eraseProperty, h.softDeleted, length_eraseIdx, if_pos hlt, eraseIdx_replicate]

end VertexSchema

/-! ## The table -/

namespace PropertyTable

variable {t : PropertyTable Col} {d : List (String × Col)}

def renameEntry (old new : String) (e : String × Col) : String × Col := (rekey old new e.1, e.2)

theorem map_fst_renameEntry (old new : String) (d : List (String × Col)) :
    (d.map (renameEntry old new)).map Prod.fst = (d.map Prod.fst).map (rekey old new) := by
  simp only [map_map]
  rfl

variable {map : String → Option Nat} {old new : String} {colId id : Nat}

theorem map_eq_none_iff {names : List String} {name : String}
    (hmap : ∀ id, map name = some id ↔ names[id]? = some name) :
    map name = none ↔ name ∉ names := by
  simp only [Option.eq_none_iff_forall_ne_some, ne_eq, hmap, mem_iff_getElem?, not_exists]

/-- The map after a column was given a free name. -/
theorem emplace_free (hnew : map new = none) (name : String) :
    emplace (update map old none) new colId name =
      if name = new then some colId else if name = old then none else map name := by
  have hnone : update map old none new = none := by
    by_cases h : new = old
    · rw [h, update_self]
    · rw [update_of_ne h, hnew]
  rw [emplace, hnone, if_neg (by simp), update_apply, update_apply]

/-- Renaming a column to its own name changes nothing. -/
theorem emplace_same {name : String} (h : map name = some colId) :
    emplace (update map name none) name colId = map := by
  rw [emplace, update_self, if_neg (by simp), update_idem, ← h, update_eq_self]

/-- A name that is free, or the old one, leaves table and map aligned. -/
theorem Holds.renameColumn (h : t.Holds d) (hnodup : (d.map Prod.fst).Nodup)
    (hfree : old ∈ d.map Prod.fst → new = old ∨ new ∉ d.map Prod.fst) :
    (t.renameColumn old new).Holds (d.map (renameEntry old new)) := by
  unfold PropertyTable.renameColumn
  cases hid : t.colIdMap old with
  | none =>
    have hnot := (map_eq_none_iff (h.colIdMap old)).mp hid
    have hsame : d.map (renameEntry old new) = d := by
      conv_rhs => rw [← map_id d]
      apply map_congr_left
      intro e he
      have hne : e.1 ≠ old := fun heq => hnot (heq ▸ mem_map_of_mem he)
      simp [renameEntry, rekey, hne]
    rw [hsame]
    exact h
  | some colId =>
    have hold := (h.colIdMap old colId).mp hid
    have hfree := hfree (mem_of_getElem? hold)
    refine ⟨?_, ?_, ?_⟩
    · simp only [h.colNames, map_fst_renameEntry, set_eq_map_rekey new hnodup hold]
    · simp only [h.columns, map_map]
      rfl
    · intro name id
      rw [map_fst_renameEntry]
      rcases hfree with hsame | hnew
      · subst hsame
        rw [rekey_self, map_id]
        simp only [emplace_same hid]
        exact h.colIdMap name id
      · have hnone := (map_eq_none_iff (h.colIdMap new)).mpr hnew
        rw [getElem?_map_rekey hnew]
        simp only [emplace_free hnone]
        by_cases hname : name = new
        · rw [if_pos hname, if_pos hname]
          constructor
          · intro heq
            rw [← Option.some.inj heq]
            exact hold
          · intro hat
            rw [eq_of_getElem?_eq_some hnodup hold hat]
        · rw [if_neg hname, if_neg hname]
          by_cases hnameold : name = old
          · simp [hnameold]
          · rw [if_neg hnameold, h.colIdMap name id]
            simp [hnameold]

def Covers (t : PropertyTable Col) (id : Nat) : Prop := ∃ name, t.colIdMap name = some id

theorem Holds.covers (h : t.Holds d) (hid : id < d.length) : t.Covers id :=
  ⟨(d.get ⟨id, hid⟩).1, (h.colIdMap _ id).mpr (by simp [hid])⟩

/-- No renaming leads to a column that the map did not lead to before. -/
theorem covers_of_renameColumn (h : (t.renameColumn old new).Covers id) : t.Covers id := by
  obtain ⟨name, hname⟩ := h
  unfold renameColumn at hname
  cases hid : t.colIdMap old with
  | none =>
    rw [hid] at hname
    exact ⟨name, hname⟩
  | some colId =>
    rw [hid] at hname
    simp only [emplace] at hname
    split at hname
    · rw [update_apply] at hname
      split at hname
      · cases hname
      · exact ⟨name, hname⟩
    · rw [update_apply, update_apply] at hname
      split at hname
      · cases hname
        exact ⟨old, hid⟩
      split at hname
      · cases hname
      · exact ⟨name, hname⟩

/-- Renaming a column to the name of another one loses its entry in the map. -/
theorem Holds.not_covers (h : t.Holds d) (hid : t.colIdMap old = some colId)
    (hnew : new ∈ d.map Prod.fst) (hne : new ≠ old) : ¬ (t.renameColumn old new).Covers colId := by
  rintro ⟨name, hname⟩
  obtain ⟨newId, hnewId⟩ := mem_iff_getElem?.mp hnew
  have hsome : (update t.colIdMap old none new).isSome = true := by
    rw [update_of_ne hne, (h.colIdMap new newId).mpr hnewId]
    rfl
  simp only [PropertyTable.renameColumn, hid, emplace, if_pos hsome] at hname
  rw [update_apply] at hname
  split at hname
  next => cases hname
  next hnameold =>
    have hat := (h.colIdMap name colId).mp hname
    have hold := (h.colIdMap old colId).mp hid
    rw [hold] at hat
    exact hnameold (Option.some.inj hat).symm

/-- Where the names stand after one was removed. -/
theorem shifted_iff {names : List String} {name other : String}
    (hmap : ∀ id, map other = some id ↔ names[id]? = some other)
    (hname : names[colId]? = some name) (hne : other ≠ name) :
    ((map other).map fun id => if colId < id then id - 1 else id) = some id ↔
      (names.eraseIdx colId)[id]? = some other := by
  rw [Option.map_eq_some_iff, getElem?_eraseIdx]
  have hcolId : ∀ j, names[j]? = some other → j ≠ colId := by
    rintro j hj rfl
    rw [hname] at hj
    exact hne (Option.some.inj hj).symm
  constructor
  · rintro ⟨j, hj, hshift⟩
    have hat := (hmap j).mp hj
    have hj' := hcolId j hat
    split at hshift
    · rw [if_neg (by omega), show id + 1 = j by omega]
      exact hat
    · rw [if_pos (by omega), ← hshift]
      exact hat
  · intro hat
    split at hat
    · exact ⟨id, (hmap id).mpr hat, if_neg (by omega)⟩
    · exact ⟨id + 1, (hmap (id + 1)).mpr hat, if_pos (by omega)⟩

theorem Holds.deleteColumn (h : t.Holds d) (hnodup : (d.map Prod.fst).Nodup) (name : String) :
    (t.deleteColumn name).Holds (d.filter (·.1 ≠ name)) := by
  unfold PropertyTable.deleteColumn
  cases hid : t.colIdMap name with
  | none =>
    rw [filter_eq_self_of_notMem Prod.fst ((map_eq_none_iff (h.colIdMap name)).mp hid)]
    exact h
  | some colId =>
    have hat := (h.colIdMap name colId).mp hid
    rw [← eraseIdx_eq_filter Prod.fst hnodup hat]
    refine ⟨?_, ?_, ?_⟩
    · simp only [h.colNames, eraseIdx_map]
    · simp only [h.columns, eraseIdx_map]
    · intro other id
      rw [← eraseIdx_map]
      by_cases hother : other = name
      · subst hother
        have hgone : other ∉ (d.map Prod.fst).eraseIdx colId := by
          rw [eraseIdx_map, eraseIdx_eq_filter Prod.fst hnodup hat]
          simp
        simp only [update_self, Option.map_none, reduceCtorEq, false_iff]
        exact fun hat' => hgone (mem_of_getElem? hat')
      · simp only [update_of_ne hother]
        exact shifted_iff (h.colIdMap other) hat hother

end PropertyTable

/-! ### New columns -/

def ColumnKind.make (kind : ColumnKind DataType Value Col) (capacity : Nat)
    (prop : NewProperty DataType Value) (col : Col) : Prop :=
  ∃ empty, kind.createColumn prop.type = .ok empty ∧
    kind.resize empty capacity prop.default = .ok col

namespace PropertyTable

variable {kind : ColumnKind DataType Value Col} {capacity : Nat} {t t' : PropertyTable Col}
  {d : List (String × Col)} {props : List (NewProperty DataType Value)}

/-- The map after names were added from some position on. -/
def emplaceAll (map : String → Option Nat) : List String → Nat → String → Option Nat
  | [], _ => map
  | name :: rest, start => emplaceAll (emplace map name start) rest (start + 1)

variable {cs : List (Option Col)} {cols : List Col} {names : List String}

theorem emplace_iff {map : String → Option Nat} {new : String}
    (hmap : ∀ name id, map name = some id ↔ names[id]? = some name) (hnew : new ∉ names)
    (name : String) (id : Nat) :
    emplace map new names.length name = some id ↔ (names ++ [new])[id]? = some name := by
  rw [emplace, (map_eq_none_iff (hmap new)).mpr hnew, if_neg (by simp), update_apply]
  by_cases hname : name = new
  · subst hname
    rw [if_pos rfl, Option.some.injEq]
    constructor
    · rintro rfl
      simp
    · intro hat
      rcases Nat.lt_trichotomy id names.length with hlt | heq | hgt
      · rw [getElem?_append_left hlt] at hat
        exact absurd (mem_of_getElem? hat) hnew
      · exact heq.symm
      · rw [getElem?_eq_none (by simp; omega)] at hat
        cases hat
  · rw [if_neg hname, hmap]
    rcases Nat.lt_trichotomy id names.length with hlt | rfl | hgt
    · rw [getElem?_append_left hlt]
    · simp [Ne.symm hname]
    · rw [getElem?_eq_none (by omega), getElem?_eq_none (by simp; omega)]

theorem emplaceAll_iff {map : String → Option Nat} {new : List String}
    (hmap : ∀ name id, map name = some id ↔ names[id]? = some name)
    (hnodup : (names ++ new).Nodup) (name : String) (id : Nat) :
    emplaceAll map new names.length name = some id ↔ (names ++ new)[id]? = some name := by
  induction new generalizing map names with
  | nil => simpa [emplaceAll] using hmap name id
  | cons n rest ih =>
    have hassoc : names ++ n :: rest = (names ++ [n]) ++ rest := by simp
    have hn : n ∉ names := fun hmem =>
      disjoint_of_nodup_append hnodup hmem mem_cons_self
    rw [hassoc] at hnodup ⊢
    have hlen : names.length + 1 = (names ++ [n]).length := by simp
    rw [emplaceAll, hlen]
    exact ih (emplace_iff hmap hn) hnodup

/-- The first loop puts an empty column behind each new name. -/
theorem forEach_addHeader (hcols : t.columns = cs ++ props.map fun _ => none)
    (hlen : t.colNames.length = cs.length)
    (hcreate : Forall₂ (fun p col => kind.createColumn p.type = .ok col) props cols) :
    forEach (addHeader kind) props t = .done ⟨t.colNames ++ props.map (·.name),
        emplaceAll t.colIdMap (props.map (·.name)) t.colNames.length, cs ++ cols.map some⟩ := by
  induction hcreate generalizing t cs with
  | nil =>
    obtain ⟨names, map, columns⟩ := t
    simp_all [forEach, emplaceAll]
  | @cons p col rest cols hp hrest ih =>
    have hset : t.columns.set t.colNames.length (some col) =
        (cs ++ [some col]) ++ rest.map fun _ => none := by
      rw [hcols, hlen, map_cons, set_append_right _ _ (Nat.le_refl _), Nat.sub_self]
      simp
    rw [forEach, addHeader, hp]
    simp only [andThen]
    rw [ih hset (by simp [hlen])]
    simp [emplaceAll]

theorem forEach_addHeader_done (h : forEach (addHeader kind) props t = .done t') :
    ∃ cols, Forall₂ (fun p col => kind.createColumn p.type = .ok col) props cols := by
  induction props generalizing t with
  | nil => exact ⟨[], .nil⟩
  | cons p rest ih =>
    rw [forEach, andThen_eq_done] at h
    obtain ⟨mid, hround, hrest⟩ := h
    obtain ⟨cols, hcols⟩ := ih hrest
    unfold addHeader at hround
    cases hcreate : kind.createColumn p.type with
    | error e =>
      rw [hcreate] at hround
      cases hround
    | ok col => exact ⟨col :: cols, .cons hcreate hcols⟩

/-- The loop of `add_columns` over the new columns, by their positions. -/
def positions (start : Nat) (props : List (NewProperty DataType Value)) :
    List (Nat × NewProperty DataType Value) :=
  (props.zipIdx start).map fun p => (p.2, p.1)

theorem positions_cons (start : Nat) (p : NewProperty DataType Value)
    (rest : List (NewProperty DataType Value)) :
    positions start (p :: rest) = (start, p) :: positions (start + 1) rest := rfl

/-- The second loop fills the new columns.  A pair is a column before and after. -/
theorem forEach_fillColumn {pairs : List (Col × Col)}
    (hcols : t.columns = cs ++ pairs.map fun c => some c.1)
    (hfill : Forall₂ (fun p (c : Col × Col) => kind.resize c.1 capacity p.default = .ok c.2)
      props pairs) : forEach (fillColumn kind capacity) (positions cs.length props) t =
      .done { t with columns := cs ++ pairs.map fun c => some c.2 } := by
  induction hfill generalizing t cs with
  | nil =>
    obtain ⟨names, map, columns⟩ := t
    simp_all [forEach, positions]
  | @cons p c rest pairs hp hrest ih =>
    have hat : t.columns[cs.length]? = some (some c.1) := by simp [hcols]
    have hset : t.columns.set cs.length (some c.2) =
        (cs ++ [some c.2]) ++ pairs.map fun c => some c.1 := by
      rw [hcols, map_cons, set_append_right _ _ (Nat.le_refl _), Nat.sub_self]
      simp
    have hlen : cs.length + 1 = (cs ++ [some c.2]).length := by simp
    rw [positions_cons, forEach, fillColumn, hat]
    simp only [hp, andThen]
    rw [hlen, @ih { t with columns := t.columns.set cs.length (some c.2) } _ hset]
    simp

theorem forEach_fillColumn_done (hcols : t.columns = cs ++ cols.map some)
    (hlen : cols.length = props.length)
    (h : forEach (fillColumn kind capacity) (positions cs.length props) t = .done t') :
    ∃ pairs : List (Col × Col), pairs.map Prod.fst = cols ∧
      Forall₂ (fun p (c : Col × Col) => kind.resize c.1 capacity p.default = .ok c.2)
        props pairs := by
  induction props generalizing t cs cols with
  | nil =>
    rw [length_nil, length_eq_zero_iff] at hlen
    exact ⟨[], hlen.symm, .nil⟩
  | cons p rest ih =>
    cases cols with
    | nil => cases hlen
    | cons col cols =>
      rw [positions_cons, forEach, andThen_eq_done] at h
      obtain ⟨mid, hround, hrest⟩ := h
      have hat : t.columns[cs.length]? = some (some col) := by simp [hcols]
      simp only [fillColumn, hat] at hround
      cases hresize : kind.resize col capacity p.default with
      | error e =>
        rw [hresize] at hround
        cases hround
      | ok filled =>
        rw [hresize] at hround
        cases hround
        have hset : t.columns.set cs.length (some filled) =
            (cs ++ [some filled]) ++ cols.map some := by
          rw [hcols, map_cons, set_append_right _ _ (Nat.le_refl _), Nat.sub_self]
          simp
        have hnext : cs.length + 1 = (cs ++ [some filled]).length := by simp
        rw [hnext] at hrest
        obtain ⟨pairs, hpairs, hall⟩ := ih hset (Nat.succ.inj hlen) hrest
        exact ⟨(col, filled) :: pairs, by rw [map_cons, hpairs], .cons hresize hall⟩

theorem addColumns_of_make (hlen : t.colNames.length = t.columns.length)
    (hmake : Forall₂ (kind.make capacity) props cols) :
    t.addColumns kind capacity props = .done ⟨t.colNames ++ props.map (·.name),
        emplaceAll t.colIdMap (props.map (·.name)) t.colNames.length,
        t.columns ++ cols.map some⟩ := by
  obtain ⟨pairs, hpairs, rfl⟩ : ∃ pairs : List (Col × Col),
      Forall₂ (fun p (c : Col × Col) => kind.createColumn p.type = .ok c.1 ∧
        kind.resize c.1 capacity p.default = .ok c.2) props pairs ∧ pairs.map Prod.snd = cols := by
    induction hmake with
    | nil => exact ⟨[], .nil, rfl⟩
    | @cons p col rest cols hp hrest ih =>
      obtain ⟨empty, hcreate, hresize⟩ := hp
      obtain ⟨pairs, hpairs, rfl⟩ := ih
      exact ⟨(empty, col) :: pairs, .cons ⟨hcreate, hresize⟩ hpairs, rfl⟩
  have hcreate : Forall₂ (fun p col => kind.createColumn p.type = .ok col) props
      (pairs.map Prod.fst) := by
    rw [forall₂_map_right_iff]
    exact hpairs.imp fun _ _ h => h.1
  have hheaders := @forEach_addHeader _ _ _ kind
    { t with columns := t.columns ++ props.map fun _ => none } props t.columns _ rfl hlen hcreate
  rw [addColumns]
  simp only [hheaders, andThen]
  have hfilled := @forEach_fillColumn _ _ _ kind capacity
    ⟨t.colNames ++ props.map (·.name), emplaceAll t.colIdMap (props.map (·.name)) t.colNames.length,
      t.columns ++ (pairs.map Prod.fst).map some⟩ props t.columns pairs (by simp)
    (hpairs.imp fun _ _ h => h.2)
  rw [positions] at hfilled
  rw [hfilled]
  simp

theorem make_of_addColumns (hlen : t.colNames.length = t.columns.length)
    (h : t.addColumns kind capacity props = .done t') :
    ∃ cols, Forall₂ (kind.make capacity) props cols := by
  rw [addColumns, andThen_eq_done] at h
  obtain ⟨mid, hheaders, hfill⟩ := h
  obtain ⟨cols, hcreate⟩ := forEach_addHeader_done hheaders
  rw [@forEach_addHeader _ _ _ kind { t with columns := t.columns ++ props.map fun _ => none }
    props t.columns _ rfl hlen hcreate] at hheaders
  cases hheaders
  obtain ⟨pairs, rfl, hresize⟩ := forEach_fillColumn_done rfl hcreate.length_eq.symm hfill
  refine ⟨pairs.map Prod.snd, ?_⟩
  rw [forall₂_map_right_iff] at hcreate ⊢
  clear hfill
  induction hcreate with
  | nil => exact .nil
  | cons hp _ ih =>
    cases hresize with
    | cons hp' hrest' => exact .cons ⟨_, hp, hp'⟩ (ih hrest')

/-- New names that are distinct and free extend the dictionary. -/
theorem Holds.append (h : t.Holds d) (hlen : names.length = cols.length)
    (hnodup : (d.map Prod.fst ++ names).Nodup) :
    Holds ⟨t.colNames ++ names, emplaceAll t.colIdMap names t.colNames.length,
      t.columns ++ cols.map some⟩ (d ++ names.zip cols) := by
  have hfst : (names.zip cols).map Prod.fst = names := map_fst_zip (Nat.le_of_eq hlen)
  have hsnd : (names.zip cols).map Prod.snd = cols := map_snd_zip (Nat.le_of_eq hlen.symm)
  refine ⟨?_, ?_, ?_⟩
  · simp only [h.colNames, map_append, hfst]
  · simp only [h.columns, map_append]
    conv_lhs => rw [← hsnd, map_map]
    rfl
  · intro name id
    rw [map_append, hfst]
    simp only [h.colNames]
    exact emplaceAll_iff h.colIdMap hnodup name id

theorem Holds.unique (h : t.Holds d) (h' : t'.Holds d) : t = t' := by
  obtain ⟨names, map, columns⟩ := t
  obtain ⟨names', map', columns'⟩ := t'
  have hmap : map = map' := by
    funext name
    apply Option.ext
    intro id
    exact (h.colIdMap name id).trans (h'.colIdMap name id).symm
  have hnames := h.colNames.trans h'.colNames.symm
  have hcolumns := h.columns.trans h'.columns.symm
  simp only at hnames hcolumns
  rw [hnames, hmap, hcolumns]

end PropertyTable

end Neug.Storage
