import Neug.Library.Reachability
import Neug.Storage.VertexPropertiesAlignment

/-! # Requests that change properties

What a request means on the dictionary of a label's properties, the condition under which
schema and table follow, and runs of requests.
-/

namespace Neug.Storage

open Library PropertyRequest Attempt List PropertyTable

variable {DataType Value Col : Type} {kind : ColumnKind DataType Value Col}
  {s s' : LabelProperties DataType Value Col} {d : List (String × Col)}

/-! ## Renaming several properties -/

variable (config : List (String × String))

/-- The name of a property after renames that are applied one after the other. -/
def renamed (name : String) : String :=
  config.foldl (fun n r => rekey r.1 r.2 n) name

/-- At its turn, no new name is the name of another property. -/
def RenamesApart : List String → List (String × String) → Prop
  | _, [] => True
  | names, (old, new) :: rest =>
    (old ∈ names → new = old ∨ new ∉ names) ∧ RenamesApart (names.map (rekey old new)) rest

theorem nodup_map_rekey_of_apart {names : List String} {old new : String} (hnodup : names.Nodup)
    (h : old ∈ names → new = old ∨ new ∉ names) : (names.map (rekey old new)).Nodup := by
  by_cases hold : old ∈ names
  · rcases h hold with rfl | hnew
    · rw [rekey_self, map_id]
      exact hnodup
    · exact nodup_map_rekey hnodup hnew
  · rw [map_rekey_of_notMem new hold]
    exact hnodup

def renameEntries (d : List (String × Col)) : List (String × Col) :=
  d.map fun e => (renamed config e.1, e.2)

theorem map_fst_renameEntries (d : List (String × Col)) :
    (renameEntries config d).map Prod.fst = (d.map Prod.fst).map (renamed config) := by
  rw [renameEntries, map_map, map_map]
  rfl

variable {t : PropertyTable Col}

/-- The loops of schema and table give each property its new name. -/
theorem PropertyTable.Holds.renameLoops {soft : List Bool} (htable : t.Holds d)
    (config : List (String × String)) (hnodup : (d.map Prod.fst).Nodup)
    (hsoft : soft = replicate (d.map Prod.fst).length false)
    (hapart : RenamesApart (d.map Prod.fst) config) :
    config.foldl (fun names r => VertexSchema.renameFirst r.1 r.2 names soft) (d.map Prod.fst) =
        (renameEntries config d).map Prod.fst ∧
      (config.foldl (fun t r => t.renameColumn r.1 r.2) t).Holds (renameEntries config d) ∧
      ((renameEntries config d).map Prod.fst).Nodup := by
  induction config generalizing t d with
  | nil =>
    have hid : renameEntries [] d = d := map_id d
    rw [hid]
    exact ⟨rfl, htable, hnodup⟩
  | cons r rest ih =>
    obtain ⟨hfree, hrest⟩ := hapart
    have hcons : renameEntries (r :: rest) d =
        renameEntries rest (d.map (renameEntry r.1 r.2)) := by
      rw [renameEntries, renameEntries, map_map]
      rfl
    have hstep := nodup_map_rekey_of_apart hnodup hfree
    rw [← map_fst_renameEntry] at hstep hrest
    rw [foldl_cons, foldl_cons, hcons, hsoft, VertexSchema.renameFirst_eq r.2 hnodup, ← hsoft,
      ← map_fst_renameEntry]
    exact ih (htable.renameColumn hnodup hfree) hstep (by simpa using hsoft) hrest

/-- A rename adds no column, and a column that the map leads to was led to before. -/
theorem PropertyTable.foldl_renameColumn_back (config : List (String × String))
    (t : PropertyTable Col) :
    (config.foldl (fun t r => t.renameColumn r.1 r.2) t).colNames.length = t.colNames.length ∧
      ∀ id, (config.foldl (fun t r => t.renameColumn r.1 r.2) t).Covers id → t.Covers id := by
  induction config generalizing t with
  | nil => exact ⟨rfl, fun _ h => h⟩
  | cons r rest ih =>
    obtain ⟨hlength, hcovers⟩ := ih (t.renameColumn r.1 r.2)
    refine ⟨hlength.trans ?_, fun id h => covers_of_renameColumn (hcovers id h)⟩
    unfold renameColumn
    split
    · exact length_set
    · rfl

/-- If the map still leads to every column in the end, no rename met a name in use. -/
theorem PropertyTable.Holds.apart_of_covers (config : List (String × String)) (h : t.Holds d)
    (hnodup : (d.map Prod.fst).Nodup)
    (hcovers : ∀ id < d.length, (config.foldl (fun t r => t.renameColumn r.1 r.2) t).Covers id) :
    RenamesApart (d.map Prod.fst) config := by
  induction config generalizing t d with
  | nil => trivial
  | cons r rest ih =>
    have hfree : r.1 ∈ d.map Prod.fst → r.2 = r.1 ∨ r.2 ∉ d.map Prod.fst := by
      intro hold
      by_contra hused
      obtain ⟨hne, hnew⟩ := not_or.mp hused
      obtain ⟨colId, hcolId⟩ := mem_iff_getElem?.mp hold
      have hlt : colId < d.length := by
        simpa using (List.getElem?_eq_some_iff.mp hcolId).1
      exact h.not_covers ((h.colIdMap r.1 colId).mpr hcolId) (not_not.mp hnew) hne
        ((foldl_renameColumn_back _ _).2 colId (hcovers colId hlt))
    refine ⟨hfree, ?_⟩
    have hstep := h.renameColumn hnodup hfree
    rw [← map_fst_renameEntry]
    refine ih hstep ?_ ?_
    · rw [map_fst_renameEntry]
      exact nodup_map_rekey_of_apart hnodup hfree
    · rw [length_map]
      exact hcovers

/-! ## Deleting several properties -/

def remaining (config : List String) (d : List (String × Col)) : List (String × Col) :=
  d.filter (·.1 ∉ config)

theorem remaining_cons (name : String) (config : List String) (d : List (String × Col)) :
    remaining (name :: config) d = remaining config (d.filter (·.1 ≠ name)) := by
  rw [remaining, remaining, filter_filter]
  apply filter_congr
  intro e _
  simp [not_or, Bool.and_comm]

theorem nodup_filter_fst {d : List (String × Col)} (p : String × Col → Bool)
    (h : (d.map Prod.fst).Nodup) : ((d.filter p).map Prod.fst).Nodup :=
  h.sublist (filter_sublist.map Prod.fst)

/-- The loops of schema and table delete the same entries. -/
theorem deleteLoops {schema : VertexSchema DataType Value} (config : List String)
    (hschema : schema.Lists (d.map Prod.fst)) (htable : t.Holds d)
    (hnodup : (d.map Prod.fst).Nodup) :
    (config.foldl VertexSchema.deleteProperty schema).Lists ((remaining config d).map Prod.fst) ∧
      (config.foldl VertexSchema.deleteProperty schema).primaryKey = schema.primaryKey ∧
      (config.foldl deleteColumn t).Holds (remaining config d) := by
  induction config generalizing schema t d with
  | nil =>
    have hall : remaining [] d = d := by simp [remaining]
    rw [hall]
    exact ⟨hschema, rfl, htable⟩
  | cons name rest ih =>
    obtain ⟨hlists, hkey⟩ := hschema.deleteProperty hnodup name
    have hfst : (d.map Prod.fst).filter (· ≠ name) = (d.filter (·.1 ≠ name)).map Prod.fst := by
      rw [filter_map]
      rfl
    rw [hfst] at hlists
    obtain ⟨hlists', hkey', hholds'⟩ :=
      ih hlists (htable.deleteColumn hnodup name) (nodup_filter_fst _ hnodup)
    rw [foldl_cons, foldl_cons, remaining_cons]
    exact ⟨hlists', hkey'.trans hkey, hholds'⟩

/-! ## What a request means -/

def newProperties (kind : ColumnKind DataType Value Col) (config : List (String × Value)) :
    List (NewProperty DataType Value) :=
  config.map fun p => ⟨p.1, kind.typeOf p.2, p.2⟩

theorem map_name_newProperties (kind : ColumnKind DataType Value Col)
    (config : List (String × Value)) :
    (newProperties kind config).map (·.name) = config.map Prod.fst := by
  rw [newProperties, map_map]
  rfl

/-- A request on the dictionary: new columns hold the default, columns move to their new names,
and deleted ones go. -/
def PropertyRequest.Applies (kind : ColumnKind DataType Value Col) (capacity : Nat) :
    PropertyRequest Value → List (String × Col) → List (String × Col) → Prop
  | add config, d, d' => ∃ cols, Forall₂ (kind.make capacity) (newProperties kind config) cols ∧
      d' = d ++ (config.map Prod.fst).zip cols
  | rename config, d, d' => d' = renameEntries config d
  | delete config, d, d' => d' = remaining config d

/-- A request fails and changes nothing, or it is applied to the dictionary that schema and
table represent. -/
def PropertyRequest.Correct (kind : ColumnKind DataType Value Col)
    (s : LabelProperties DataType Value Col) (d : List (String × Col))
    (request : PropertyRequest Value) : Prop :=
  (∃ e, request.run kind s = .failed e s) ∨
    ∃ s' d', request.run kind s = .done s' ∧ request.Applies kind s.capacity d d' ∧
      s'.Represents d'

def LabelProperties.PendingOn (s : LabelProperties DataType Value Col) (prop : String) : Prop :=
  ∃ index ∈ s.pending, prop ∈ index.properties

/-- Requests that are rejected by a check, or meet no name in use, no column that cannot be made
and no index that is not loaded. -/
def PropertyRequest.Sound (kind : ColumnKind DataType Value Col)
    (s : LabelProperties DataType Value Col) : PropertyRequest Value → Prop
  | add config =>
    (∃ p ∈ config, s.schema.hasProperty p.1 = true) ∨
      (config.map Prod.fst).Nodup ∧
        ∃ cols, Forall₂ (kind.make s.capacity) (newProperties kind config) cols
  | rename config =>
    (∃ r ∈ config, s.schema.hasProperty r.1 = false) ∨
      RenamesApart s.schema.propertyNames config ∧
        s.schema.primaryKey ∉ s.schema.propertyNames.map (renamed config) ∧
        ((∀ r ∈ config, r.1 ≠ r.2 → ¬ s.PendingOn r.1) ∨
          s.schema.propertyNames.map (renamed config) = s.schema.propertyNames)
  | delete config =>
    (∃ name ∈ config, s.schema.hasProperty name = false) ∨ s.schema.primaryKey ∈ config ∨
      ∀ name ∈ config, ¬ s.PendingOn name

theorem LabelProperties.accessIndexes_state (s : LabelProperties DataType Value Col)
    (prop : String) : (s.accessIndexes prop).state = s := by
  unfold accessIndexes
  split <;> rfl

theorem LabelProperties.accessIndexes_eq_done {s : LabelProperties DataType Value Col}
    {prop : String} : s.accessIndexes prop = .done s ↔ ¬ s.PendingOn prop := by
  unfold accessIndexes
  cases hfind : s.pending.find? fun index => index.properties.contains prop with
  | none =>
    simp only [true_iff]
    rintro ⟨index, hindex, hprop⟩
    have hnot := find?_eq_none.mp hfind index hindex
    simp [hprop] at hnot
  | some index =>
    have hprop := find?_some hfind
    simp only [reduceCtorEq, false_iff, not_not]
    exact ⟨index, mem_of_find?_eq_some hfind, by simpa using hprop⟩

/-! ## Adding -/

namespace LabelProperties

section

variable (h : s.Represents d)
include h

/-- Fresh and distinct names extend what schema and table represent. -/
theorem Represents.addProperties (kind : ColumnKind DataType Value Col)
    {config : List (String × Value)} {cols : List Col}
    (hfresh : ∀ p ∈ config, ¬ s.schema.hasProperty p.1 = true)
    (hnodup : (config.map Prod.fst).Nodup) (hlen : config.length = cols.length) :
    Represents
      { s with
        schema := s.schema.addProperties (newProperties kind config)
        table := ⟨s.table.colNames ++ config.map Prod.fst,
          emplaceAll s.table.colIdMap (config.map Prod.fst) s.table.colNames.length,
          s.table.columns ++ cols.map some⟩ }
      (d ++ (config.map Prod.fst).zip cols) := by
  have hlen' : (config.map Prod.fst).length = cols.length := by rw [length_map, hlen]
  have hfst : (d ++ (config.map Prod.fst).zip cols).map Prod.fst =
      d.map Prod.fst ++ config.map Prod.fst := by
    rw [map_append, map_fst_zip (Nat.le_of_eq hlen')]
  have hnew : ∀ name ∈ config.map Prod.fst,
      name ≠ s.schema.primaryKey ∧ name ∉ d.map Prod.fst := by
    intro name hname
    obtain ⟨p, hp, rfl⟩ := mem_map.mp hname
    have hnot := hfresh p hp
    rw [h.schema.hasProperty_iff, not_or] at hnot
    exact hnot
  have hall : (d.map Prod.fst ++ config.map Prod.fst).Nodup :=
    h.distinct.append hnodup fun name hold hname => (hnew name hname).2 hold
  refine ⟨?_, ?_, ?_, ?_⟩
  · rw [hfst, ← map_name_newProperties kind]
    exact h.schema.addProperties _
  · exact h.table.append hlen' hall
  · rw [hfst]
    exact hall
  · rw [hfst, mem_append, not_or]
    exact ⟨h.primaryKey, fun hmem => (hnew _ hmem).1 rfl⟩

theorem Represents.correct_add_iff (config : List (String × Value)) :
    (add config).Correct kind s d ↔ (add config).Sound kind s := by
  have hlen : s.table.colNames.length = s.table.columns.length := by
    simp [h.table.colNames, h.table.columns]
  unfold PropertyRequest.Correct PropertyRequest.Sound
  simp only [run, addVertexProperties]
  cases hfind : config.find? fun p => s.schema.hasProperty p.1 with
  | some p =>
    have hp := find?_some hfind
    have hmem := mem_of_find?_eq_some hfind
    exact iff_of_true (.inl ⟨_, rfl⟩) (.inl ⟨p, hmem, hp⟩)
  | none =>
    have hfresh : ∀ p ∈ config, ¬ s.schema.hasProperty p.1 = true := find?_eq_none.mp hfind
    constructor
    · intro hcorrect
      right
      cases hadd : s.table.addColumns kind s.capacity (newProperties kind config) with
      | done t =>
        obtain ⟨cols, hmake⟩ := make_of_addColumns hlen hadd
        refine ⟨?_, cols, hmake⟩
        rw [newProperties] at hadd
        rcases hcorrect with ⟨e, hfailed⟩ | ⟨s', d', hdone, -, hrep⟩
        · simp only [hadd, lift, reduceCtorEq] at hfailed
        · simp only [hadd, lift, done.injEq] at hdone
          subst hdone
          have hnames := hrep.schema.propertyNames
          have hdistinct := hrep.distinct
          rw [← hnames] at hdistinct
          rw [← map_name_newProperties kind]
          exact hdistinct.of_append_right
      | failed e t =>
        -- the schema has grown, so that nothing has changed only if nothing was added
        rw [newProperties] at hadd
        rcases hcorrect with ⟨e', hfailed⟩ | ⟨s', d', hdone, -, -⟩
        · simp only [hadd, lift, failed.injEq] at hfailed
          have hsame := congrArg (fun s => s.schema.propertyNames) hfailed.2
          simp only [VertexSchema.addProperties, append_right_eq_self, map_eq_nil_iff] at hsame
          subst hsame
          exact ⟨nodup_nil, [], .nil⟩
        · simp only [hadd, lift, reduceCtorEq] at hdone
    · rintro (⟨p, hp, hhas⟩ | ⟨hnodup, cols, hmake⟩)
      · exact absurd hhas (hfresh p hp)
      · right
        have hadd := addColumns_of_make hlen hmake
        rw [map_name_newProperties] at hadd
        have hcount : config.length = cols.length := by
          simpa [newProperties] using hmake.length_eq
        refine ⟨_, _, ?_, ⟨cols, hmake, rfl⟩,
          h.addProperties kind hfresh hnodup hcount⟩
        rw [newProperties] at hadd
        simp only [hadd, lift]
        rfl

/-! ## Renaming -/

def renameAll (s : LabelProperties DataType Value Col) (config : List (String × String)) :
    LabelProperties DataType Value Col :=
  { s with
    schema := s.schema.renameProperties config
    table := config.foldl (fun t r => t.renameColumn r.1 r.2) s.table }

variable {config : List (String × String)}

/-- Renames that keep apart give each entry its new name. -/
theorem Represents.renameAll (hapart : RenamesApart (d.map Prod.fst) config)
    (hkey : s.schema.primaryKey ∉ (d.map Prod.fst).map (renamed config)) :
    (s.renameAll config).Represents (renameEntries config d) := by
  obtain ⟨hnames, hholds, hnodup⟩ :=
    h.table.renameLoops config h.distinct h.schema.softDeleted hapart
  refine ⟨⟨?_, ?_, ?_, ?_⟩, hholds, hnodup, ?_⟩
  · rw [← hnames, ← h.schema.propertyNames]
    rfl
  · exact h.schema.propertyTypes.trans (by simp [renameEntries])
  · exact h.schema.defaults.trans (by simp [renameEntries])
  · exact h.schema.softDeleted.trans (by simp [renameEntries])
  · rw [map_fst_renameEntries]
    exact hkey

/-- If the label is still represented, the renames kept apart. -/
theorem Represents.apart {d' : List (String × Col)}
    (h' : (s.renameAll config).Represents d') : RenamesApart (d.map Prod.fst) config := by
  apply h.table.apart_of_covers config h.distinct
  intro id hid
  apply h'.table.covers
  have hlen := (foldl_renameColumn_back config s.table).1
  have hnames' := congrArg List.length h'.table.colNames
  have hnames := congrArg List.length h.table.colNames
  rw [length_map] at hnames hnames'
  change (config.foldl (fun t r => t.renameColumn r.1 r.2) s.table).colNames.length = _ at hnames'
  omega

theorem Represents.renameAll_eq_self (hapart : RenamesApart (d.map Prod.fst) config)
    (hkey : s.schema.primaryKey ∉ (d.map Prod.fst).map (renamed config))
    (hsame : (d.map Prod.fst).map (renamed config) = d.map Prod.fst) : s.renameAll config = s := by
  have hrep := h.renameAll hapart hkey
  have hentries : renameEntries config d = d := by
    rw [map_map, map_inj_left] at hsame
    conv_rhs => rw [← map_id d]
    apply map_congr_left
    intro e he
    exact Prod.ext (hsame e he) rfl
  rw [hentries] at hrep
  have htable : (s.renameAll config).table = s.table := hrep.table.unique h.table
  have hnames : (s.renameAll config).schema.propertyNames = s.schema.propertyNames :=
    hrep.schema.propertyNames.trans h.schema.propertyNames.symm
  have hschema : (s.renameAll config).schema =
      { s.schema with propertyNames := (s.renameAll config).schema.propertyNames } := rfl
  rw [hnames] at hschema
  have hlabel : s.renameAll config =
      { s with schema := (s.renameAll config).schema, table := (s.renameAll config).table } := rfl
  rw [hlabel, hschema, htable]

omit h in
theorem accessRenamed_state (s : LabelProperties DataType Value Col) (r : String × String) :
    ((if r.1 = r.2 then .done s else s.accessIndexes r.1 :
      Attempt PropertyError (LabelProperties DataType Value Col))).state = s := by
  split
  · rfl
  · exact s.accessIndexes_state r.1

theorem Represents.correct_rename_iff (config : List (String × String)) :
    (rename config).Correct kind s d ↔ (rename config).Sound kind s := by
  unfold PropertyRequest.Correct PropertyRequest.Sound
  simp only [run, renameVertexProperties]
  cases hfind : config.find? fun r => !s.schema.hasProperty r.1 with
  | some r =>
    exact iff_of_true (.inl ⟨_, rfl⟩)
      (.inl ⟨r, mem_of_find?_eq_some hfind, by simpa using find?_some hfind⟩)
  | none =>
    have hmissing : ¬∃ r ∈ config, s.schema.hasProperty r.1 = false := by simpa using hfind
    -- the indexes are looked up after the renames
    change ((∃ e, forEach _ config (s.renameAll config) = .failed e s) ∨
      ∃ s' d', forEach _ config (s.renameAll config) = .done s' ∧ _) ↔ _
    have hpending : (∀ r ∈ config, (if r.1 = r.2 then .done (s.renameAll config)
        else (s.renameAll config).accessIndexes r.1) = .done (s.renameAll config)) ↔
          ∀ r ∈ config, r.1 ≠ r.2 → ¬ s.PendingOn r.1 := by
      refine forall₂_congr fun r _ => ?_
      by_cases hsame : r.1 = r.2
      · simp [hsame]
      · simp only [hsame, if_false, accessIndexes_eq_done, ne_eq, not_false_eq_true, true_implies]
        rfl
    simp only [hmissing, false_or, h.schema.propertyNames, ← hpending]
    rcases forEach_readOnly accessRenamed_state config (s.renameAll config) with
      ⟨hrun, hfree⟩ | ⟨e, hrun, hfree⟩
    · rw [hrun]
      constructor
      · rintro (⟨e, hfailed⟩ | ⟨s', d', hok, rfl, hrep⟩)
        · cases hfailed
        · cases hok
          have hkey := hrep.primaryKey
          rw [map_fst_renameEntries] at hkey
          exact ⟨h.apart hrep, hkey, .inl hfree⟩
      · rintro ⟨hapart, hkey, -⟩
        exact .inr ⟨_, _, rfl, rfl, h.renameAll hapart hkey⟩
    · rw [hrun]
      constructor
      · rintro (⟨e', hfailed⟩ | ⟨s', d', hok, -⟩)
        · -- an index stopped the request, and yet nothing has changed
          have hself : s.renameAll config = s := (failed.inj hfailed).2
          have hapart := h.apart (hself.symm ▸ h)
          have hnames := (h.table.renameLoops config h.distinct h.schema.softDeleted hapart).1
          have hfold : config.foldl
              (fun names r => VertexSchema.renameFirst r.1 r.2 names s.schema.vpropSoftDeleted)
              s.schema.propertyNames = _ := congrArg (fun s => s.schema.propertyNames) hself
          rw [h.schema.propertyNames, hnames, map_fst_renameEntries] at hfold
          refine ⟨hapart, ?_, .inr hfold⟩
          rw [hfold]
          exact h.primaryKey
        · cases hok
      · rintro ⟨hapart, hkey, hfree' | hsame⟩
        · exact absurd hfree' hfree
        · rw [h.renameAll_eq_self hapart hkey hsame]
          exact .inl ⟨e, rfl⟩

/-! ## Deleting -/

def deleteAll (s : LabelProperties DataType Value Col) (config : List String) :
    LabelProperties DataType Value Col :=
  { s with
    schema := config.foldl VertexSchema.deleteProperty s.schema
    table := config.foldl deleteColumn s.table }

theorem Represents.deleteAll (config : List String) :
    (s.deleteAll config).Represents (remaining config d) := by
  obtain ⟨hlists, hkey, hholds⟩ := deleteLoops config h.schema h.table h.distinct
  refine ⟨hlists, hholds, nodup_filter_fst _ h.distinct, ?_⟩
  intro hmem
  rw [LabelProperties.deleteAll, hkey] at hmem
  exact h.primaryKey ((filter_sublist.map Prod.fst).subset hmem)

theorem Represents.correct_delete_iff (config : List String) : (delete config).Correct kind s d ↔
      (delete config).Sound kind s := by
  unfold PropertyRequest.Correct PropertyRequest.Sound
  simp only [run]
  cases hfind : config.find? fun name => !s.schema.hasProperty name with
  | some name =>
    exact iff_of_true (.inl ⟨_, rfl⟩)
      (.inl ⟨name, mem_of_find?_eq_some hfind, by simpa using find?_some hfind⟩)
  | none =>
    have hmissing : ¬∃ name ∈ config, s.schema.hasProperty name = false := by simpa using hfind
    have hfound : ∀ name ∈ config, name = s.schema.primaryKey ∨ name ∈ d.map Prod.fst := by
      intro name hname
      rw [← h.schema.hasProperty_iff]
      simpa using find?_eq_none.mp hfind name hname
    have hfind' : config.find? (fun name => !s.schema.hasPropertyInternal name) = none := by
      apply find?_eq_none.mpr
      intro name hname
      simp [(h.schema.hasPropertyInternal_iff name).mpr (hfound name hname)]
    simp only [deleteVertexProperties, hfind']
    by_cases hkey : s.schema.primaryKey ∈ config
    · rw [if_pos hkey]
      exact iff_of_true (.inl ⟨_, rfl⟩) (.inr (.inl hkey))
    -- the indexes are looked up after the deletions
    rw [if_neg hkey]
    change ((∃ e, forEach _ config (s.deleteAll config) = .failed e s) ∨
      ∃ s' d', forEach _ config (s.deleteAll config) = .done s' ∧ _) ↔ _
    have hpending : (∀ name ∈ config, (s.deleteAll config).accessIndexes name =
        .done (s.deleteAll config)) ↔ ∀ name ∈ config, ¬ s.PendingOn name :=
      forall₂_congr fun name _ => accessIndexes_eq_done
    simp only [hmissing, hkey, false_or, ← hpending]
    rcases forEach_readOnly accessIndexes_state config (s.deleteAll config) with
      ⟨hrun, hfree⟩ | ⟨e, hrun, hfree⟩
    · rw [hrun]
      exact iff_of_true (.inr ⟨_, _, rfl, rfl, h.deleteAll config⟩) hfree
    · rw [hrun]
      refine iff_of_false ?_ hfree
      rintro (⟨e', hfailed⟩ | ⟨_, _, hok, -⟩)
      · -- an index stopped the request, so that a property was there to delete
        have hself : s.deleteAll config = s := (failed.inj hfailed).2
        obtain ⟨name, hname⟩ := exists_mem_of_ne_nil config (by rintro rfl; cases hrun)
        have hin := (hfound name hname).resolve_left fun heq => hkey (heq ▸ hname)
        have hout := (h.deleteAll config).schema.propertyNames
        rw [hself, h.schema.propertyNames] at hout
        rw [hout] at hin
        obtain ⟨e, he, rfl⟩ := mem_map.mp hin
        exact absurd hname (by simpa using (mem_filter.mp he).2)
      · cases hok

end

end LabelProperties

/-! ## Runs -/

section Runs

variable (kind : ColumnKind DataType Value Col)

/-- What happens to a label: requests, and between them other operations that write to the
columns, let the label grow and change the pending indexes. -/
inductive PropertyStep (s : LabelProperties DataType Value Col) :
    LabelProperties DataType Value Col → Prop
  | request (r : PropertyRequest Value) (hsound : r.Sound kind s) :
      PropertyStep s (r.run kind s).state
  | write (cols : List Col) (capacity : Nat) (pending : List PendingIndex)
      (hcount : cols.length = s.table.columns.length) :
      PropertyStep s ⟨s.schema, { s.table with columns := cols.map some }, capacity, pending⟩

end Runs

variable (kind) in
/-- Each request is correct exactly if it is sound. -/
theorem LabelProperties.Represents.correct_iff (h : s.Represents d) (r : PropertyRequest Value) :
    r.Correct kind s d ↔ r.Sound kind s := by
  cases r with
  | add config => exact h.correct_add_iff config
  | rename config => exact h.correct_rename_iff config
  | delete config => exact h.correct_delete_iff config

/-- Other operations keep the names. -/
theorem LabelProperties.Represents.write (h : s.Represents d) {cols : List Col}
    (capacity : Nat) (pending : List PendingIndex) (hcount : cols.length = s.table.columns.length) :
    Represents ⟨s.schema, { s.table with columns := cols.map some }, capacity, pending⟩
      ((d.map Prod.fst).zip cols) := by
  have hlen : (d.map Prod.fst).length = cols.length := by
    rw [hcount, h.table.columns, length_map, length_map]
  have hfst := map_fst_zip (Nat.le_of_eq hlen)
  have hsnd := map_snd_zip (Nat.le_of_eq hlen.symm)
  obtain ⟨hschema, ⟨hnames, -, hmap⟩, hdistinct, hkey⟩ := h
  rw [← hfst] at hschema hnames hmap hdistinct hkey
  refine ⟨hschema, ⟨hnames, ?_, hmap⟩, hdistinct, hkey⟩
  conv_lhs => rw [← hsnd]
  rw [map_map]
  rfl

/-- A step leaves a label whose schema and table agree. -/
theorem PropertyStep.represents (hstep : PropertyStep kind s s') (h : s.Represents d) :
    ∃ d', s'.Represents d' := by
  cases hstep with
  | request r hsound =>
    rcases (h.correct_iff kind r).mpr hsound with ⟨e, hfailed⟩ | ⟨s', d', hdone, -, hrep⟩
    · rw [hfailed]
      exact ⟨d, h⟩
    · rw [hdone]
      exact ⟨d', hrep⟩
  | write cols capacity pending hcount => exact ⟨_, h.write capacity pending hcount⟩

/-- From a label whose schema and table agree, and as long as requests meet no name in use, no
column that cannot be made and no index that is not loaded, schema and table agree, and a
request fails without a change or is applied exactly under that condition. -/
theorem PropertyRequest.correct_iff_sound
    (hreach : Reachable (fun s => ∃ d, s.Represents d) (PropertyStep kind) s) :
    ∃ d, s.Represents d ∧ ∀ r : PropertyRequest Value, r.Correct kind s d ↔ r.Sound kind s := by
  have hinv : ∃ d, s.Represents d :=
    Reachable.invariant (fun s => ∃ d, LabelProperties.Represents s d) (fun _ hinit => hinit)
      (fun _ _ _ ⟨_, h⟩ hstep => PropertyStep.represents hstep h) hreach
  obtain ⟨d, hrep⟩ := hinv
  exact ⟨d, hrep, hrep.correct_iff kind⟩

/-! ## A label with two properties -/

def numberColumns : ColumnKind Unit Nat (List Nat) where
  typeOf _ := ()
  createColumn _ := .ok []
  resize col n v := .ok (col.take n ++ replicate (n - col.length) v)

def twoProperties : LabelProperties Unit Nat (List Nat) where
  schema := ⟨"person", "id", 0, ["a", "b"], [(), ()], [0, 0], [false, false]⟩
  table :=
    { colNames := ["a", "b"]
      colIdMap := fun name => ["a", "b"].idxOf? name
      columns := [some [1, 2], some [3, 4]] }
  capacity := 2
  pending := []

theorem twoProperties_represents : twoProperties.Represents [("a", [1, 2]), ("b", [3, 4])] := by
  refine ⟨⟨rfl, rfl, rfl, rfl⟩, ⟨rfl, rfl, ?_⟩, by decide, by decide⟩
  intro name id
  exact idxOf?_eq_some_iff_of_nodup (by decide)

/-- Two renames in one request, the second to the name that the first has freed. -/
theorem correct_iff_sound_twoProperties :
    ∃ s, (rename [("a", "c"), ("b", "a")]).run numberColumns twoProperties = .done s ∧
      s.schema.propertyNames = ["c", "a"] ∧ ∃ d, s.Represents d ∧
        ∀ r : PropertyRequest Nat, r.Correct numberColumns s d ↔ r.Sound numberColumns s := by
  refine ⟨_, rfl, rfl, correct_iff_sound ?_⟩
  refine (Reachable.of_init ⟨_, twoProperties_represents⟩).tail ?_
  refine .request (.rename [("a", "c"), ("b", "a")]) (.inr ⟨?_, by decide, .inl ?_⟩)
  · simp [RenamesApart, twoProperties, rekey]
  · simp [LabelProperties.PendingOn, twoProperties]

/-- A rename to a name in use succeeds.  Both properties then have that name, and the values of
the first one are lost. -/
theorem rename_to_used_not_correct :
    ∃ s, (rename [("a", "b")]).run numberColumns twoProperties = .done s ∧
      s.schema.propertyNames = ["b", "b"] ∧ twoProperties.table.getColumn "a" = some [1, 2] ∧
      s.table.getColumn "b" = some [3, 4] ∧ s.table.getColumn "a" = none ∧
      ¬ (rename [("a", "b")]).Correct numberColumns twoProperties
        [("a", [1, 2]), ("b", [3, 4])] := by
  refine ⟨_, rfl, rfl, rfl, rfl, rfl, ?_⟩
  rintro (⟨e, hfailed⟩ | ⟨s', d', hdone, -, hrep⟩)
  · cases hfailed
  · cases hdone
    have hdistinct := hrep.distinct
    rw [← hrep.schema.propertyNames] at hdistinct
    exact absurd hdistinct (by decide)

end Neug.Storage
