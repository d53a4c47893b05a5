import Neug.Storage.EdgeTableLayout

/-! # Changes of edge properties

Adding and deleting properties moves an edge table between its layouts.  The edges and the
values of the other properties are kept, and new properties have their defaults, as long as
what is exported is all that a reader can see.
-/

namespace Neug.Storage

open Library Function Column Table List EdgeTable

/-! ## Requests -/

/-- A request to change the properties of an edge table. -/
inductive PropertyChange where
  | add (types : List DataType) (oldDefaults defaults : List Value)
  | delete (cols : List Nat)

/-- A value that can be declared as the default of a property. -/
def Declares (t : DataType) (default : Value) : Prop :=
  t ≠ .empty ∧ default.HasType t ∧ default ≠ .null

def KeptAs (types : List DataType) (defaults : List Value) : Prop :=
  ∀ p ∈ types.zip defaults, stored p.1 p.2 = some p.2

namespace PropertyChange

def run (et : EdgeTable) : PropertyChange → Except EdgeError EdgeTable
  | add types oldDefaults defaults => et.addProperties types oldDefaults defaults
  | delete cols => et.deleteProperties cols

def effect : PropertyChange → List Value → List Value
  | add _ _ defaults, values => values ++ defaults
  | delete cols, values => others cols values

/-- What the schema guarantees of a request: defaults are values of their types, and deleted
properties exist. -/
def Declared (et : EdgeTable) : PropertyChange → Prop
  | add types oldDefaults defaults =>
    Forall₂ Declares et.properties oldDefaults ∧ Forall₂ Declares types defaults
  | delete cols => ∀ col ∈ cols, col < et.properties.length

/-- The request succeeds, readers see the same edges, and the values of an edge are those it
had, with the defaults of the new properties or without the deleted ones. -/
def Keeps (change : PropertyChange) (et : EdgeTable) (ts : Nat) : Prop :=
  ∃ et', change.run et = .ok et' ∧ et.Reads ts change.effect et'

def Rebuilds (et : EdgeTable) : PropertyChange → Prop
  | add types _ _ => types ≠ [] ∧ et.table = []
  | delete cols =>
    if et.isBundled then et.properties ≠ [] ∧ 0 ∈ cols
    else isBundled { et with properties := others cols et.properties } = true

/-- If the layout changes, all that a reader sees is exported.  New defaults can be cut to the
width of their columns, and need not be if there is an edge to see. -/
def Sound (et : EdgeTable) (ts : Nat) (change : PropertyChange) : Prop :=
  (change.Rebuilds et → et.Exports ts) ∧
    match change with
    | add types _ defaults =>
      (∀ p ∈ types.zip defaults, stored p.1 p.2 ≠ none) ∧
        (et.Seen ts → KeptAs types defaults)
    | delete _ => True

theorem keeps_iff (change : PropertyChange) {et et' : EdgeTable} (hrun : change.run et = .ok et')
    (ts : Nat) : change.Keeps et ts ↔ et.Reads ts change.effect et' := by
  constructor
  · rintro ⟨et'', hrun', hreads⟩
    cases hrun.symm.trans hrun'
    exact hreads
  · exact fun hreads => ⟨et', hrun, hreads⟩

end PropertyChange

/-! ### Adding -/

def keptDefaults (types : List DataType) (defaults : List Value) : List Value :=
  zipWith keeps types defaults

theorem keptDefaults_eq_iff {types : List DataType} {defaults : List Value}
    (hlen : types.length = defaults.length)
    (hstored : ∀ p ∈ types.zip defaults, stored p.1 p.2 ≠ none) :
    keptDefaults types defaults = defaults ↔ KeptAs types defaults := by
  have hsnd : (types.zip defaults).map Prod.snd = defaults :=
    map_snd_zip (Nat.le_of_eq hlen.symm)
  have hzip : keptDefaults types defaults =
      (types.zip defaults).map fun p => keeps p.1 p.2 := by
    rw [keptDefaults, zip_eq_zipWith, map_zipWith]
  rw [hzip]
  conv_lhs => rhs; rw [← hsnd]
  rw [map_inj_left]
  apply forall₂_congr
  intro p hp
  rw [stored_eq_keeps (hstored p hp), Option.some.injEq]

/-- Two ways to extend the values of edges differ on any edge. -/
theorem map_append_eq_iff {kept defaults : List Value} (hlen : kept.length = defaults.length)
    (s : Multiset (Nat × Nat × List Value)) :
    s.map (withValues (· ++ kept)) = s.map (withValues (· ++ defaults)) ↔
      (s ≠ 0 → kept = defaults) := by
  constructor
  · intro hsame hsome
    obtain ⟨e, he⟩ := Multiset.exists_mem_of_ne_zero hsome
    have hmem := Multiset.mem_map_of_mem (withValues (· ++ kept)) he
    rw [hsame] at hmem
    obtain ⟨e', -, heq⟩ := Multiset.mem_map.mp hmem
    have hvalues : e'.2.2 ++ defaults = e.2.2 ++ kept := congrArg (fun e => e.2.2) heq
    exact (append_inj_right' hvalues hlen.symm).symm
  · intro heq
    by_cases hnone : s = 0
    · rw [hnone]
      rfl
    · rw [heq hnone]

namespace EdgeTable

variable {et et' : EdgeTable} {ts : Nat} {types : List DataType} {oldDefaults defaults : List Value}

def extended (et : EdgeTable) (types : List DataType) : EdgeTable :=
  { et with properties := et.properties ++ types }

theorem addProperties_of_table_nil (htypes : types ≠ []) (htable : et.table = []) :
    et.addProperties types oldDefaults defaults = if (et.extended types).isBundled then
        .ok ((et.extended types).newBundledCsr ((oldDefaults ++ defaults).headD .null))
      else (et.extended types).newUnbundledCsr (et.properties ≠ []) (oldDefaults ++ defaults) := by
  rw [addProperties]
  simp only [if_neg htypes, if_pos htable]
  rfl

/-- The first new property of edges that have none becomes inline data. -/
theorem WellLaid.addProperties_bundled (h : et.WellLaid) (hts : ts < kDeletedTimestamp)
    (htypes : types ≠ []) (htable : et.table = []) (hbundled : (et.extended types).isBundled = true)
    (hold : Forall₂ Declares et.properties oldDefaults) (hnew : Forall₂ Declares types defaults) :
    ∃ et', et.addProperties types oldDefaults defaults = .ok et' ∧
      et.Rebuilt et' ts (· ++ keptDefaults types defaults) := by
  obtain hnil | ⟨t, hone, hvarchar⟩ := (isBundled_iff _).mp hbundled
  · exact absurd (append_eq_nil_iff.mp hnil).2 htypes
  obtain ⟨hprops, rfl⟩ : et.properties = [] ∧ types = [t] := by
    rcases append_eq_singleton_iff.mp hone with hcase | hcase
    · exact hcase
    · exact absurd hcase.2 htypes
  rw [hprops, forall₂_nil_left_iff] at hold
  obtain ⟨d, rest, ⟨hne, htype, hnull⟩, hrest, rfl⟩ := forall₂_cons_left_iff.mp hnew
  rw [forall₂_nil_left_iff] at hrest
  subst hold hrest
  have hkept : keptDefaults [t] [d] = [d] := by
    cases t with
    | empty => exact absurd rfl hne
    | varchar width => exact absurd rfl (hvarchar width)
    | fixed t => simp [keptDefaults, keeps, stored, hnull]
  refine ⟨(et.extended [t]).newBundledCsr d, ?_, ?_⟩
  · rw [addProperties_of_table_nil htypes htable, if_pos hbundled]
    rfl
  · rw [hkept]
    apply h.rebuilt_exportWith (et.extended [t]).withoutTable rfl rfl hts fun _ => d
    intro e _
    have hinline : (et.extended [t]).withoutTable.isBundled = true := hbundled
    rw [values_of_bundled hinline, values_of_bundled (h.isBundled_of_table.mpr htable)]
    simp [withoutTable, extended, hprops]

/-! #### New rows -/

theorem newColumns_false (et : EdgeTable) : et.newColumns false = et.properties.map fresh := by
  rw [newColumns]
  split
  · simp
  · rfl

/-- A fresh column is filled from its first row on. -/
theorem grownRow_fresh (types : List DataType) (defaults : List Value) (i : Nat) :
    grownRow (types.map fresh) defaults i = keptDefaults types defaults := by
  rw [grownRow, keptDefaults, zipWith_map_left]
  rfl

variable {i : Nat}

theorem filled_getAny {t : FixedType} {values : List Value} {v : Value} (hv : values[i]? = some v) :
    i < (filled (.fixed t) values).size ∧ (filled (.fixed t) values).getAny i = v := by
  obtain ⟨hlt, -⟩ := List.getElem?_eq_some_iff.mp hv
  refine ⟨hlt, ?_⟩
  change values.getD i _ = v
  rw [getD_eq_getElem?_getD, hv]
  rfl

/-- Rows that a table has do not change when it grows. -/
theorem grownRow_of_lt {table : List Column} (hlen : table.length = defaults.length)
    (hsizes : ∀ c ∈ table, i < c.size) : grownRow table defaults i = row table i := by
  induction table generalizing defaults with
  | nil =>
    rfl
  | cons c rest ih =>
    cases defaults with
    | nil => cases hlen
    | cons d defaults =>
      rw [grownRow, zipWith_cons_cons, if_pos (hsizes c mem_cons_self)]
      exact congrArg _ (ih (Nat.succ.inj hlen) fun c' hc' =>
        hsizes c' (mem_cons_of_mem c hc'))

theorem ensureCapacity_rows {n capacity : Nat}
    (hfills : Forall₂ (fun c d => Fills (type c) d) et.table defaults)
    (hsizes : ∀ c ∈ et.table, c.size = n) (hn : n ≤ capacity) :
    ∃ et', et.ensureCapacity capacity defaults = .ok et' ∧ et'.properties = et.properties ∧
      et'.outCsr = et.outCsr ∧ et'.inCsr = et.inCsr ∧
      ∀ i < n, row et'.table i = row et.table i := by
  unfold ensureCapacity
  by_cases hcapacity : et.isBundled = true ∨ capacity ≤ et.capacity
  · rw [if_pos hcapacity]
    exact ⟨et, rfl, rfl, rfl, rfl, fun _ _ => rfl⟩
  · rw [if_neg hcapacity]
    obtain ⟨table', htable', hgrown⟩ := resize_grown (max capacity 4096) hfills
    rw [htable']
    refine ⟨_, rfl, rfl, rfl, rfl, fun i hi => ?_⟩
    have him : i < max capacity 4096 :=
      Nat.lt_of_lt_of_le (Nat.lt_of_lt_of_le hi hn) (Nat.le_max_left _ _)
    rw [hgrown.rows i him]
    exact grownRow_of_lt hfills.length_eq fun c hc => by rw [hsizes c hc]; exact hi

theorem stored_ne_none (hbundled : et.isBundled = true) {t : DataType} (ht : t ∈ et.properties)
    (v : Value) : stored t v ≠ none := by
  obtain hnil | ⟨t, hone, hvarchar⟩ := (isBundled_iff et).mp hbundled
  · rw [hnil] at ht
    cases ht
  · rw [hone, mem_singleton] at ht
    subst ht
    cases t with
    | varchar width => exact absurd rfl (hvarchar width)
    | empty => exact Option.some_ne_none _
    | fixed t => exact Option.some_ne_none _

theorem fills_of_stored (hnew : Forall₂ Declares types defaults)
    (hstored : ∀ p ∈ types.zip defaults, stored p.1 p.2 ≠ none) : Forall₂ Fills types defaults := by
  induction hnew with
  | nil => exact .nil
  | @cons t d types defaults hd hrest ih =>
    rw [zip_cons_cons, forall_mem_cons] at hstored
    exact .cons ⟨hd.1, hd.2.1, hstored.1⟩ (ih hstored.2)

theorem stored_of_bundled (hbundled : et.isBundled = true)
    (hold : Forall₂ Declares et.properties oldDefaults) :
    Forall₂ Fills et.properties oldDefaults :=
  fills_of_stored hold fun _ hp => stored_ne_none hbundled (of_mem_zip hp).1 _

/-- The new columns, with the inline data in front if there was any. -/
theorem newColumns_extended (hbundled : et.isBundled = true) (hnoEmpty : .empty ∉ et.properties) :
    (et.extended types).newColumns (decide (et.properties ≠ [])) =
        (et.extended types).properties.map fresh ∧ et.properties = [] ∨
      ∃ t, et.properties = [.fixed t] ∧
        (et.extended types).newColumns (decide (et.properties ≠ [])) =
          filled (.fixed t) (et.outCsr.batchExport.map fun e => e.2.data) :: types.map fresh := by
  obtain hnil | ⟨t, hone, hvarchar⟩ := (isBundled_iff et).mp hbundled
  · left
    rw [hnil]
    exact ⟨newColumns_false _, rfl⟩
  · right
    cases t with
    | empty =>
      rw [hone] at hnoEmpty
      exact absurd mem_cons_self hnoEmpty
    | varchar width => exact absurd rfl (hvarchar width)
    | fixed t =>
      refine ⟨t, hone, ?_⟩
      rw [newColumns, extended, hone]
      rfl

theorem map_type_fresh (types : List DataType) : (types.map fresh).map type = types := by
  rw [map_map]
  exact map_id types

theorem newColumns_types (hbundled : et.isBundled = true) (hnoEmpty : .empty ∉ et.properties) :
    ((et.extended types).newColumns (decide (et.properties ≠ []))).map type =
      (et.extended types).properties := by
  rcases newColumns_extended hbundled hnoEmpty with ⟨hcolumns, -⟩ | ⟨t, hone, hcolumns⟩
  · rw [hcolumns, map_type_fresh]
  · rw [hcolumns, map_cons, map_type_fresh, extended, hone]
    rfl

/-- A row of the new columns: the inline data of its edge, and the new defaults. -/
theorem grownRow_newColumns (hbundled : et.isBundled = true) (hnoEmpty : .empty ∉ et.properties)
    (hold : et.properties.length = oldDefaults.length) {e : Nat × Nbr}
    (he : et.outCsr.batchExport[i]? = some e) :
    grownRow ((et.extended types).newColumns (decide (et.properties ≠ [])))
      (oldDefaults ++ defaults) i = et.values e.2.data ++ keptDefaults types defaults := by
  rw [values_of_bundled hbundled]
  rcases newColumns_extended hbundled hnoEmpty with ⟨hcolumns, hnil⟩ | ⟨t, hone, hcolumns⟩
  · rw [hnil, length_nil] at hold
    rw [hcolumns, length_eq_zero_iff.mp hold.symm, grownRow_fresh, extended, hnil, if_pos rfl]
    rfl
  · have hdata : (et.outCsr.batchExport.map fun e => e.2.data)[i]? = some e.2.data := by
      rw [getElem?_map, he]
      rfl
    obtain ⟨hlt, hget⟩ := @filled_getAny _ t _ _ hdata
    rw [hone] at hold
    obtain ⟨d, rfl⟩ := length_eq_one_iff.mp hold.symm
    rw [hcolumns, grownRow, singleton_append, zipWith_cons_cons, if_pos hlt, hget,
      if_neg (by rw [hone]; exact cons_ne_nil _ _)]
    exact congrArg _ (grownRow_fresh types defaults i)

/-- More properties than can be inline go to a property table. -/
theorem WellLaid.addProperties_unbundled (h : et.WellLaid) (hts : ts < kDeletedTimestamp)
    (htypes : types ≠ []) (htable : et.table = []) (hrows : (et.extended types).isBundled = false)
    (hold : Forall₂ Declares et.properties oldDefaults) (hnew : Forall₂ Declares types defaults)
    (hstored : ∀ p ∈ types.zip defaults, stored p.1 p.2 ≠ none) :
    ∃ et', et.addProperties types oldDefaults defaults = .ok et' ∧
      et.Rebuilt et' ts (· ++ keptDefaults types defaults) := by
  have hbundled := h.isBundled_of_table.mpr htable
  have hfills : Forall₂ (fun c d => Fills (type c) d)
      ((et.extended types).newColumns (decide (et.properties ≠ []))) (oldDefaults ++ defaults) := by
    rw [← forall₂_map_left_iff, newColumns_types hbundled h.noEmpty]
    exact rel_append (stored_of_bundled hbundled hold) (fills_of_stored hnew hstored)
  obtain ⟨table, hresize, hgrown⟩ := resize_grown et.outCsr.batchExport.length hfills
  have hfills' : Forall₂ (fun c d => Fills (type c) d) table
      (oldDefaults ++ defaults) := by
    rw [← forall₂_map_left_iff] at hfills ⊢
    rw [hgrown.types]
    exact hfills
  obtain ⟨room, hroom, hprops, hout, hin, hsame⟩ :=
    @ensureCapacity_rows { et.extended types with
      table := table, tableIdx := et.outCsr.batchExport.length } (oldDefaults ++ defaults)
      _ _ hfills' hgrown.sizes le_rfl
  refine ⟨room.rebuild room.exportRows, ?_, ?_⟩
  · have hexport : room.exportRows = (et.extended types).exportRows := by
      rw [exportRows, exportRows, hout]
    rw [addProperties_of_table_nil htypes htable, if_neg (by rw [hrows]; exact Bool.false_ne_true),
      hexport]
    exact bind_eq_ok.mpr ⟨table, mapError_eq_ok.mpr hresize, bind_eq_ok.mpr ⟨room, hroom, rfl⟩⟩
  · apply h.rebuilt_exportRows room hout hin hts
    intro i e he
    obtain ⟨hlt, -⟩ := List.getElem?_eq_some_iff.mp he
    have hroomRows : room.isBundled = false := by
      rw [isBundled, hprops]
      exact hrows
    rw [values_of_rows hroomRows, rowOf_rowData, hsame i hlt, hgrown.rows i hlt]
    exact grownRow_newColumns hbundled h.noEmpty hold.length_eq he

def withColumns (et : EdgeTable) (types : List DataType) (columns : List Column) : EdgeTable :=
  ⟨et.properties ++ types, et.outCsr, et.inCsr, et.table ++ columns, et.tableIdx, et.capacity⟩

theorem addProperties_of_rows (htypes : types ≠ []) (htable : et.table ≠ [])
    (hlen : types.length = defaults.length) : et.addProperties types oldDefaults defaults =
      (((types.map fresh).zip defaults).mapM
        fun p : Column × Value => p.1.resizeDefault (Table.size et.table) p.2).mapError
          EdgeError.column >>= fun columns => .ok (et.withColumns types columns) := by
  rw [addProperties]
  simp only [if_neg htypes, if_neg htable, if_neg (not_not.mpr hlen.symm)]
  rw [zip_map_left, mapM_map]
  rfl

theorem WellLaid.addProperties_rows (h : et.WellLaid) (oldDefaults : List Value)
    (hts : ts < kDeletedTimestamp) (htypes : types ≠ []) (htable : et.table ≠ [])
    (hnew : Forall₂ Declares types defaults)
    (hstored : ∀ p ∈ types.zip defaults, stored p.1 p.2 ≠ none) :
    ∃ et', et.addProperties types oldDefaults defaults = .ok et' ∧
      et.Refitted et' ts (· ++ keptDefaults types defaults) := by
  have hfills : Forall₂ (fun c d => Fills (type c) d) (types.map fresh)
      defaults := by
    rw [forall₂_map_left_iff]
    exact fills_of_stored hnew hstored
  obtain ⟨columns, hcolumns, hgrown⟩ := mapM_resizeDefault (Table.size et.table) hfills
  refine ⟨et.withColumns types columns, ?_, ?_⟩
  · rw [addProperties_of_rows htypes htable hnew.length_eq]
    exact bind_eq_ok.mpr ⟨columns, mapError_eq_ok.mpr hcolumns, rfl⟩
  · have hrows : et.isBundled = false := by
      rw [← Bool.not_eq_true, h.isBundled_of_table]
      exact htable
    have hrows' : (et.withColumns types columns).isBundled = false := by
      have hsome : et.properties ≠ [] := fun hnil => by
        rw [(isBundled_iff et).mpr (.inl hnil)] at hrows
        cases hrows
      simp [← Bool.not_eq_true, isBundled_iff, withColumns, append_eq_singleton_iff, hsome, htypes]
    have hvalues : ∀ data, rowOf data < Table.size et.table →
        (et.withColumns types columns).values data =
          et.values data ++ keptDefaults types defaults := by
      intro data hdata
      rw [values_of_rows hrows', values_of_rows hrows, row, withColumns, map_append]
      have hkept := hgrown.rows (rowOf data) hdata
      rw [grownRow_fresh] at hkept
      exact congrArg _ hkept
    obtain ⟨c, rest, hcons⟩ := exists_cons_of_ne_nil htable
    have hc : c ∈ et.table := by rw [hcons]; exact mem_cons_self
    have hsize : Table.size et.table = c.size := by rw [hcons]; rfl
    refine @refitted_of_values et (et.withColumns types columns) ts _ rfl rfl hts ?_ ?_
    · intro e he
      exact hvalues _ (hsize ▸ h.outRows c hc e he)
    · intro e he
      exact hvalues _ (hsize ▸ h.inRows c hc e he)

/-- Adding succeeds only if the new defaults can be written. -/
theorem WellLaid.stored_of_addProperties (h : et.WellLaid)
    (hold : Forall₂ Declares et.properties oldDefaults) (hnew : Forall₂ Declares types defaults)
    (hadd : et.addProperties types oldDefaults defaults = .ok et') :
    ∀ p ∈ types.zip defaults, stored p.1 p.2 ≠ none := by
  by_cases htypes : types = []
  · rw [htypes, zip_nil_left]
    nofun
  have hfresh : ∀ p ∈ types.zip defaults, (fresh p.1, p.2) ∈
      (types.map fresh).zip defaults := by
    intro p hp
    rw [zip_map_left]
    exact mem_map_of_mem hp
  by_cases htable : et.table = []
  · have hbundled := h.isBundled_of_table.mpr htable
    rw [addProperties_of_table_nil htypes htable] at hadd
    split at hadd
    next hinline =>
      -- inline properties have a fixed width
      have hall := @stored_of_bundled (et.extended types) (oldDefaults ++ defaults) hinline
        (rel_append hold hnew)
      intro p hp
      have hzip : p ∈ (et.extended types).properties.zip (oldDefaults ++ defaults) := by
        rw [extended, zip_append hold.length_eq]
        exact mem_append_right _ hp
      exact ((forall₂_iff_zip.mp hall).2 hzip).2.2
    next =>
      obtain ⟨table, hresize, -⟩ := bind_eq_ok.mp hadd
      have hmapM := mapError_eq_ok.mp hresize
      rw [Table.resize] at hmapM
      split at hmapM
      · cases hmapM
      intro p hp
      refine stored_of_mapM hmapM (fresh p.1, p.2) ?_
      have hlen := hold.length_eq
      rcases newColumns_extended hbundled h.noEmpty with ⟨hcolumns, hnil⟩ | ⟨t, hone, hcolumns⟩
      · rw [hnil] at hlen
        rw [hcolumns, length_eq_zero_iff.mp hlen.symm, extended, hnil]
        exact hfresh p hp
      · rw [hone] at hlen
        obtain ⟨d, rfl⟩ := length_eq_one_iff.mp hlen.symm
        rw [hcolumns]
        exact mem_cons_of_mem _ (hfresh p hp)
  · rw [addProperties_of_rows htypes htable hnew.length_eq] at hadd
    obtain ⟨columns, hcolumns, -⟩ := bind_eq_ok.mp hadd
    intro p hp
    exact stored_of_mapM (mapError_eq_ok.mp hcolumns) _ (hfresh p hp)

theorem length_keptDefaults (hlen : types.length = defaults.length) :
    (keptDefaults types defaults).length = defaults.length := by
  rw [keptDefaults, length_zipWith, hlen, Nat.min_self]

theorem WellLaid.keeps_add_iff (h : et.WellLaid) (hts : ts < kDeletedTimestamp)
    (hdeclared : (PropertyChange.add types oldDefaults defaults).Declared et) :
    (PropertyChange.add types oldDefaults defaults).Keeps et ts ↔
      (PropertyChange.add types oldDefaults defaults).Sound et ts := by
  obtain ⟨hold, hnew⟩ := hdeclared
  have hlen := hnew.length_eq
  have hagree := map_append_eq_iff (length_keptDefaults hlen)
  by_cases hstored : ∀ p ∈ types.zip defaults, stored p.1 p.2 ≠ none
  swap
  · refine iff_of_false ?_ fun hsound => hstored hsound.2.1
    rintro ⟨et', hadd, -⟩
    exact hstored (h.stored_of_addProperties hold hnew hadd)
  have hkept := keptDefaults_eq_iff hlen hstored
  have hsound : (PropertyChange.add types oldDefaults defaults).Sound et ts ↔
      (types ≠ [] ∧ et.table = [] → et.Exports ts) ∧
        (et.Seen ts → keptDefaults types defaults = defaults) := by
    rw [hkept]
    exact and_congr_right fun _ => and_iff_right hstored
  have hkeeps : ∀ {et'}, et.addProperties types oldDefaults defaults = .ok et' →
      ((PropertyChange.add types oldDefaults defaults).Keeps et ts ↔
        et.Reads ts (· ++ defaults) et') := fun hadd => PropertyChange.keeps_iff (.add ..) hadd ts
  rw [hsound]
  by_cases htypes : types = []
  · -- nothing is added
    subst htypes
    have hsame : et.Refitted et ts (· ++ keptDefaults [] []) :=
      @refitted_of_values et et ts _ rfl rfl hts (fun _ _ => (append_nil _).symm)
        fun _ _ => (append_nil _).symm
    rw [hkeeps rfl, hsame.reads_iff hagree]
    simp
  by_cases htable : et.table = []
  · obtain ⟨et', hadd, hrebuilt⟩ : ∃ et', et.addProperties types oldDefaults defaults = .ok et' ∧
        et.Rebuilt et' ts (· ++ keptDefaults types defaults) := by
      cases hbundled : (et.extended types).isBundled with
      | true => exact h.addProperties_bundled hts htypes htable hbundled hold hnew
      | false => exact h.addProperties_unbundled hts htypes htable hbundled hold hnew hstored
    rw [hkeeps hadd, hrebuilt.reads_iff h hts hagree]
    simp [htypes, htable]
  · obtain ⟨et', hadd, hrefitted⟩ :=
      h.addProperties_rows oldDefaults hts htypes htable hnew hstored
    rw [hkeeps hadd, hrefitted.reads_iff hagree]
    simp [htable]

/-! ### Deleting -/

section Deleting

variable {cols : List Nat}

variable {α : Type*}

theorem others_map {β : Type*} (f : α → β) (l : List α) :
    others cols (l.map f) = (others cols l).map f := by
  rw [others, others, zipIdx_map, filter_map, map_map, map_map]
  rfl

theorem others_row (table : List Column) (i : Nat) :
    others cols (row table i) = row (others cols table) i :=
  others_map _ table

theorem others_singleton (a : α) : others cols [a] = if 0 ∈ cols then [] else [a] := by
  by_cases hzero : 0 ∈ cols <;> simp [others, hzero]

theorem mem_of_mem_others {l : List α} {a : α} (h : a ∈ others cols l) : a ∈ l := by
  obtain ⟨m, hm, rfl⟩ := mem_map.mp h
  exact fst_mem_of_mem_zipIdx (mem_filter.mp hm).1

def reduced (et : EdgeTable) (cols : List Nat) : EdgeTable :=
  { et with properties := others cols et.properties }

def reducedRows (et : EdgeTable) (cols : List Nat) : EdgeTable :=
  { et.reduced cols with table := others cols et.table }

theorem WellLaid.others_types (h : et.WellLaid) (cols : List Nat) (hrows : et.isBundled = false) :
    (others cols et.table).map type = (et.reduced cols).properties := by
  have hcolumns := h.columns
  rw [if_neg (by rw [hrows]; exact Bool.false_ne_true)] at hcolumns
  rw [← others_map, hcolumns]
  rfl

theorem WellLaid.rebuilt_newEmptyCsr (h : et.WellLaid) (hts : ts < kDeletedTimestamp)
    (hnone : (et.reduced cols).withoutTable.properties = [])
    (hvalues : ∀ data, others cols (et.values data) = []) :
    et.Rebuilt (et.reduced cols).newEmptyCsr ts (others cols) := by
  apply h.rebuilt_exportWith (et.reduced cols).withoutTable rfl rfl hts fun _ => .empty
  intro e _
  rw [values_of_bundled ((isBundled_iff _).mpr (.inl hnone)), if_pos hnone, hvalues]

theorem WellLaid.deleteProperties_bundled (h : et.WellLaid) (hts : ts < kDeletedTimestamp)
    (hbundled : et.isBundled = true) (hsome : et.properties ≠ []) (hzero : 0 ∈ cols) :
    et.deleteProperties cols = .ok (et.reduced cols).newEmptyCsr ∧
      et.Rebuilt (et.reduced cols).newEmptyCsr ts (others cols) := by
  obtain hnil | ⟨t, hone, -⟩ := (isBundled_iff et).mp hbundled
  · exact absurd hnil hsome
  have hnone : (et.reduced cols).withoutTable.properties = [] := by
    change others cols et.properties = []
    rw [hone, others_singleton, if_pos hzero]
  refine ⟨?_, ?_⟩
  · rw [deleteProperties]
    simp only [if_pos hbundled, if_pos (And.intro hsome hzero)]
    rfl
  · apply h.rebuilt_newEmptyCsr hts hnone
    intro data
    rw [values_of_bundled hbundled, if_neg hsome, others_singleton, if_pos hzero]

theorem deleteProperties_bundled_none (hts : ts < kDeletedTimestamp)
    (hbundled : et.isBundled = true) (hnot : ¬(et.properties ≠ [] ∧ 0 ∈ cols)) :
    et.deleteProperties cols = .ok et ∧ et.Refitted et ts (others cols) := by
  have hvalues : ∀ data, et.values data = others cols (et.values data) := by
    intro data
    rw [values_of_bundled hbundled]
    split
    next => rfl
    next hsome =>
      have hzero : 0 ∉ cols := fun hzero => hnot ⟨hsome, hzero⟩
      rw [others_singleton, if_neg hzero]
  refine ⟨?_, ?_⟩
  · rw [deleteProperties]
    simp only [if_pos hbundled, if_neg hnot]
  · exact @refitted_of_values et et ts _ rfl rfl hts (fun e _ => hvalues _) fun e _ => hvalues _

theorem refitted_reducedRows (hts : ts < kDeletedTimestamp) (hrows : et.isBundled = false)
    (hrows' : (et.reduced cols).isBundled = false) :
    et.Refitted (et.reducedRows cols) ts (others cols) := by
  have hvalues : ∀ data, (et.reducedRows cols).values data = others cols (et.values data) := by
    intro data
    have hreduced : (et.reducedRows cols).isBundled = false := hrows'
    rw [values_of_rows hreduced, values_of_rows hrows, others_row]
    rfl
  exact @refitted_of_values et (et.reducedRows cols) ts _ rfl rfl hts (fun e _ => hvalues _)
    fun e _ => hvalues _

section

variable (h : et.WellLaid) (hts : ts < kDeletedTimestamp) (hrows : et.isBundled = false)
include h hts hrows

/-- Deleting all columns but one of a fixed width, whose values become inline data. -/
theorem WellLaid.rebuilt_newBundledCsrFrom {c : Column} (hone : others cols et.table = [c])
    (hvarchar : ∀ width, c.type ≠ .varchar width) :
    ∃ et', (et.reduced cols).newBundledCsrFrom c = .ok et' ∧ et.Rebuilt et' ts (others cols) := by
  have hc : c ∈ et.table := mem_of_mem_others (by rw [hone]; exact mem_cons_self)
  have htypes : (et.reduced cols).withoutTable.properties = [c.type] := by
    have htypes := h.others_types cols hrows
    rw [hone] at htypes
    exact htypes.symm
  have hinline : (et.reduced cols).withoutTable.isBundled = true :=
    (isBundled_iff _).mpr (.inr ⟨c.type, htypes, hvarchar⟩)
  have hin : ∀ e ∈ (et.reduced cols).outCsr.batchExport, rowOf e.2.data < c.size :=
    fun e he => h.outRows c hc e he
  refine ⟨_, if_pos hin, ?_⟩
  apply h.rebuilt_exportWith (et.reduced cols).withoutTable rfl rfl hts
    fun e => c.getAny (rowOf e.2.data)
  intro e _
  rw [values_of_bundled hinline, if_neg (by rw [htypes]; exact cons_ne_nil _ _),
    values_of_rows hrows, others_row, hone]
  rfl

theorem WellLaid.deleteProperties_rows : ∃ et', et.deleteProperties cols = .ok et' ∧
      (((et.reduced cols).isBundled = true ∧ et.Rebuilt et' ts (others cols)) ∨
        ((et.reduced cols).isBundled = false ∧ et.Refitted et' ts (others cols))) := by
  have htypes := h.others_types cols hrows
  have hrefitted := fun hreduced => @refitted_reducedRows et ts cols hts hrows hreduced
  unfold deleteProperties
  simp only [hrows, Bool.false_eq_true, if_false]
  rw [reducedRows] at hrefitted
  cases hothers : others cols et.table with
  | nil =>
    rw [hothers] at htypes
    refine ⟨_, rfl, .inl ⟨(isBundled_iff _).mpr (.inl htypes.symm), ?_⟩⟩
    apply h.rebuilt_newEmptyCsr hts htypes.symm
    intro data
    rw [values_of_rows hrows, others_row, hothers]
    rfl
  | cons c rest =>
    rw [hothers] at htypes hrefitted
    cases rest with
    | nil =>
      obtain ⟨type, size, pos, dataSize, cells⟩ := c
      by_cases hvarchar : ∃ width, type = .varchar width
      · -- a string stays in its column
        obtain ⟨width, rfl⟩ := hvarchar
        have hreduced : (et.reduced cols).isBundled = false := by
          simp [← Bool.not_eq_true, isBundled_iff, ← htypes]
        exact ⟨_, rfl, .inr ⟨hreduced, hrefitted hreduced⟩⟩
      · have hother : ∀ width, type ≠ .varchar width := fun width ht => hvarchar ⟨width, ht⟩
        have hreduced : (et.reduced cols).isBundled = true :=
          (isBundled_iff _).mpr (.inr ⟨type, htypes.symm, hother⟩)
        obtain ⟨et', hnew, hrebuilt⟩ := h.rebuilt_newBundledCsrFrom hts hrows hothers hother
        refine ⟨et', ?_, .inl ⟨hreduced, hrebuilt⟩⟩
        cases type with
        | varchar width => exact absurd rfl (hother width)
        | empty => exact hnew
        | fixed t => exact hnew
    | cons c' rest =>
      have hreduced : (et.reduced cols).isBundled = false := by
        simp [← Bool.not_eq_true, isBundled_iff, ← htypes]
      refine ⟨_, ?_, .inr ⟨hreduced, hrefitted hreduced⟩⟩
      obtain ⟨type, size, pos, dataSize, cells⟩ := c
      cases type <;> rfl

end

theorem WellLaid.keeps_delete_iff (h : et.WellLaid) (hts : ts < kDeletedTimestamp)
    (cols : List Nat) :
    (PropertyChange.delete cols).Keeps et ts ↔ (PropertyChange.delete cols).Sound et ts := by
  have hagree : ∀ s : Multiset (Nat × Nat × List Value),
      s.map (withValues (others cols)) = s.map (withValues (others cols)) ↔ (s ≠ 0 → True) :=
    fun s => by simp
  have hsound : (PropertyChange.delete cols).Sound et ts ↔
      ((PropertyChange.delete cols).Rebuilds et → et.Exports ts) :=
    and_iff_left trivial
  have hkeeps : ∀ {et'}, et.deleteProperties cols = .ok et' →
      ((PropertyChange.delete cols).Keeps et ts ↔ et.Reads ts (others cols) et') :=
    fun hdelete => PropertyChange.keeps_iff (.delete cols) hdelete ts
  rw [hsound, PropertyChange.Rebuilds]
  cases hbundled : et.isBundled with
  | true =>
    by_cases hfound : et.properties ≠ [] ∧ 0 ∈ cols
    · obtain ⟨hdelete, hrebuilt⟩ :=
        h.deleteProperties_bundled hts hbundled hfound.1 hfound.2
      rw [hkeeps hdelete, hrebuilt.reads_iff h hts hagree]
      simp [hfound]
    · obtain ⟨hdelete, hrefitted⟩ := @deleteProperties_bundled_none et ts cols hts hbundled hfound
      rw [hkeeps hdelete, hrefitted.reads_iff hagree]
      simp [hfound]
  | false =>
    obtain ⟨et', hdelete, hcase⟩ := @WellLaid.deleteProperties_rows et ts cols h hts hbundled
    rw [hkeeps hdelete]
    rcases hcase with ⟨hreduced, hrebuilt⟩ | ⟨hreduced, hrefitted⟩
    · rw [reduced] at hreduced
      rw [hrebuilt.reads_iff h hts hagree, hreduced]
      simp
    · rw [reduced] at hreduced
      rw [hrefitted.reads_iff hagree, hreduced]
      simp

end Deleting

/-- A change of the properties keeps the edges that a reader sees, with the values of the
properties that stay and the declared defaults of new ones, exactly if its condition holds. -/
theorem propertyChange_keeps_iff (h : et.WellLaid) {change : PropertyChange}
    (hdeclared : change.Declared et) (hts : ts < kDeletedTimestamp) :
    change.Keeps et ts ↔ change.Sound et ts := by
  cases change with
  | add types oldDefaults defaults => exact h.keeps_add_iff hts hdeclared
  | delete cols => exact h.keeps_delete_iff hts cols

/-! ### Examples -/

/-- Two edges to one vertex, with an inline property. -/
def twoEdges : EdgeTable where
  properties := [.fixed .int64]
  outCsr := ⟨.singleMutable, 3, fun v => if v < 2 then [⟨2, 3, .fixed .int64 v⟩] else []⟩
  inCsr := ⟨.mutable, 3, fun v =>
    if v = 2 then [⟨0, 3, .fixed .int64 0⟩, ⟨1, 3, .fixed .int64 1⟩] else []⟩
  table := []
  tableIdx := 0
  capacity := 0

theorem twoEdges_wellLaid : twoEdges.WellLaid where
  outFramed := by
    refine ⟨fun v (hv : 3 ≤ v) => if_neg (by omega), fun _ v => ?_⟩
    dsimp only [twoEdges]
    split <;> simp
  inFramed := ⟨fun v (hv : 3 ≤ v) => if_neg (by omega), nofun⟩
  outNone := nofun
  same := fun _ _ => rfl
  columns := rfl
  noEmpty := by decide
  outRows := nofun
  inRows := nofun

/-- The edges keep their values and get the default of a new property; both are then in columns. -/
theorem propertyChange_keeps_twoEdges : ∃ et',
    (PropertyChange.add [.varchar 4] [.fixed .int64 0] [.varchar [65]]).run twoEdges = .ok et' ∧
      et'.outgoing 9 =
        {(0, 2, [.fixed .int64 0, .varchar [65]]), (1, 2, [.fixed .int64 1, .varchar [65]])} ∧
      et'.incoming 9 = et'.outgoing 9 := by
  have hdeclared : (PropertyChange.add [.varchar 4] [.fixed .int64 0] [.varchar [65]]).Declared
      twoEdges :=
    ⟨.cons ⟨by decide, by decide, by decide⟩ .nil, .cons ⟨by decide, by decide, by decide⟩ .nil⟩
  obtain ⟨et', hrun, hout, hin⟩ := (propertyChange_keeps_iff twoEdges_wellLaid hdeclared
    (by decide : 9 < _)).mpr ⟨fun _ => ⟨fun _ => by decide, nofun⟩, by decide,
      fun _ => by unfold KeptAs; decide⟩
  exact ⟨et', hrun, (hout (by decide)).trans rfl,
    (hin (by decide)).trans (hout (by decide)).symm⟩

/-- An edge that is stored in the incoming direction only is lost when a property is added. -/
theorem addProperties_loses_incoming : ∃ et et',
    ((created .empty .mutable []).reserveVertices 4 4).addEdge 0 1 [] 3 true = .ok et ∧
      et.incoming 9 = {(0, 1, [])} ∧
      (PropertyChange.add [.fixed .int64] [] [.fixed .int64 5]).run et = .ok et' ∧
      et'.incoming 9 = 0 ∧
      ¬ (PropertyChange.add [.fixed .int64] [] [.fixed .int64 5]).Keeps et 9 := by
  refine ⟨_, _, rfl, rfl, rfl, rfl, ?_⟩
  rintro ⟨et', hrun, -, hin⟩
  cases hrun
  have hcard := congrArg Multiset.card (hin (by decide))
  exact absurd hcard (by decide)

end EdgeTable

end Neug.Storage
