import Neug.Library.Attempt

/-! # Property changes of a vertex label

The properties of a vertex label are listed twice: in the schema, with their types and
defaults, and in the property table, which keeps the columns with their names and a map from
names to columns.  Requests add, rename and delete properties.  Names are looked up one at a
time, in the schema by position and in the table through the map.
-/

namespace Neug.Storage

open Library Function

/-- What property changes need of columns: `CreateColumn`, and `Open` with `resize`. -/
structure ColumnKind (DataType Value Col : Type) where
  typeOf : Value → DataType
  createColumn : DataType → Except String Col
  resize : Col → Nat → Value → Except String Col

structure NewProperty (DataType Value : Type) where
  name : String
  type : DataType
  default : Value

section Model

variable {DataType Value Col : Type}

/-! ## The schema -/

structure VertexSchema (DataType Value : Type) where
  labelName : String
  primaryKey : String
  primaryKeyOrdinal : Nat
  propertyNames : List String
  propertyTypes : List DataType
  defaultPropertyValues : List Value
  vpropSoftDeleted : List Bool

namespace VertexSchema

variable (s : VertexSchema DataType Value)

def hasProperty (prop : String) : Bool :=
  s.primaryKey == prop ||
    match s.propertyNames.idxOf? prop with
    | some idx => !(s.vpropSoftDeleted.getD idx false)
    | none => false

def hasPropertyInternal (prop : String) : Bool :=
  s.primaryKey == prop || s.propertyNames.contains prop

def addProperties (props : List (NewProperty DataType Value)) : VertexSchema DataType Value :=
  { s with
    propertyNames := s.propertyNames ++ props.map (·.name)
    propertyTypes := s.propertyTypes ++ props.map (·.type)
    vpropSoftDeleted := s.vpropSoftDeleted ++ props.map fun _ => false
    defaultPropertyValues := s.defaultPropertyValues ++ props.map (·.default) }

/-- The inner loop of `rename_properties`: the first property of that name that is not
soft-deleted. -/
def renameFirst (name rename : String) : List String → List Bool → List String
  | n :: names, deleted :: rest =>
    if deleted then n :: renameFirst name rename names rest
    else if n = name then rename :: names
    else n :: renameFirst name rename names rest
  | names, _ => names

def renameProperties (renames : List (String × String)) : VertexSchema DataType Value :=
  { s with
    propertyNames := renames.foldl
      (fun names r => renameFirst r.1 r.2 names s.vpropSoftDeleted) s.propertyNames }

def eraseProperty (j : Nat) : VertexSchema DataType Value :=
  { s with
    primaryKeyOrdinal :=
      if j < s.primaryKeyOrdinal then s.primaryKeyOrdinal - 1 else s.primaryKeyOrdinal
    propertyNames := s.propertyNames.eraseIdx j
    propertyTypes := s.propertyTypes.eraseIdx j
    defaultPropertyValues := s.defaultPropertyValues.eraseIdx j
    vpropSoftDeleted := s.vpropSoftDeleted.eraseIdx j }

/-- One round of `delete_properties`, not soft. -/
def deleteProperty (name : String) : VertexSchema DataType Value :=
  match s.propertyNames.idxOf? name with
  | some j => s.eraseProperty j
  | none => s

end VertexSchema

/-! ## The table -/

/-- A property table.  A column that is not created yet is a null pointer. -/
structure PropertyTable (Col : Type) where
  colNames : List String
  colIdMap : String → Option Nat
  columns : List (Option Col)

def emplace (map : String → Option Nat) (name : String) (id : Nat) : String → Option Nat :=
  if (map name).isSome then map else update map name (some id)

namespace PropertyTable

variable (kind : ColumnKind DataType Value Col)

variable (t : PropertyTable Col)

def addHeader (prop : NewProperty DataType Value) : Attempt String (PropertyTable Col) :=
  let colId := t.colNames.length
  let named := { t with
    colIdMap := emplace t.colIdMap prop.name colId
    colNames := t.colNames ++ [prop.name] }
  match kind.createColumn prop.type with
  | .error e => .failed e named
  | .ok col => .done { named with columns := t.columns.set colId (some col) }

def fillColumn (capacity : Nat) (t : PropertyTable Col)
    (entry : Nat × NewProperty DataType Value) : Attempt String (PropertyTable Col) :=
  match t.columns[entry.1]? with
  | some (some col) =>
    match kind.resize col capacity entry.2.default with
    | .error e => .failed e t
    | .ok filled => .done { t with columns := t.columns.set entry.1 (some filled) }
  | _ => .failed "" t

def addColumns (capacity : Nat) (t : PropertyTable Col)
    (props : List (NewProperty DataType Value)) : Attempt String (PropertyTable Col) :=
  let oldSize := t.columns.length
  let widened := { t with columns := t.columns ++ props.map fun _ => none }
  (Attempt.forEach (addHeader kind) props widened).andThen
    (Attempt.forEach (fillColumn kind capacity) (props.zipIdx oldSize |>.map fun p => (p.2, p.1)))

def renameColumn (oldName newName : String) : PropertyTable Col :=
  match t.colIdMap oldName with
  | some colId =>
    { t with
      colIdMap := emplace (update t.colIdMap oldName none) newName colId
      colNames := t.colNames.set colId newName }
  | none => t

def deleteColumn (colName : String) : PropertyTable Col :=
  match t.colIdMap colName with
  | some colId =>
    { colIdMap := fun name => (update t.colIdMap colName none name).map fun id =>
        if colId < id then id - 1 else id
      columns := t.columns.eraseIdx colId
      colNames := t.colNames.eraseIdx colId }
  | none => t

def getColumn (name : String) : Option Col :=
  match t.colIdMap name with
  | some colId => (t.columns[colId]?).join
  | none => none

end PropertyTable

/-! ## Requests -/

structure PendingIndex where
  name : String
  moduleType : String
  properties : List String
  deriving DecidableEq, Repr

/-- A vertex label: its properties in the schema and in the table, the capacity of the
label's indexer, and the pending indexes of the label. -/
structure LabelProperties (DataType Value Col : Type) where
  schema : VertexSchema DataType Value
  table : PropertyTable Col
  capacity : Nat
  pending : List PendingIndex

inductive PropertyError where
  | alreadyExists (prop label : String)
  | doesNotExist (prop label : String)
  | primaryKey (prop : String)
  | column (text : String)
  | pendingIndex (name moduleType : String)
  deriving DecidableEq, Repr

namespace LabelProperties

variable (kind : ColumnKind DataType Value Col)

variable (s : LabelProperties DataType Value Col)

def addVertexProperties
    (config : List (String × Value)) : Attempt PropertyError (LabelProperties DataType Value Col) :=
  match config.find? fun p => s.schema.hasProperty p.1 with
  | some p => .failed (.alreadyExists p.1 s.schema.labelName) s
  | none =>
    let props := config.map fun p => ⟨p.1, kind.typeOf p.2, p.2⟩
    -- the schema is changed before the columns are made
    let changed := { s with schema := s.schema.addProperties props }
    (s.table.addColumns kind s.capacity props).lift .column fun t => { changed with table := t }

def renameVertexProperties (config : List (String × String)) :
    Attempt PropertyError (LabelProperties DataType Value Col) :=
  match config.find? fun r => !s.schema.hasProperty r.1 with
  | some r => .failed (.doesNotExist r.1 s.schema.labelName) s
  | none => .done { s with
      schema := s.schema.renameProperties config
      table := config.foldl (fun t r => t.renameColumn r.1 r.2) s.table }

def deleteVertexProperties (config : List String) :
    Attempt PropertyError (LabelProperties DataType Value Col) :=
  match config.find? fun name => !s.schema.hasPropertyInternal name with
  | some name => .failed (.doesNotExist name s.schema.labelName) s
  | none =>
    if s.schema.primaryKey ∈ config then .failed (.primaryKey s.schema.primaryKey) s
    else .done { s with
      schema := config.foldl VertexSchema.deleteProperty s.schema
      table := config.foldl PropertyTable.deleteColumn s.table }

/-- Looking up the indexes of a property fails if a pending one contains it. -/
def accessIndexes (prop : String) : Attempt PropertyError (LabelProperties DataType Value Col) :=
  match s.pending.find? fun index => index.properties.contains prop with
  | some index => .failed (.pendingIndex index.name index.moduleType) s
  | none => .done s

end LabelProperties

inductive PropertyRequest (Value : Type) where
  | add (config : List (String × Value))
  | rename (config : List (String × String))
  | delete (config : List String)

/-- A request as the transaction's storage runs it: the change, and then the indexes of the
properties.  The indexes that are loaded follow the change. -/
def PropertyRequest.run (kind : ColumnKind DataType Value Col)
    (s : LabelProperties DataType Value Col) :
    PropertyRequest Value → Attempt PropertyError (LabelProperties DataType Value Col)
  | add config => s.addVertexProperties kind config
  | rename config =>
    (s.renameVertexProperties config).andThen
      (Attempt.forEach (fun s r => if r.1 = r.2 then .done s else s.accessIndexes r.1) config)
  | delete config =>
    match config.find? fun name => !s.schema.hasProperty name with
    | some name => .failed (.doesNotExist name s.schema.labelName) s
    | none =>
      (s.deleteVertexProperties config).andThen
        (Attempt.forEach LabelProperties.accessIndexes config)

end Model

end Neug.Storage
