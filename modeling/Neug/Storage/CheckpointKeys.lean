import Mathlib
import Neug.Library.KeyedStore
import Neug.Library.LastPiece

/-! # Keys of a checkpoint

A checkpoint manifest stores the modules of all tables in one map and their scalars in
another.  The keys are built from the label names: names are joined with an underscore,
which may occur inside a name as well.
-/

namespace Neug.Storage

open Library

structure EdgeTriplet where
  src : String
  edge : String
  dst : String
  deriving DecidableEq, Repr

/-! ## Key builders -/

namespace EdgeTable

variable (src edge dst : String)

def keyJoin : String := "edge_" ++ src ++ "_" ++ edge ++ "_" ++ dst

def edgeKeyBase (src edge dst suffix : String) : String := keyJoin src edge dst ++ "_" ++ suffix

def keyOutCsr : String := edgeKeyBase src edge dst "out_csr"

def keyInCsr : String := edgeKeyBase src edge dst "in_csr"

def keyProperty (index : Nat) : String :=
  edgeKeyBase src edge dst ("prop_" ++ index.repr)

def scalarKey (src edge dst field : String) : String := keyJoin src edge dst ++ "/" ++ field

end EdgeTable

open EdgeTable (edgeKeyBase keyInCsr keyJoin keyOutCsr keyProperty scalarKey)

namespace VertexTable

variable (label : String)

def keyKeys : String := "vertex_" ++ label ++ "_keys"

def keyIndices : String := "vertex_" ++ label ++ "_indices"

def keyIndexer : String := "vertex_" ++ label ++ "_indexer"

def keyVertexTimestamp : String := "vertex_" ++ label ++ "_v_ts"

def keyProperty (index : Nat) : String :=
  "vertex_" ++ label ++ "_prop_" ++ index.repr

end VertexTable

inductive VertexRole where
  | keys | indices | indexer | vertexTimestamp
  | property (index : Nat)
  deriving DecidableEq, Repr

inductive EdgeRole where
  | outCsr | inCsr
  | property (index : Nat)
  deriving DecidableEq, Repr

/-- The references from a column to the columns it is made of: the ranges and the
elements of a list, the element of an array, the fields of a struct and the offsets of a
vector column. -/
inductive ChildRef where
  | items | elements | element | offsetAccessor
  | field (index : Nat)
  deriving DecidableEq, Repr

def ChildRef.role : ChildRef → String
  | items => "items"
  | elements => "elements"
  | element => "element"
  | offsetAccessor => "offset_accessor"
  | field index => "field_" ++ index.repr

def childModuleKey (parent role : String) : String := parent ++ "/" ++ role

/-- A module of some table, with the modules a nested column refers to. -/
inductive TableModule where
  | vertex (label : String) (role : VertexRole)
  | edge (triplet : EdgeTriplet) (role : EdgeRole)
  | child (parent : TableModule) (ref : ChildRef)
  deriving DecidableEq, Repr

def TableModule.key : TableModule → String
  | vertex label .keys => VertexTable.keyKeys label
  | vertex label .indices => VertexTable.keyIndices label
  | vertex label .indexer => VertexTable.keyIndexer label
  | vertex label .vertexTimestamp => VertexTable.keyVertexTimestamp label
  | vertex label (.property index) => VertexTable.keyProperty label index
  | edge t .outCsr => keyOutCsr t.src t.edge t.dst
  | edge t .inCsr => keyInCsr t.src t.edge t.dst
  | edge t (.property index) => keyProperty t.src t.edge t.dst index
  | child parent ref => childModuleKey parent.key ref.role

/-- The scalars of an edge table; a vertex table has none. -/
inductive EdgeField where
  | tableIdx | capacity
  deriving DecidableEq, Repr

def EdgeField.name : EdgeField → String
  | tableIdx => "table_idx"
  | capacity => "capacity"

structure TableScalar where
  triplet : EdgeTriplet
  field : EdgeField
  deriving DecidableEq, Repr

def TableScalar.key (s : TableScalar) : String :=
  scalarKey s.triplet.src s.triplet.edge s.triplet.dst s.field.name

/-! ## What a checkpoint stores -/

/-- The labels of a schema.  Any names but empty ones are accepted, and the endpoints of an
edge triplet are vertex labels. -/
structure LabelSchema where
  vertexLabels : List String
  edgeTriplets : List EdgeTriplet
  named : "" ∉ vertexLabels ∧ ∀ t ∈ edgeTriplets, t.edge ≠ ""
  endpoints : ∀ t ∈ edgeTriplets, t.src ∈ vertexLabels ∧ t.dst ∈ vertexLabels

namespace LabelSchema

def HasModule (schema : LabelSchema) : TableModule → Prop
  | .vertex label _ => label ∈ schema.vertexLabels
  | .edge t _ => t ∈ schema.edgeTriplets
  | .child parent _ => schema.HasModule parent

def HasScalar (schema : LabelSchema) (s : TableScalar) : Prop := s.triplet ∈ schema.edgeTriplets

end LabelSchema

structure CheckpointManifest (Descriptor : Type) where
  modules : String → Option Descriptor
  scalars : String → Option String

namespace CheckpointManifest

variable {Descriptor : Type}

def empty : CheckpointManifest Descriptor := ⟨fun _ => none, fun _ => none⟩

def setModule (manifest : CheckpointManifest Descriptor) (key : String) (desc : Descriptor) :
    CheckpointManifest Descriptor :=
  { manifest with modules := fun k => if k = key then some desc else manifest.modules k }

def setScalar (manifest : CheckpointManifest Descriptor) (key value : String) :
    CheckpointManifest Descriptor :=
  { manifest with scalars := fun k => if k = key then some value else manifest.scalars k }

/-- The manifest after modules and scalars of tables were stored in some order. -/
def dump (desc : TableModule → Descriptor) (value : TableScalar → String)
    (modules : List TableModule) (scalars : List TableScalar) : CheckpointManifest Descriptor :=
  writeAll setScalar TableScalar.key value (writeAll setModule TableModule.key desc empty modules)
    scalars

end CheckpointManifest

open CheckpointManifest (dump)

/-! ## The end of a key names the role -/

inductive Ending where
  | keys | indices | indexer | vertexTimestamp | property (index : Nat)
  | outCsr | inCsr
  | items | elements | element | offsetAccessor | field (index : Nat)

namespace Ending

def front : Ending → String
  | vertexTimestamp => "_v"
  | property _ => "_prop"
  | outCsr => "_out"
  | inCsr => "_in"
  | offsetAccessor => "/offset"
  | field _ => "/field"
  | _ => ""

def sep : Ending → Char
  | items | elements | element => '/'
  | _ => '_'

def word : Ending → String
  | keys => "keys"
  | indices => "indices"
  | indexer => "indexer"
  | vertexTimestamp => "ts"
  | outCsr | inCsr => "csr"
  | items => "items"
  | elements => "elements"
  | element => "element"
  | offsetAccessor => "accessor"
  | property index | field index => index.repr

def text (e : Ending) : String := e.front ++ e.sep.toString ++ e.word

def numbered : Ending → Bool
  | property _ | field _ => true
  | _ => false

def isSep (c : Char) : Bool := c == '_' || c == '/'

theorem isSep_sep (e : Ending) : isSep e.sep = true := by
  cases e <;> rfl

theorem isSep_eq_false_of_isDigit {c : Char} (h : c.isDigit = true) : isSep c = false := by
  simp only [isSep, Bool.or_eq_false_iff, beq_eq_false_iff_ne]
  constructor <;> rintro rfl <;> simp at h

theorem isDigit_of_mem_repr {c : Char} {n : Nat} (h : c ∈ n.repr.toList) : c.isDigit = true := by
  rw [Nat.toList_repr] at h
  exact Nat.isDigit_of_mem_toDigits (by decide) (by decide) h

/-- No separator stands in the last word of an ending. -/
theorem isSep_of_mem_word (e : Ending) : ∀ c ∈ e.word.toList, isSep c = false := by
  cases e
  case property | field =>
      intro c hc
      exact isSep_eq_false_of_isDigit (isDigit_of_mem_repr hc)
  all_goals simp [word, isSep]

/-- The last word is a number exactly for the numbered endings. -/
theorem word_all_isDigit (e : Ending) : e.word.toList.all Char.isDigit = e.numbered := by
  cases e
  case property | field =>
      simp only [word, numbered, List.all_eq_true]
      exact fun c hc => isDigit_of_mem_repr hc
  all_goals rfl

theorem toList_text (e : Ending) : e.text.toList = e.front.toList ++ e.sep :: e.word.toList := by
  simp [text, Char.toString]

/-- Properties and fields with one number are told apart by the letter before it. -/
theorem eq_of_numbered {e f : Ending} {a b : List Char}
    (hnum : e.numbered = true) (hnum' : f.numbered = true) (hword : e.word = f.word)
    (hlast : (a ++ e.front.toList).getLast? = (b ++ f.front.toList).getLast?) : e = f := by
  cases e <;> cases hnum <;> cases f <;> cases hnum'
  case property.refl.property.refl i j => rw [Nat.repr_inj.mp hword]
  case field.refl.field.refl i j => rw [Nat.repr_inj.mp hword]
  all_goals simp [front] at hlast

/-- An ending is read off the text it ends. -/
theorem append_text_inj {e f : Ending} {a b : List Char}
    (h : a ++ e.text.toList = b ++ f.text.toList) : a = b ∧ e = f := by
  rw [toList_text, toList_text, ← List.append_assoc, ← List.append_assoc] at h
  obtain ⟨hfront, hsep, hword⟩ := last_piece_unique isSep e.isSep_sep f.isSep_sep
    e.isSep_of_mem_word f.isSep_of_mem_word h
  have hnum : e.numbered = f.numbered := by
    rw [← word_all_isDigit, ← word_all_isDigit, hword]
  have hlast := congrArg List.getLast? hfront
  rw [String.toList_inj] at hword
  have hef : e = f := by
    cases hcase : e.numbered
    · -- only the two structures of an edge table share a word
      cases e <;> cases f <;> first
        | rfl
        | exact Bool.noConfusion hnum
        | exact Bool.noConfusion hcase
        | (simp [word] at hword; done)
        | simp [front] at hlast
    · exact eq_of_numbered hcase (hnum ▸ hcase) hword hlast
  exact ⟨by rw [hef] at hfront; exact List.append_cancel_right hfront, hef⟩

end Ending

def VertexRole.ending : VertexRole → Ending
  | keys => .keys
  | indices => .indices
  | indexer => .indexer
  | vertexTimestamp => .vertexTimestamp
  | property index => .property index

def EdgeRole.ending : EdgeRole → Ending
  | outCsr => .outCsr
  | inCsr => .inCsr
  | property index => .property index

def ChildRef.ending : ChildRef → Ending
  | items => .items
  | elements => .elements
  | element => .element
  | offsetAccessor => .offsetAccessor
  | field index => .field index

theorem VertexRole.ending_inj {r s : VertexRole} (h : r.ending = s.ending) : r = s := by
  cases r <;> cases s <;> cases h <;> rfl

theorem EdgeRole.ending_inj {r s : EdgeRole} (h : r.ending = s.ending) : r = s := by
  cases r <;> cases s <;> cases h <;> rfl

theorem ChildRef.ending_inj {r s : ChildRef} (h : r.ending = s.ending) : r = s := by
  cases r <;> cases s <;> cases h <;> rfl

theorem VertexRole.ending_ne_child (r : VertexRole) (c : ChildRef) : r.ending ≠ c.ending := by
  cases r <;> cases c <;> rintro ⟨⟩

theorem EdgeRole.ending_ne_child (r : EdgeRole) (c : ChildRef) : r.ending ≠ c.ending := by
  cases r <;> cases c <;> rintro ⟨⟩

namespace TableModule

def base : TableModule → String
  | vertex label _ => "vertex_" ++ label
  | edge t _ => keyJoin t.src t.edge t.dst
  | child parent _ => parent.key

def ending : TableModule → Ending
  | vertex _ role => role.ending
  | edge _ role => role.ending
  | child _ ref => ref.ending

theorem key_eq (m : TableModule) : m.key.toList = m.base.toList ++ m.ending.text.toList := by
  cases m with
  | vertex label role =>
    cases role <;> simp [key, base, ending, VertexRole.ending, Ending.toList_text, Ending.front,
      Ending.sep, Ending.word, VertexTable.keyKeys, VertexTable.keyIndices,
      VertexTable.keyIndexer, VertexTable.keyVertexTimestamp, VertexTable.keyProperty]
  | edge t role =>
    cases role <;> simp [key, base, ending, EdgeRole.ending, Ending.toList_text, Ending.front,
      Ending.sep, Ending.word, keyOutCsr, keyInCsr, keyProperty, edgeKeyBase]
  | child parent ref =>
    cases ref <;> simp [key, base, ending, ChildRef.ending, Ending.toList_text, Ending.front,
      Ending.sep, Ending.word, childModuleKey, ChildRef.role]

/-- Two modules with one key agree up to their endings. -/
theorem base_ending_eq {m n : TableModule} (h : m.key = n.key) :
    m.base = n.base ∧ m.ending = n.ending := by
  have hlist : m.base.toList ++ m.ending.text.toList = n.base.toList ++ n.ending.text.toList := by
    rw [← key_eq, ← key_eq, h]
  obtain ⟨hbase, hending⟩ := Ending.append_text_inj hlist
  exact ⟨String.toList_inj.mp hbase, hending⟩

/-- Keys of vertex tables and of edge tables begin differently. -/
theorem vertex_base_ne (label : String) (t : EdgeTriplet) :
    "vertex_" ++ label ≠ keyJoin t.src t.edge t.dst := by
  intro h
  have hhead := congrArg (fun text => text.toList.head?) h
  simp [keyJoin] at hhead

end TableModule

open TableModule (base base_ending_eq vertex_base_ne)

/-! ## The names of an edge triplet -/

namespace EdgeTriplet

/-- The words between underscores of the three names, in order. -/
def words (t : EdgeTriplet) : List (List Char) :=
  t.src.toList.splitOn '_' ++ t.edge.toList.splitOn '_' ++ t.dst.toList.splitOn '_'

/-- The joined names of two triplets agree exactly when their words do. -/
theorem keyJoin_eq_iff (t u : EdgeTriplet) :
    keyJoin t.src t.edge t.dst = keyJoin u.src u.edge u.dst ↔ t.words = u.words := by
  rw [words, words, ← joined_eq_iff, ← String.toList_inj]
  simp [keyJoin]

end EdgeTriplet

namespace LabelSchema

variable {schema : LabelSchema}

/-- No two edge triplets of the schema consist of the same words. -/
def WordsApart (schema : LabelSchema) : Prop :=
  ∀ t ∈ schema.edgeTriplets, ∀ u ∈ schema.edgeTriplets, t.words = u.words → t = u

theorem key_injective (happart : schema.WordsApart) :
    ∀ m n, schema.HasModule m → schema.HasModule n → m.key = n.key → m = n := by
  intro m
  induction m with
  | vertex label role =>
    intro n hm hn h
    obtain ⟨hbase, hending⟩ := base_ending_eq h
    cases n with
    | vertex label' role' =>
      have hlabel : label = label' := by simpa [base] using hbase
      rw [hlabel, VertexRole.ending_inj hending]
    | edge t role' => exact absurd hbase (vertex_base_ne label t)
    | child parent ref => exact absurd hending (role.ending_ne_child ref)
  | edge t role =>
    intro n hm hn h
    obtain ⟨hbase, hending⟩ := base_ending_eq h
    cases n with
    | vertex label role' => exact absurd hbase.symm (vertex_base_ne label t)
    | edge u role' =>
      have hwords : t.words = u.words := (t.keyJoin_eq_iff u).mp hbase
      rw [happart t hm u hn hwords, EdgeRole.ending_inj hending]
    | child parent ref => exact absurd hending (role.ending_ne_child ref)
  | child parent ref ih =>
    intro n hm hn h
    obtain ⟨hbase, hending⟩ := base_ending_eq h
    cases n with
    | vertex _ role | edge _ role => exact absurd hending.symm (role.ending_ne_child ref)
    | child parent' ref' => rw [ih parent' hm hn hbase, ChildRef.ending_inj hending]

theorem scalar_key_injective (happart : schema.WordsApart) (s s' : TableScalar)
    (hs : schema.HasScalar s) (hs' : schema.HasScalar s') (h : s.key = s'.key) : s = s' := by
  obtain ⟨t, field⟩ := s
  obtain ⟨u, field'⟩ := s'
  have hfield : field = field' := by
    have hlast := congrArg (fun text => text.toList.getLast?) h
    cases field <;> cases field' <;> first
      | rfl
      | (simp [TableScalar.key, scalarKey, EdgeField.name] at hlast)
  subst hfield
  have hjoin : keyJoin t.src t.edge t.dst = keyJoin u.src u.edge u.dst := by
    simpa [TableScalar.key, scalarKey, ← String.toList_inj] using h
  rw [happart t hs u hs' ((t.keyJoin_eq_iff u).mp hjoin)]

end LabelSchema

/-- Every module and every scalar of a table is found under its key. -/
def LabelSchema.Stored (schema : LabelSchema) : Prop :=
  ∀ (Descriptor : Type) (desc : TableModule → Descriptor) (value : TableScalar → String)
    (modules : List TableModule) (scalars : List TableScalar),
    (∀ m ∈ modules, schema.HasModule m) → (∀ s ∈ scalars, schema.HasScalar s) →
      (∀ m ∈ modules,
        (dump desc value modules scalars).modules m.key = some (desc m)) ∧
      ∀ s ∈ scalars,
        (dump desc value modules scalars).scalars s.key = some (value s)

theorem LabelSchema.WordsApart.stored {schema : LabelSchema} (happart : schema.WordsApart) :
    schema.Stored := by
  intro Descriptor desc value modules scalars hmodules hscalars
  constructor
  · intro m hm
    have hkeys : ∀ n ∈ modules, n.key = m.key → n = m :=
      fun n hn => key_injective happart n m (hmodules n hn) (hmodules m hm)
    have hscalar : (CheckpointManifest.dump desc value modules scalars).modules =
        (writeAll CheckpointManifest.setModule TableModule.key desc .empty modules).modules := by
      rw [CheckpointManifest.dump, writeAll_keeps CheckpointManifest.modules]
      exact fun _ _ _ => rfl
    rw [hscalar, read_writeAll CheckpointManifest.modules (fun _ _ _ _ => rfl) hkeys, if_pos hm]
  · intro s hs
    have hkeys : ∀ s' ∈ scalars, s'.key = s.key → s' = s :=
      fun s' hs' => scalar_key_injective happart s' s (hscalars s' hs') (hscalars s hs)
    rw [CheckpointManifest.dump,
      read_writeAll CheckpointManifest.scalars (fun _ _ _ _ => rfl) hkeys, if_pos hs]

/-- The modules of all tables have different keys, the scalars have different keys, and a
checkpoint keeps every one of them, exactly when no two edge triplets of the schema consist
of the same words. -/
theorem checkpoint_keys_distinct_iff (schema : LabelSchema) :
    ((∀ m n, schema.HasModule m → schema.HasModule n → m ≠ n → m.key ≠ n.key) ∧
      (∀ s s', schema.HasScalar s → schema.HasScalar s' → s ≠ s' → s.key ≠ s'.key) ∧
      schema.Stored) ↔ schema.WordsApart := by
  constructor
  · rintro ⟨hmodules, -, -⟩ t ht u hu hwords
    by_contra hne
    apply hmodules (.edge t .outCsr) (.edge u .outCsr) ht hu (fun h => hne (by injection h))
    rw [TableModule.key, TableModule.key, EdgeTable.keyOutCsr, EdgeTable.keyOutCsr,
      EdgeTable.edgeKeyBase, EdgeTable.edgeKeyBase, (t.keyJoin_eq_iff u).mpr hwords]
  · intro happart
    refine ⟨?_, ?_, happart.stored⟩
    · intro m n hm hn hne hkey
      exact hne (LabelSchema.key_injective happart m n hm hn hkey)
    · intro s s' hs hs' hne hkey
      exact hne (LabelSchema.scalar_key_injective happart s s' hs hs' hkey)

/-- Two triplets whose names share their underscores differently: the tables of
`user -(likes_new)-> item` and of `user_likes -(new)-> item` would be stored under one key. -/
theorem checkpoint_keys_shared :
    ∃ schema : LabelSchema, ∃ m n, schema.HasModule m ∧ schema.HasModule n ∧ m ≠ n ∧
      m.key = n.key := by
  refine ⟨⟨["user", "user_likes", "item"],
    [⟨"user", "likes_new", "item"⟩, ⟨"user_likes", "new", "item"⟩], by decide, by decide⟩,
    .edge ⟨"user", "likes_new", "item"⟩ .outCsr, .edge ⟨"user_likes", "new", "item"⟩ .outCsr,
    ?_, ?_, by decide, by decide⟩
  · simp [LabelSchema.HasModule]
  · simp [LabelSchema.HasModule]

end Neug.Storage
