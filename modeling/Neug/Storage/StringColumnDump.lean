import Neug.Storage.StringColumn

/-! # Dumping a string column

A dump writes the strings of the rows one after the other to a new data file, reusing the
range of the row before when both rows name the same one.  The data file is then cut or
extended to the average length of the strings times a padded number of rows.  If both buffers
still agree with the checksums of the files they were opened from, those files are reused.
-/

namespace Neug.Storage

open Library StringItem List

/-- The files of a dumped column with the scalars of its descriptor. -/
structure StringDump where
  items : List StringItem
  data : List UInt8
  pos : Nat
  width : Nat
  deriving DecidableEq, Repr

/-- A file that a buffer was opened from: its payload and the checksum of its header. -/
structure BackingFile (α Digest : Type) where
  payload : List α
  md5 : Digest

/-- The files of a column's buffers; a buffer that was resized has none. -/
structure StringFiles (Digest : Type) where
  items : Option (BackingFile StringItem Digest)
  data : Option (BackingFile UInt8 Digest)

structure Md5 (Digest : Type) where
  items : List StringItem → Digest
  data : List UInt8 → Digest

/-- The variables of the loop in `Dump` and what it has written. -/
structure DumpState where
  preItem : StringItem
  curItem : StringItem
  offset : Nat
  countNoEmpty : Nat
  items : List StringItem
  data : List UInt8

namespace DumpState

def start : DumpState := ⟨.blank, .blank, 0, 0, [], []⟩

def step (raw : List UInt8) (s : DumpState) (item : StringItem) : DumpState :=
  if item.offset = s.preItem.offset ∧ item.length = s.preItem.length then
    -- the same range as in the row before: nothing is written again
    { s with items := s.items ++ [s.curItem] }
  else
    { preItem := item
      curItem := .pack s.offset item.length
      offset := s.offset + item.length
      countNoEmpty := if 0 < item.length then s.countNoEmpty + 1 else s.countNoEmpty
      items := s.items ++ [.pack s.offset item.length]
      data := s.data ++ item.bytes raw }

end DumpState

namespace StringColumn

variable {Digest : Type} [DecidableEq Digest]

/-- `is_data_unmodified`: the items agree with the checksum of their file, and so do the
bytes up to `pos`. -/
def isDataUnmodified (md5 : Md5 Digest) (c : StringColumn) (files : StringFiles Digest) : Bool :=
  match files.items, files.data with
  | some items, some data =>
    md5.items c.items = items.md5 && md5.data (c.data.take c.pos) = data.md5
  | _, _ => false

def dumpRows (c : StringColumn) : DumpState := c.items.foldl (DumpState.step c.data) .start

/-- The size of the data file of a column with some rows and strings. -/
def truncatedSize (size offset countNoEmpty width : Nat) : Nat :=
  let avgSize := if 0 < countNoEmpty then offset / countNoEmpty else width
  avgSize * max (size + (size + 3) / 4) 4096

/-- The part of `Dump` that writes new files. -/
def dumpFiles (c : StringColumn) : StringDump :=
  let s := c.dumpRows
  { items := s.items
    data := resized 0 s.data (truncatedSize c.size s.offset s.countNoEmpty c.width)
    pos := s.offset
    width := c.width }

def dump (md5 : Md5 Digest) (files : StringFiles Digest) (c : StringColumn) : StringDump :=
  match files.items, files.data with
  | some items, some data =>
    if c.isDataUnmodified md5 files then ⟨items.payload, data.payload, c.pos, c.width⟩
    else c.dumpFiles
  | _, _ => c.dumpFiles

def openFrom (desc : StringDump) : StringColumn := ⟨desc.items, desc.data, desc.pos, desc.width⟩

end StringColumn

/-! ## What the loop writes -/

/-- The items that are written out, one for each change of the range from row to row. -/
def writtenItems : StringItem → List StringItem → List StringItem
  | _, [] => []
  | pre, item :: rest =>
    if item.offset = pre.offset ∧ item.length = pre.length then writtenItems pre rest
    else item :: writtenItems item rest

namespace StringColumn

variable (c : StringColumn)

def bytesWritten : Nat :=
  ((writtenItems .blank c.items).map StringItem.length).sum

/-- The number of strings among them that are not empty. -/
def stringsWritten : Nat :=
  (writtenItems .blank c.items).countP (0 < ·.length)

def Roomy : Prop :=
  c.bytesWritten ≤ truncatedSize c.size c.bytesWritten c.stringsWritten c.width

instance : Decidable c.Roomy := inferInstanceAs (Decidable (_ ≤ _))

end StringColumn

namespace DumpState

/-- The item written for a row names the same bytes in the new file. -/
def Copied (raw new : List UInt8) (item out : StringItem) : Prop :=
  out.offset + out.length ≤ new.length ∧ out.bytes new = item.bytes raw

variable {s : DumpState} {item : StringItem} {raw : List UInt8}

theorem Copied.append {new more : List UInt8} {out : StringItem} (h : Copied raw new item out) :
    Copied raw (new ++ more) item out := by
  refine ⟨?_, ?_⟩
  · rw [length_append]
    exact Nat.le_add_right_of_le h.1
  · rw [bytes, slice_append_left more h.1]
    exact h.2

/-- What holds after some rows: each has its item, the last range is remembered, and the
strings end where the last one was written. -/
structure Inv (raw : List UInt8) (rows : List StringItem) (s : DumpState) : Prop where
  length_data : s.data.length = s.offset
  copied : Forall₂ (Copied raw s.data) rows s.items
  remembered : Copied raw s.data s.preItem s.curItem
  ends : s.offset = 0 ∨ ∃ out ∈ s.items, out.offset + out.length = s.offset

theorem Inv.start (raw : List UInt8) : Inv raw [] start :=
  ⟨rfl, .nil, ⟨Nat.le_refl _, by simp [bytes, DumpState.start, blank]⟩, .inl rfl⟩

theorem Inv.step {rows : List StringItem} (h : Inv raw rows s) (hlen : item.length < 2 ^ 16)
    (hin : item.offset + item.length ≤ raw.length) (hfit : s.offset < 2 ^ 48) :
    Inv raw (rows ++ [item]) (s.step raw item) := by
  unfold DumpState.step
  split
  next hsame =>
    have heq : item = s.preItem := by
      cases item
      cases hpre : s.preItem
      simp_all
    refine ⟨h.length_data, ?_, h.remembered, ?_⟩
    · exact rel_append h.copied (.cons (heq ▸ h.remembered) .nil)
    · rcases h.ends with hzero | ⟨out, hout, hend⟩
      · exact .inl hzero
      · exact .inr ⟨out, mem_append_left _ hout, hend⟩
  next =>
    have hbytes : (item.bytes raw).length = item.length := by
      simp only [bytes, slice, length_take, length_drop]
      omega
    have hpack : pack s.offset item.length = ⟨s.offset, item.length⟩ := by
      simp only [pack, Nat.mod_eq_of_lt hfit, Nat.mod_eq_of_lt hlen]
    have hnew : Copied raw (s.data ++ item.bytes raw) item (.pack s.offset item.length) := by
      rw [hpack]
      refine ⟨?_, ?_⟩
      · simp only [length_append, h.length_data, hbytes, Nat.le_refl]
      · have hright := slice_append_right s.data (item.bytes raw)
        rw [h.length_data, hbytes] at hright
        exact hright
    refine ⟨?_, ?_, hnew, ?_⟩
    · rw [length_append, h.length_data, hbytes]
    · exact rel_append (h.copied.imp fun _ _ hold => hold.append) (.cons hnew .nil)
    · exact .inr ⟨.pack s.offset item.length, by simp, by rw [hpack]⟩

/-- A repeated range leaves the counters, a new one adds its length. -/
theorem step_counters (raw : List UInt8) (s : DumpState) (item : StringItem)
    (rest : List StringItem) :
    (s.step raw item).offset + ((writtenItems (s.step raw item).preItem rest).map (·.length)).sum =
        s.offset + ((writtenItems s.preItem (item :: rest)).map (·.length)).sum ∧
      (s.step raw item).countNoEmpty +
          (writtenItems (s.step raw item).preItem rest).countP (0 < ·.length) =
        s.countNoEmpty + (writtenItems s.preItem (item :: rest)).countP (0 < ·.length) := by
  by_cases hsame : item.offset = s.preItem.offset ∧ item.length = s.preItem.length
  · simp only [step, writtenItems, if_pos hsame, and_self]
  · simp only [step, writtenItems, if_neg hsame, map_cons, sum_cons, countP_cons, decide_eq_true_eq]
    constructor
    · omega
    · split <;> omega

theorem counters_foldl (raw : List UInt8) (rest : List StringItem) (s : DumpState) :
    (rest.foldl (step raw) s).offset =
        s.offset + ((writtenItems s.preItem rest).map (·.length)).sum ∧
      (rest.foldl (step raw) s).countNoEmpty =
        s.countNoEmpty + (writtenItems s.preItem rest).countP (0 < ·.length) := by
  induction rest generalizing s with
  | nil => exact ⟨rfl, rfl⟩
  | cons item rest ih =>
    obtain ⟨hoffset, hcount⟩ := ih (s.step raw item)
    obtain ⟨hoffset', hcount'⟩ := step_counters raw s item rest
    exact ⟨hoffset.trans hoffset', hcount.trans hcount'⟩

/-- The invariant after all rows, as long as the offsets fit their 48 bits. -/
theorem Inv.foldl (rest : List StringItem) {rows : List StringItem} (h : Inv raw rows s)
    (hitems : ∀ item ∈ rest, item.length < 2 ^ 16 ∧ item.offset + item.length ≤ raw.length)
    (hfit : s.offset + ((writtenItems s.preItem rest).map (·.length)).sum < 2 ^ 48) :
    Inv raw (rows ++ rest) (rest.foldl (DumpState.step raw) s) := by
  induction rest generalizing rows s with
  | nil => simpa using h
  | cons item rest ih =>
    rw [forall_mem_cons] at hitems
    have hstep := h.step hitems.1.1 hitems.1.2 (by omega)
    have hcounters := (step_counters raw s item rest).1
    have hrest := ih hstep hitems.2 (by omega)
    rwa [append_assoc, singleton_append] at hrest

/-- The items that were written name bytes before the offset, whether or not offsets fit. -/
structure Inside (s : DumpState) : Prop where
  items : ∀ out ∈ s.items, out.offset + out.length ≤ s.offset ∧ out.length < 2 ^ 16
  curItem : s.curItem.offset + s.curItem.length ≤ s.offset ∧ s.curItem.length < 2 ^ 16

theorem Inside.start : Inside start := ⟨by simp [DumpState.start], by decide⟩

theorem Inside.step (h : s.Inside) (raw : List UInt8) (hlen : item.length < 2 ^ 16) :
    (s.step raw item).Inside := by
  unfold DumpState.step
  split
  next =>
    exact ⟨forall_mem_append.mpr ⟨h.items, forall_mem_singleton.mpr h.curItem⟩, h.curItem⟩
  next =>
    have hnew : (pack s.offset item.length).offset +
        (pack s.offset item.length).length ≤ s.offset + item.length ∧
        (pack s.offset item.length).length < 2 ^ 16 := by
      simp only [pack]
      omega
    refine ⟨forall_mem_append.mpr ⟨fun out hout => ?_, forall_mem_singleton.mpr hnew⟩, hnew⟩
    exact ⟨Nat.le_add_right_of_le (h.items out hout).1, (h.items out hout).2⟩

end DumpState

/-! ## Opening the dump -/

namespace StringColumn

variable {c : StringColumn}

theorem dumpRows_offset (c : StringColumn) : c.dumpRows.offset = c.bytesWritten :=
  (DumpState.counters_foldl c.data c.items .start).1.trans (Nat.zero_add _)

theorem dumpRows_countNoEmpty (c : StringColumn) : c.dumpRows.countNoEmpty = c.stringsWritten :=
  (DumpState.counters_foldl c.data c.items .start).2.trans (Nat.zero_add _)

theorem WellFormed.dumpRows_inv (h : c.WellFormed) (hfit : c.bytesWritten < 2 ^ 48) :
    DumpState.Inv c.data c.items c.dumpRows := by
  refine (DumpState.Inv.start c.data).foldl c.items (fun item hitem => ?_)
    ((Nat.zero_add c.bytesWritten).symm ▸ hfit)
  exact ⟨h.length_lt item hitem, Nat.le_trans (h.inside item hitem) h.pos_le⟩

structure SameRows (c c' : StringColumn) : Prop where
  size_eq : c'.size = c.size
  getView_eq : ∀ idx < c.size, c'.getView idx = c.getView idx

theorem length_openFrom_data (c : StringColumn) : (openFrom c.dumpFiles).data.length =
    truncatedSize c.size c.bytesWritten c.stringsWritten c.width := by
  rw [← dumpRows_offset, ← dumpRows_countNoEmpty]
  exact length_resized _ _ _

/-- Newly written files give back every row exactly when the data file was not cut. -/
theorem WellFormed.dumpFiles_sameRows_iff (h : c.WellFormed) (hfit : c.bytesWritten < 2 ^ 48) :
    c.SameRows (openFrom c.dumpFiles) ↔ c.Roomy := by
  have hinv := h.dumpRows_inv hfit
  constructor
  · intro hsame
    -- the last string that was written ends at `bytesWritten`
    rcases hinv.ends with hzero | ⟨out, hout, hend⟩
    · rw [dumpRows_offset] at hzero
      rw [Roomy, hzero]
      exact Nat.zero_le _
    · obtain ⟨idx, hidx⟩ := mem_iff_getElem?.mp hout
      have hlt : idx < c.size := by
        rw [size, hinv.copied.length_eq]
        exact (List.getElem?_eq_some_iff.mp hidx).1
      have hread := hsame.getView_eq idx hlt
      rw [h.getView_eq (getElem?_eq_getElem hlt)] at hread
      by_contra hcut
      rw [Roomy, ← length_openFrom_data, ← dumpRows_offset, ← hend] at hcut
      have hitem : (openFrom c.dumpFiles).items[idx]? = some out := hidx
      simp only [getView, hitem, if_neg hcut] at hread
      cases hread
  · intro hroomy
    refine ⟨hinv.copied.length_eq.symm, fun idx hidx => ?_⟩
    have hidx' : idx < c.dumpRows.items.length := hinv.copied.length_eq ▸ hidx
    obtain ⟨hle, hbytes⟩ := hinv.copied.get hidx hidx'
    have hout : c.dumpRows.items[idx]? = some (c.dumpRows.items.get _) := getElem?_eq_getElem hidx'
    generalize c.dumpRows.items.get ⟨idx, hidx'⟩ = out at hle hbytes hout
    rw [hinv.length_data, dumpRows_offset] at hle
    have hroom : out.offset + out.length ≤ (openFrom c.dumpFiles).data.length := by
      rw [length_openFrom_data]
      exact Nat.le_trans hle hroomy
    have hsame : out.bytes (openFrom c.dumpFiles).data = out.bytes c.dumpRows.data := by
      rw [length_openFrom_data, ← dumpRows_offset, ← dumpRows_countNoEmpty] at hroom
      exact slice_resized 0 hroom (by rw [hinv.length_data, dumpRows_offset]; exact hle)
    have hread : (openFrom c.dumpFiles).getView idx = some (out.bytes _) :=
      getView_of_item hout hroom
    rw [hread, h.getView_eq (getElem?_eq_getElem hidx), hsame]
    exact congrArg some hbytes

/-! ### Reused files -/

section Reuse

variable {Digest : Type} [DecidableEq Digest] {md5 : Md5 Digest} {files : StringFiles Digest}

/-- A checksum that agrees with a file is not a collision. -/
structure NoCollision (md5 : Md5 Digest) (c : StringColumn) (files : StringFiles Digest) :
    Prop where
  items : ∀ file, files.items = some file → md5.items c.items = file.md5 → file.payload = c.items
  data : ∀ file, files.data = some file → md5.data (c.data.take c.pos) = file.md5 →
    file.payload.take c.pos = c.data.take c.pos

theorem dump_of_modified (hmod : c.isDataUnmodified md5 files = false) :
    c.dump md5 files = c.dumpFiles := by
  unfold dump
  split
  · rw [if_neg (by simp [hmod])]
  · rfl

/-- Unmodified buffers are dumped as the files they were opened from, which hold the same
items and the same bytes. -/
theorem NoCollision.dump_of_unmodified (hmd5 : c.NoCollision md5 files)
    (hsame : c.isDataUnmodified md5 files = true) :
    ∃ data, c.dump md5 files = ⟨c.items, data, c.pos, c.width⟩ ∧
      data.take c.pos = c.data.take c.pos := by
  have hsame' := hsame
  unfold isDataUnmodified at hsame'
  split at hsame'
  next items data hitems hdata =>
    simp only [Bool.and_eq_true, decide_eq_true_eq] at hsame'
    have hpayload := hmd5.items items hitems hsame'.1
    refine ⟨data.payload, ?_, hmd5.data data hdata hsame'.2⟩
    simp only [dump, hitems, hdata, if_pos hsame, hpayload]
  next => cases hsame'

theorem WellFormed.reused_sameRows (h : c.WellFormed) (hmd5 : c.NoCollision md5 files)
    (hsame : c.isDataUnmodified md5 files = true) : c.SameRows (openFrom (c.dump md5 files)) := by
  obtain ⟨data, hdump, hprefix⟩ := hmd5.dump_of_unmodified hsame
  have hlen : c.pos ≤ data.length := by
    have hlengths := congrArg List.length hprefix
    have hpos := h.pos_le
    simp only [length_take] at hlengths
    omega
  rw [hdump]
  refine ⟨rfl, fun idx hidx => ?_⟩
  obtain ⟨item, hitem⟩ : ∃ item, c.items[idx]? = some item :=
    ⟨_, getElem?_eq_getElem hidx⟩
  have hin := h.inside item (mem_of_getElem? hitem)
  have hread : (openFrom ⟨c.items, data, c.pos, c.width⟩).getView idx = some (item.bytes data) :=
    getView_of_item hitem (Nat.le_trans hin hlen)
  rw [hread, h.getView_eq hitem, bytes, bytes, ← slice_take hin, hprefix, slice_take hin]

end Reuse

/-! ## The columns in use -/

inductive Op where
  | setValue (idx : Nat) (val : List UInt8)
  | setAny (idx : Nat) (value : Option (List UInt8)) (insertSafe : Bool)
  | resize (size : Nat)
  | resizeData (size dataSize : Nat)
  | resizeDefault (size : Nat) (default : List UInt8)
  | copyItem (dst src : Nat)
  | shrinkItems (size : Nat)

def Op.run (c : StringColumn) : Op → Except ColumnError StringColumn
  | setValue idx val => c.setValue idx val
  | setAny idx value insertSafe => c.setAny idx value insertSafe
  | resize size => .ok (c.resize size)
  | resizeData size dataSize => .ok (c.resizeData size dataSize)
  | resizeDefault size default => c.resizeDefault size default
  | copyItem dst src => c.copyItem dst src
  | shrinkItems size => c.shrinkItems size

/-- A column is written to, or dumped and opened again.  `Open` asserts that the position is
inside the data file. -/
inductive Step : StringColumn → StringColumn → Prop where
  | op {c c' : StringColumn} (op : Op) (hrun : op.run c = .ok c') : Step c c'
  | reopen {c : StringColumn} {Digest : Type} [DecidableEq Digest] (md5 : Md5 Digest)
      (files : StringFiles Digest) (hmd5 : c.NoCollision md5 files)
      (hopen : (c.dump md5 files).pos ≤ (c.dump md5 files).data.length) :
      Step c (openFrom (c.dump md5 files))

theorem WellFormed.op {c' : StringColumn} (h : c.WellFormed) (op : Op)
    (hrun : op.run c = .ok c') : c'.WellFormed := by
  cases op with
  | setValue idx val => exact h.setValue hrun
  | setAny idx value insertSafe => exact h.setAny hrun
  | resize size =>
    cases hrun
    exact (h.withItems size).withData (Nat.le_max_right _ _)
  | resizeData size dataSize =>
    cases hrun
    exact (h.withItems _).withData (Nat.le_trans h.pos_le (Nat.le_max_left _ _))
  | resizeDefault size default => exact h.resizeDefault hrun
  | copyItem dst src => exact h.copyItem hrun
  | shrinkItems size => exact h.shrinkItems hrun

/-- Opening what was dumped gives a column whose rows stay inside the written bytes. -/
theorem WellFormed.reopen {Digest : Type} [DecidableEq Digest] {md5 : Md5 Digest}
    {files : StringFiles Digest} (h : c.WellFormed) (hmd5 : c.NoCollision md5 files)
    (hopen : (c.dump md5 files).pos ≤ (c.dump md5 files).data.length) :
    (openFrom (c.dump md5 files)).WellFormed := by
  cases hcase : c.isDataUnmodified md5 files with
  | true =>
    obtain ⟨data, hdump, -⟩ := hmd5.dump_of_unmodified hcase
    rw [hdump] at hopen ⊢
    exact ⟨hopen, h.width_lt, h.inside, h.length_lt⟩
  | false =>
    rw [dump_of_modified hcase] at hopen ⊢
    have hinside : c.dumpRows.Inside := foldlRecOn _ _ .start
      fun s hs item hitem => hs.step c.data (h.length_lt item hitem)
    exact ⟨hopen, h.width_lt, fun out hout => (hinside.items out hout).1,
      fun out hout => (hinside.items out hout).2⟩

theorem wellFormed_of_reachable (hreach : Reachable Initial Step c) : c.WellFormed := by
  refine Reachable.invariant WellFormed (fun _ => Initial.wellFormed) ?_ hreach
  intro s s' _ hs hstep
  cases hstep with
  | op op hrun => exact hs.op op hrun
  | reopen md5 files hmd5 hopen => exact hs.reopen hmd5 hopen

theorem length_writtenItems_le (pre : StringItem) (items : List StringItem) :
    (writtenItems pre items).length ≤ items.length := by
  induction items generalizing pre with
  | nil => exact Nat.le_refl 0
  | cons item rest ih =>
    rw [writtenItems]
    split
    · exact Nat.le_succ_of_le (ih pre)
    · exact Nat.succ_le_succ (ih item)

/-- Strings of at least four bytes on average leave room: the padding of a quarter of the
rows makes up for the rounding of the average. -/
theorem roomy_of_four_le (h : 4 ≤ c.bytesWritten / c.stringsWritten) : c.Roomy := by
  have hpos : 0 < c.stringsWritten := by
    by_contra hzero
    rw [Nat.eq_zero_of_not_pos hzero, Nat.div_zero] at h
    omega
  have hrows : c.stringsWritten ≤ c.size :=
    Nat.le_trans countP_le_length (length_writtenItems_le _ _)
  rw [Roomy, truncatedSize, if_pos hpos]
  calc c.bytesWritten
      ≤ c.bytesWritten / c.stringsWritten * c.stringsWritten + c.stringsWritten := by
        have hdiv := Nat.div_add_mod' c.bytesWritten c.stringsWritten
        have hmod := Nat.mod_lt c.bytesWritten hpos
        omega
    _ ≤ c.bytesWritten / c.stringsWritten * c.size +
          c.bytesWritten / c.stringsWritten * ((c.size + 3) / 4) := by
        have hquarter : 4 * ((c.size + 3) / 4) ≤
            c.bytesWritten / c.stringsWritten * ((c.size + 3) / 4) :=
          Nat.mul_le_mul_right _ h
        have hwhole := Nat.mul_le_mul_left (c.bytesWritten / c.stringsWritten) hrows
        omega
    _ = c.bytesWritten / c.stringsWritten * (c.size + (c.size + 3) / 4) := by
        rw [Nat.mul_add]
    _ ≤ c.bytesWritten / c.stringsWritten * max (c.size + (c.size + 3) / 4) 4096 :=
        Nat.mul_le_mul_left _ (Nat.le_max_left _ _)

/-- Dumping a column and opening it again gives back the string of every row exactly when the
files are reused or the average length leaves room for the strings.  The offsets of the new
file have to fit their 48 bits, and the checksums must not collide. -/
theorem reopened_sameRows_iff {Digest : Type} [DecidableEq Digest] (md5 : Md5 Digest)
    (files : StringFiles Digest) (c : StringColumn) (hreach : Reachable Initial Step c)
    (hfit : c.bytesWritten < 2 ^ 48) (hmd5 : c.NoCollision md5 files) :
    c.SameRows (openFrom (c.dump md5 files)) ↔ c.isDataUnmodified md5 files = true ∨ c.Roomy := by
  have h := wellFormed_of_reachable hreach
  cases hcase : c.isDataUnmodified md5 files with
  | true => exact iff_of_true (h.reused_sameRows hmd5 hcase) (.inl rfl)
  | false =>
    rw [dump_of_modified hcase, h.dumpFiles_sameRows_iff hfit]
    simp

def noFiles : StringFiles Unit := ⟨none, none⟩

def noMd5 : Md5 Unit := ⟨fun _ => (), fun _ => ()⟩

theorem noCollision_noFiles (c : StringColumn) : c.NoCollision noMd5 noFiles :=
  ⟨fun _ hfile => (nomatch hfile), fun _ hfile => (nomatch hfile)⟩

/-- A column of two rows that hold `abcd` and `efghi` is given back. -/
theorem reopened_sameRows_two : ∃ c : StringColumn, Reachable Initial Step c ∧
      c.getView 0 = some [97, 98, 99, 100] ∧ c.getView 1 = some [101, 102, 103, 104, 105] ∧
      c.SameRows (openFrom (c.dump noMd5 noFiles)) := by
  have hempty : Reachable Initial Step ⟨[], [], 0, 8⟩ :=
    .of_init ⟨rfl, rfl, rfl, by decide⟩
  have hrows := (hempty.tail (.op (.resize 2) rfl)).tail (.op (.setValue 0 [97, 98, 99, 100]) rfl)
  have hreach := hrows.tail (.op (.setValue 1 [101, 102, 103, 104, 105]) rfl)
  refine ⟨_, hreach, by decide, by decide, ?_⟩
  exact (reopened_sameRows_iff noMd5 noFiles _ hreach (by decide) (noCollision_noFiles _)).mpr
    (.inr (roomy_of_four_le (by decide)))

/-! ### Short strings are cut off -/

def pairItems (start n : Nat) : List StringItem :=
  (range' start n).map fun j => ⟨2 * j, 2⟩

theorem pairItems_succ_right (n : Nat) : pairItems 0 (n + 1) = pairItems 0 n ++ [⟨2 * n, 2⟩] := by
  simp [pairItems, range'_concat]

theorem set_pairItems (n rest : Nat) (item : StringItem) :
    (pairItems 0 n ++ replicate (rest + 1) blank).set n item =
      pairItems 0 n ++ item :: replicate rest .blank := by
  have hlen : (pairItems 0 n).length = n := by simp [pairItems]
  rw [set_append_right _ _ (Nat.le_of_eq hlen), hlen, Nat.sub_self, replicate_succ, set_cons_zero]

/-- A short string is appended as long as there is room. -/
theorem setValue_short {idx : Nat} {val : List UInt8} (hval : val.length < c.width)
    (hidx : idx < c.size) (hroom : c.pos + val.length ≤ c.data.length) :
    c.setValue idx val = .ok { c with
      items := c.items.set idx (.pack c.pos val.length)
      data := overwrite c.data c.pos val
      pos := c.pos + val.length } := by
  have hkept : Column.kept c.width val = some val := if_neg (Nat.not_le.mpr hval)
  simp only [setValue, hkept, if_neg (Nat.not_le.mpr hidx), if_pos hroom]

theorem reachable_pairs {n rest : Nat} (hn : n ≤ 2048) (hrest : n + rest = 2049) :
    ∃ c, Reachable Initial Step c ∧ c.items = pairItems 0 n ++ replicate rest .blank ∧
      c.data.length = 2049 * 256 ∧ c.pos = 2 * n ∧ c.width = 256 := by
  induction n generalizing rest with
  | zero =>
    have hempty : Reachable Initial Step ⟨[], [], 0, 256⟩ :=
      .of_init ⟨rfl, rfl, rfl, by decide⟩
    refine ⟨_, hempty.tail (.op (.resize 2049) rfl), ?_, ?_, rfl, rfl⟩
    · simp only [resize, withItems, withData, resized, pairItems, range'_zero, map_nil,
        take_nil, length_nil, Nat.sub_zero, nil_append, ← hrest, Nat.zero_add]
    · exact (length_resized _ _ _).trans rfl
  | succ n ih =>
    obtain ⟨c, hreach, hitems, hdata, hpos, hwidth⟩ := @ih (rest + 1) (by omega) (by omega)
    have hsize : c.size = 2049 := by
      rw [size, hitems, length_append, length_replicate]
      simp only [pairItems, length_map, length_range']
      omega
    have hroom : c.pos + ([97, 98] : List UInt8).length ≤ c.data.length := by
      simp only [length_cons, length_nil]
      omega
    have hset := @setValue_short c n [97, 98] (by rw [hwidth]; decide) (by omega) hroom
    refine ⟨_, hreach.tail (.op (.setValue n [97, 98]) hset), ?_, ?_, ?_, hwidth⟩
    · have hpack : pack c.pos ([97, 98] : List UInt8).length = ⟨2 * n, 2⟩ := by
        have hoffset : 2 * n % 2 ^ 48 = 2 * n := Nat.mod_eq_of_lt (by omega)
        have htwo : ([97, 98] : List UInt8).length % 2 ^ 16 = 2 := rfl
        rw [pack, hpos, hoffset, htwo]
      simp only [hitems, hpack, set_pairItems, pairItems_succ_right, append_assoc, singleton_append]
    · exact (length_overwrite hroom).trans hdata
    · simp only [hpos, length_cons, length_nil]
      omega

/-- Rows that were written one after the other are all written out. -/
theorem writtenItems_pairs {pre : StringItem} {start : Nat} (n : Nat)
    (hpre : pre.length = 0 ∨ pre.offset < 2 * start) :
    writtenItems pre (pairItems start n ++ [⟨2 * (start + n), 1⟩]) =
      pairItems start n ++ [⟨2 * (start + n), 1⟩] := by
  induction n generalizing start pre with
  | zero =>
    simp only [pairItems, range'_zero, map_nil, nil_append, writtenItems]
    rw [if_neg (by omega)]
  | succ n ih =>
    have hless : 2 * start < 2 * (start + 1) := by omega
    have hnext := @ih ⟨2 * start, 2⟩ (start + 1) (.inr hless)
    have hcons : pairItems start (n + 1) = ⟨2 * start, 2⟩ :: pairItems (start + 1) n := by
      simp only [pairItems, range'_succ, map_cons]
    have hsum : start + (n + 1) = start + 1 + n := by omega
    have hfirst : ¬ (2 * start = pre.offset ∧ 2 = pre.length) := by omega
    rw [hcons, hsum, cons_append, writtenItems, if_neg hfirst, hnext]

/-- After 2048 strings of two bytes and one of one byte the average is rounded down to one
byte: the data file is cut to 4096 bytes and the last string is lost. -/
theorem reopened_rows_lost :
    ∃ c : StringColumn, Reachable Initial Step c ∧ c.bytesWritten < 2 ^ 48 ∧
      c.NoCollision noMd5 noFiles ∧ ¬ c.SameRows (openFrom (c.dump noMd5 noFiles)) := by
  obtain ⟨c, hreach, hitems, hdata, hpos, hwidth⟩ :=
    @reachable_pairs 2048 1 (Nat.le_refl _) rfl
  have hsize : c.size = 2049 := by
    rw [size, hitems, length_append, length_replicate]
    simp only [pairItems, length_map, length_range']
  have hroom : c.pos + ([99] : List UInt8).length ≤ c.data.length := by
    rw [hdata, hpos]
    decide
  have hset := @setValue_short c 2048 [99] (by rw [hwidth]; decide) (by omega) hroom
  obtain ⟨d, hd⟩ : ∃ d : StringColumn, c.setValue 2048 [99] = .ok d := ⟨_, hset⟩
  have hditems : d.items = pairItems 0 2048 ++ [⟨2 * (0 + 2048), 1⟩] := by
    rw [hset] at hd
    cases hd
    simp only [hitems, set_pairItems 2048 0, hpos]
    rfl
  have hdreach : Reachable Initial Step d := hreach.tail (.op (.setValue 2048 [99]) hd)
  have hwritten : writtenItems .blank d.items = d.items := by
    rw [hditems]
    exact writtenItems_pairs 2048 (.inl rfl)
  have hbytes : d.bytesWritten = 4097 := by
    rw [bytesWritten, hwritten, hditems]
    decide +kernel
  have hstrings : d.stringsWritten = 2049 := by
    rw [stringsWritten, hwritten, hditems]
    decide +kernel
  have hdsize : d.size = 2049 := by
    rw [size, hditems]
    simp [pairItems]
  have hcut : ¬ d.Roomy := by
    rw [Roomy, hbytes, hstrings, hdsize, truncatedSize, if_pos (by decide)]
    decide
  have hfit : d.bytesWritten < 2 ^ 48 := by rw [hbytes]; decide
  refine ⟨d, hdreach, hfit, noCollision_noFiles d, fun hsame => hcut ?_⟩
  exact ((wellFormed_of_reachable hdreach).dumpFiles_sameRows_iff hfit).mp hsame

end StringColumn

end Neug.Storage
