import Neug.Library.Fallible
import Neug.Wal.LocalWal

/-! # What the parser reads back

A file written by appends holds the records one after the other and zeros after
them.  The scan of such a file goes from record to record as long as every length
fits the header, and the parser then has every record in its place: updates in the
order of their timestamps, inserts in the table.  A length that does not fit is
read back as another one, so the record cannot be returned.
-/

namespace Neug.Wal

open Library Function LocalWalParser List

def encodeAll (rs : List WalRecord) : List UInt8 := rs.flatMap WalRecord.bytes

def CommitTimestamp (ts : Nat) : Prop := 0 < ts ∧ ts < 2 ^ 32 - 1

theorem length_headerBytes (timestamp word : Nat) :
    (headerBytes timestamp word).length = kHeaderSize := by
  simp [headerBytes, kHeaderSize]

theorem WalRecord.length_bytes (r : WalRecord) :
    r.bytes.length = kHeaderSize + r.payload.length := by
  rw [bytes, length_append, length_headerBytes]

/-! ### What a file holds -/

/-- The file has some bytes, zeros after them, and room for one more header. -/
structure WalFile.Shows (f : WalFile) (l : List UInt8) : Prop where
  bytes_eq : f.bytes = image l
  room : l.length + kHeaderSize ≤ f.size

/-- The next record goes where the bytes of the file end. -/
structure WalFile.Holds (f : WalFile) (l : List UInt8) : Prop extends f.Shows l where
  used_eq : f.used = l.length

namespace WalFile

theorem create_holds : create.Holds [] :=
  ⟨⟨rfl, by decide⟩, rfl⟩

theorem le_reserved (f : WalFile) (length : Nat) :
    f.used + length + kHeaderSize ≤ f.reserved length := by
  unfold reserved kTruncSize
  split
  · omega
  · omega

theorem Holds.append {f : WalFile} {l : List UInt8} (h : f.Holds l) (data : List UInt8) :
    (f.append data).Holds (l ++ data) where
  bytes_eq := by
    change writeBytes f.bytes f.used (appended data) = _
    rw [h.bytes_eq, h.used_eq, writeBytes_image, appended, ← append_assoc, image_append_zeros]
  used_eq := by
    rw [length_append, ← h.used_eq]
    rfl
  room := by
    rw [length_append, ← h.used_eq]
    exact f.le_reserved data.length

theorem Holds.foldl {f : WalFile} {l : List UInt8} (h : f.Holds l) (rs : List WalRecord) :
    (rs.foldl (fun f r => f.append r.bytes) f).Holds (l ++ encodeAll rs) := by
  induction rs generalizing f l with
  | nil => simpa [encodeAll] using h
  | cons r rest ih =>
    have hrest := ih (h.append r.bytes)
    rwa [append_assoc] at hrest

/-- A file written by appends holds its records. -/
theorem ofRecords_holds (rs : List WalRecord) : (ofRecords rs).Holds (encodeAll rs) :=
  create_holds.foldl rs

end WalFile

/-! ### Scanning -/

variable {f : WalFile} {post : List UInt8} {file fuel : Nat} {rs : List WalRecord}
  {pre : List UInt8} {r : WalRecord} {pos : Int}

/-- A header inside what a file holds is read as it was written. -/
theorem read_header {timestamp word : Nat}
    (hbytes : f.bytes = image (pre ++ headerBytes timestamp word ++ post)) :
    leNat (readBytes f.bytes pre.length 4) = timestamp % 256 ^ 4 ∧
      leNat (readBytes f.bytes (pre.length + 4) 4) = word % 256 ^ 4 := by
  constructor
  · have hsplit : pre ++ headerBytes timestamp word ++ post =
        pre ++ leBytes 4 timestamp ++ (leBytes 4 word ++ post) := by
      simp [headerBytes]
    have hread := readBytes_image_append pre (leBytes 4 timestamp) (leBytes 4 word ++ post)
    rw [length_leBytes] at hread
    rw [hbytes, hsplit, hread, leNat_leBytes]
  · have hsplit : pre ++ headerBytes timestamp word ++ post =
        (pre ++ leBytes 4 timestamp) ++ leBytes 4 word ++ post := by
      simp [headerBytes]
    have hread := readBytes_image_append (pre ++ leBytes 4 timestamp) (leBytes 4 word) post
    rw [length_leBytes, length_append, length_leBytes] at hread
    rw [hbytes, hsplit, hread, leNat_leBytes]

theorem headerWord_lt (isUpdate : Bool) (length : Nat) : headerWord isUpdate length < 256 ^ 4 := by
  unfold headerWord
  split <;> omega

theorem headerWord_mod_two (isUpdate : Bool) (length : Nat) :
    decide (headerWord isUpdate length % 2 = 1) = isUpdate := by
  unfold headerWord
  cases isUpdate with
  | false => simp
  | true => simp [Nat.add_mod]

/-- A length below 2^30 is read back as it was written. -/
theorem headerLength_headerWord (isUpdate : Bool) {length : Nat} (h : length < 2 ^ 30) :
    headerLength (headerWord isUpdate length) = length := by
  have hhalf : headerWord isUpdate length / 2 = length := by
    unfold headerWord
    split <;> omega
  rw [headerLength, hhalf, if_pos h]

theorem sizeOfLength_natCast {length : Nat} (h : length < 2 ^ 30) :
    sizeOfLength (length : Int) = length := by
  unfold sizeOfLength
  omega

/-- Where the payloads of records lie that begin at an offset of a file. -/
def scannedAt (file : Nat) : Nat → List WalRecord → List ScannedRecord
  | _, [] => []
  | offset, r :: rest =>
    ⟨r.timestamp, r.isUpdate, ⟨file, offset + kHeaderSize, r.payload.length⟩⟩ ::
      scannedAt file (offset + r.bytes.length) rest

theorem length_scannedAt (file offset : Nat) (rs : List WalRecord) :
    (scannedAt file offset rs).length = rs.length := by
  induction rs generalizing offset with
  | nil => rfl
  | cons r rest ih => rw [scannedAt, length_cons, length_cons, ih]

/-- What one step of a scan that ends has read. -/
theorem scanFile_cases {scanned : List ScannedRecord}
    (h : scanFile f file fuel pos = some scanned) :
    ∃ more, fuel = more + 1 ∧ ¬(pos < 0 ∨ (f.size : Int) < pos + kHeaderSize) ∧
      (leNat (readBytes f.bytes pos.toNat 4) = 0 ∧ scanned = [] ∨
        leNat (readBytes f.bytes pos.toNat 4) ≠ 0 ∧ ∃ word rest,
          word = leNat (readBytes f.bytes (pos.toNat + 4) 4) ∧
          scanFile f file more (pos + kHeaderSize + headerLength word) = some rest ∧
          scanned = ⟨leNat (readBytes f.bytes pos.toNat 4), word % 2 = 1,
            ⟨file, pos.toNat + kHeaderSize, sizeOfLength (headerLength word)⟩⟩ :: rest) := by
  cases fuel with
  | zero => cases h
  | succ more =>
    rw [scanFile] at h
    split at h
    · cases h
    · next hin =>
        refine ⟨more, rfl, hin, ?_⟩
        dsimp only at h
        split at h
        · next hzero =>
            cases h
            exact .inl ⟨hzero, rfl⟩
        · next hzero =>
            obtain ⟨rest, hrest, rfl⟩ := Option.map_eq_some_iff.mp h
            exact .inr ⟨hzero, _, rest, rfl, hrest, rfl⟩

theorem scanFile_stop (h : f.Shows (pre ++ post))
    (hzero : leNat (readBytes f.bytes pre.length 4) = 0) (file fuel : Nat) :
    scanFile f file (fuel + 1) pre.length = some [] := by
  have hroom := h.room
  rw [length_append] at hroom
  have hin : ¬((pre.length : Int) < 0 ∨ (f.size : Int) < pre.length + (kHeaderSize : Nat)) := by
    omega
  rw [scanFile, if_neg hin]
  simp only [Int.toNat_natCast, hzero, if_true]

theorem scanFile_end {l : List UInt8} (h : f.Shows l) (file fuel : Nat) :
    scanFile f file (fuel + 1) l.length = some [] := by
  have hshows : f.Shows (l ++ []) := by rwa [append_nil]
  apply scanFile_stop hshows
  rw [h.bytes_eq, readBytes_image, drop_length]
  exact leNat_replicate_zero 4

theorem scanFile_record (h : f.Shows (pre ++ r.bytes ++ post)) (hts : CommitTimestamp r.timestamp)
    (hlen : r.payload.length < 2 ^ 30) (file fuel : Nat) : scanFile f file (fuel + 1) pre.length =
      (scanFile f file fuel (pre ++ r.bytes).length).map
        (⟨r.timestamp, r.isUpdate, ⟨file, pre.length + kHeaderSize, r.payload.length⟩⟩ :: ·) := by
  have hroom := h.room
  rw [length_append, length_append, r.length_bytes] at hroom
  have hin : ¬((pre.length : Int) < 0 ∨ (f.size : Int) < pre.length + (kHeaderSize : Nat)) := by
    omega
  have hbytes : f.bytes = image (pre ++
      headerBytes r.timestamp (headerWord r.isUpdate r.payload.length) ++ (r.payload ++ post)) := by
    rw [h.bytes_eq, WalRecord.bytes]
    simp
  obtain ⟨hread, hword⟩ := read_header hbytes
  rw [Nat.mod_eq_of_lt (headerWord_lt _ _)] at hword
  rw [Nat.mod_eq_of_lt (by have := hts.2; omega)] at hread
  have hnext : (pre.length : Int) + (kHeaderSize : Nat) + (r.payload.length : Nat) =
      ((pre ++ r.bytes).length : Nat) := by
    rw [length_append, r.length_bytes]
    omega
  rw [scanFile, if_neg hin]
  simp only [Int.toNat_natCast, hread, hword, if_neg (Nat.ne_of_gt hts.1),
    headerLength_headerWord _ hlen, sizeOfLength_natCast hlen, headerWord_mod_two, hnext]

/-- A scan of a file written by appends meets its records. -/
theorem scanFile_records (pre : List UInt8) (h : f.Shows (pre ++ encodeAll rs ++ post))
    (hts : ∀ r ∈ rs, CommitTimestamp r.timestamp) (hlen : ∀ r ∈ rs, r.payload.length < 2 ^ 30)
    (file fuel : Nat) : scanFile f file (rs.length + fuel) pre.length =
      (scanFile f file fuel (pre ++ encodeAll rs).length).map
        (scannedAt file pre.length rs ++ ·) := by
  induction rs generalizing pre with
  | nil =>
    rw [encodeAll, flatMap_nil, append_nil, length_nil, Nat.zero_add]
    exact Option.map_id'.symm
  | cons r rest ih =>
    have hsplit : pre ++ encodeAll (r :: rest) = pre ++ r.bytes ++ encodeAll rest := by
      simp [encodeAll]
    rw [hsplit] at h ⊢
    rw [forall_mem_cons] at hts hlen
    have hhead : f.Shows (pre ++ r.bytes ++ (encodeAll rest ++ post)) := by
      rwa [← append_assoc]
    rw [length_cons, Nat.add_right_comm, scanFile_record hhead hts.1 hlen.1,
      ih (pre ++ r.bytes) h hts.2 hlen.2, Option.map_map, scannedAt, length_append]
    rfl

theorem scanFile_add {scanned : List ScannedRecord} (h : scanFile f file fuel pos = some scanned)
    (extra : Nat) : scanFile f file (extra + fuel) pos = some scanned := by
  induction fuel generalizing pos scanned with
  | zero => cases h
  | succ fuel ih =>
    obtain ⟨more, hmore, hin, hread⟩ := scanFile_cases h
    cases hmore
    rw [← Nat.add_assoc, scanFile, if_neg hin]
    rcases hread with ⟨hzero, rfl⟩ | ⟨hzero, word, rest, rfl, hrest, rfl⟩
    · rw [if_pos hzero]
    · rw [if_neg hzero, ih hrest, Option.map_some]

/-- A scan that ends has passed the records whose lengths fit the header. -/
theorem scanFile_split (h : f.Shows (encodeAll rs ++ post))
    (hts : ∀ r ∈ rs, CommitTimestamp r.timestamp) (hlen : ∀ r ∈ rs, r.payload.length < 2 ^ 30)
    {scanned : List ScannedRecord} (hscan : scanFile f file fuel 0 = some scanned) :
    ∃ rest, scanFile f file fuel (encodeAll rs).length = some rest ∧
      scanned = scannedAt file 0 rs ++ rest := by
  have hmore := scanFile_add hscan rs.length
  have hrecords := scanFile_records [] h hts hlen file fuel
  obtain ⟨rest, hrest, heq⟩ := Option.map_eq_some_iff.mp (hrecords.symm.trans hmore)
  exact ⟨rest, hrest, heq.symm⟩

/-- What a scan met is a record with the same timestamp, kind and payload. -/
structure Reads (files : List WalFile) (s : ScannedRecord) (r : WalRecord) : Prop where
  timestamp_eq : s.timestamp = r.timestamp
  isUpdate_eq : s.isUpdate = r.isUpdate
  payload_eq : s.content.bytes files = r.payload

/-- The payload of every record lies where the scan says. -/
theorem scannedAt_reads {files : List WalFile} (hfile : files[file]? = some f) (pre : List UInt8)
    (hbytes : f.bytes = image (pre ++ encodeAll rs ++ post)) :
    Forall₂ (Reads files) (scannedAt file pre.length rs) rs := by
  induction rs generalizing pre with
  | nil => exact .nil
  | cons r rest ih =>
    have hsplit : pre ++ encodeAll (r :: rest) ++ post =
        (pre ++ r.bytes) ++ encodeAll rest ++ post := by
      simp [encodeAll]
    have hrest := ih (pre ++ r.bytes) (hbytes.trans (congrArg image hsplit))
    rw [length_append] at hrest
    refine .cons ⟨rfl, rfl, ?_⟩ hrest
    have hpayload : pre ++ encodeAll (r :: rest) ++ post =
        (pre ++ headerBytes r.timestamp (headerWord r.isUpdate r.payload.length)) ++ r.payload ++
          (encodeAll rest ++ post) := by
      simp [encodeAll, WalRecord.bytes]
    have hread := readBytes_image_append
      (pre ++ headerBytes r.timestamp (headerWord r.isUpdate r.payload.length)) r.payload
      (encodeAll rest ++ post)
    rw [length_append, length_headerBytes, ← hpayload, ← hbytes] at hread
    simpa only [WalContentUnit.bytes, hfile] using hread

/-- Where the payloads of the records of several files lie. -/
def scannedFrom : Nat → List (List WalRecord) → List ScannedRecord
  | _, [] => []
  | file, rs :: rest => scannedAt file 0 rs ++ scannedFrom (file + 1) rest

theorem WalFile.ofRecords_size_pos (rs : List WalRecord) : (WalFile.ofRecords rs).size ≠ 0 := by
  have hroom := (WalFile.ofRecords_holds rs).room
  unfold kHeaderSize at hroom
  omega

/-- A scan of files written by appends meets the records of each. -/
theorem scanFiles_records {files : List (List WalRecord)}
    (hts : ∀ r ∈ files.flatten, CommitTimestamp r.timestamp)
    (hlen : ∀ r ∈ files.flatten, r.payload.length < 2 ^ 30) (file : Nat)
    (hfuel : ∀ rs ∈ files, rs.length < fuel) :
    scanFiles fuel file (files.map .ofRecords) = some (scannedFrom file files) := by
  induction files generalizing file with
  | nil => rfl
  | cons rs rest ih =>
    rw [flatten_cons, forall_mem_append] at hts hlen
    rw [forall_mem_cons] at hfuel
    have hhere : scanFile (.ofRecords rs) file fuel 0 = some (scannedAt file 0 rs) := by
      have hholds := WalFile.ofRecords_holds rs
      have hshows : (WalFile.ofRecords rs).Shows ([] ++ encodeAll rs ++ []) := by
        simpa using hholds.toShows
      obtain ⟨n, hn⟩ := Nat.exists_eq_add_of_lt hfuel.1
      have hscan := scanFile_records [] hshows hts.1 hlen.1 file (n + 1)
      rw [nil_append, scanFile_end hholds.toShows, Option.map_some, append_nil,
        ← Nat.add_assoc, ← hn] at hscan
      exact hscan
    rw [map_cons, scanFiles, if_neg (WalFile.ofRecords_size_pos rs), hhere,
      ih hts.2 hlen.2 (file + 1) hfuel.2]
    rfl

/-- The payloads of the records of several files lie where the scan says. -/
theorem scannedFrom_reads {all : List WalFile} {files : List (List WalRecord)}
    (hall : ∀ i rs, files[i]? = some rs → all[file + i]? = some (.ofRecords rs)) :
    Forall₂ (Reads all) (scannedFrom file files) files.flatten := by
  induction files generalizing file with
  | nil => exact .nil
  | cons rs rest ih =>
    have hbytes : (WalFile.ofRecords rs).bytes = image ([] ++ encodeAll rs ++ []) := by
      rw [(WalFile.ofRecords_holds rs).bytes_eq]
      simp
    have hhere := scannedAt_reads (hall 0 rs rfl) [] hbytes
    refine rel_append hhere (ih fun i l hl => ?_)
    rw [Nat.add_assoc, Nat.add_comm 1 i]
    exact hall (i + 1) l hl

/-! ### The tables of the parser -/

namespace LocalWalParser

theorem foldl_updateWalList (rs : List ScannedRecord) (p : LocalWalParser) :
    (rs.foldl add p).updateWalList = p.updateWalList ++ rs.filter (·.isUpdate) := by
  induction rs generalizing p with
  | nil => simp
  | cons r rest ih =>
    rw [foldl_cons, ih]
    cases hr : r.isUpdate with
    | true => simp [add, hr]
    | false => simp [add, hr]

variable {rs : List ScannedRecord}

theorem foldl_insertWalList_of_ne {ts : Nat} (h : ∀ r ∈ rs, r.isUpdate = false → r.timestamp ≠ ts)
    (p : LocalWalParser) : (rs.foldl add p).insertWalList ts = p.insertWalList ts := by
  induction rs generalizing p with
  | nil => rfl
  | cons r rest ih =>
    rw [forall_mem_cons] at h
    rw [foldl_cons, ih h.2]
    cases hr : r.isUpdate with
    | true => simp [add, hr]
    | false => simp [add, hr, update_of_ne (h.1 hr).symm]

theorem of_foldl_insertWalList {p : LocalWalParser} {ts : Nat} {u : WalContentUnit}
    (h : (rs.foldl add p).insertWalList ts = some u) : p.insertWalList ts = some u ∨
      ∃ r ∈ rs, r.isUpdate = false ∧ r.timestamp = ts ∧ r.content = u := by
  induction rs generalizing p with
  | nil => exact .inl h
  | cons r rest ih =>
    rcases ih h with hplace | ⟨s, hs, hrest⟩
    · cases hr : r.isUpdate with
      | true =>
        rw [add, if_pos hr] at hplace
        exact .inl hplace
      | false =>
        by_cases hts : r.timestamp = ts
        · subst hts
          simp only [add, hr, Bool.false_eq_true, if_false, update_self,
            Option.some.injEq] at hplace
          exact .inr ⟨r, mem_cons_self, hr, rfl, hplace⟩
        · simp only [add, hr, Bool.false_eq_true, if_false, update_of_ne (Ne.symm hts)] at hplace
          exact .inl hplace
    · exact .inr ⟨s, mem_cons_of_mem r hs, hrest⟩

@[simp] theorem ofScanned_insertWalList (rs : List ScannedRecord) :
    (ofScanned rs).insertWalList = (rs.foldl add empty).insertWalList := rfl

theorem ofScanned_updateWalList (rs : List ScannedRecord) : (ofScanned rs).updateWalList =
      (rs.filter (·.isUpdate)).insertionSort fun r r' => r.timestamp ≤ r'.timestamp := by
  unfold ofScanned sortUpdates
  rw [foldl_updateWalList]
  rfl

theorem mem_ofScanned_updateWalList {r : ScannedRecord} :
    r ∈ (ofScanned rs).updateWalList ↔ r ∈ rs ∧ r.isUpdate = true := by
  rw [ofScanned_updateWalList, mem_insertionSort, mem_filter]

theorem ofScanned_sorted (rs : List ScannedRecord) :
    (ofScanned rs).updateWalList.Pairwise fun u u' => u.timestamp ≤ u'.timestamp := by
  exact pairwise_insertionSort _ _

end LocalWalParser

/-! ### The round trip -/

/-- The parser returns exactly the given records: the updates in the order of their
timestamps, each insert under its timestamp, and nothing else. -/
structure Returns (files : List WalFile) (p : LocalWalParser) (records : List WalRecord) :
    Prop where
  updates : (p.getUpdateWals.map fun u => (u.timestamp, u.content.bytes files)).Perm
    ((records.filter (·.isUpdate)).map fun r => (r.timestamp, r.payload))
  sorted : p.getUpdateWals.Pairwise fun u u' => u.timestamp < u'.timestamp
  inserts : ∀ r ∈ records, r.isUpdate = false →
    (p.getInsertWal r.timestamp).map (·.bytes files) = some r.payload
  only : ∀ ts, (∀ r ∈ records, r.isUpdate = false → r.timestamp ≠ ts) → p.getInsertWal ts = none

section Reading

variable {files : List WalFile} {scanned : List ScannedRecord} {records : List WalRecord}

def DistinctTimestamps (records : List WalRecord) : Prop :=
  records.Pairwise fun r r' => r.timestamp ≠ r'.timestamp

def WalRecord.mark (r : WalRecord) : Nat × Bool := (r.timestamp, r.isUpdate)

section

variable (h : Forall₂ (Reads files) scanned records)
include h

theorem reads_marks :
    scanned.map (fun s => (s.timestamp, s.isUpdate)) = records.map WalRecord.mark := by
  induction h with
  | nil => rfl
  | cons hr _ ih =>
    rw [map_cons, map_cons, hr.timestamp_eq, hr.isUpdate_eq, ih]
    rfl

theorem reads_updates :
    (scanned.filter (·.isUpdate)).map (fun u => (u.timestamp, u.content.bytes files)) =
      (records.filter (·.isUpdate)).map fun r => (r.timestamp, r.payload) := by
  induction h with
  | nil => rfl
  | @cons s r rest rest' hr _ ih =>
    rw [filter_cons, filter_cons, hr.isUpdate_eq]
    split
    · rw [map_cons, map_cons, hr.timestamp_eq, hr.payload_eq, ih]
    · exact ih

theorem reads_distinct (hdistinct : DistinctTimestamps records) :
    scanned.Pairwise fun s s' => s.timestamp ≠ s'.timestamp := by
  have hrecords : (records.map WalRecord.mark).Pairwise (·.1 ≠ ·.1) := pairwise_map.mpr hdistinct
  rwa [← reads_marks h, pairwise_map] at hrecords

end

theorem LocalWalParser.ofScanned_sorted_strict
    (hdistinct : scanned.Pairwise fun s s' => s.timestamp ≠ s'.timestamp) :
    (ofScanned scanned).updateWalList.Pairwise fun u u' => u.timestamp < u'.timestamp := by
  have hne : (ofScanned scanned).updateWalList.Pairwise
      fun s s' => s.timestamp ≠ s'.timestamp := by
    rw [ofScanned_updateWalList]
    exact ((perm_insertionSort _ _).pairwise_iff Ne.symm).mpr (hdistinct.filter _)
  exact ((ofScanned_sorted scanned).and hne).imp fun ⟨hle, hne⟩ =>
    Nat.lt_of_le_of_ne hle hne

/-- A parser that met what the records are returns the records. -/
theorem returns_of_reads (h : Forall₂ (Reads files) scanned records)
    (hdistinct : DistinctTimestamps records) :
    Returns files (ofScanned scanned) records where
  updates := by
    rw [getUpdateWals, ofScanned_updateWalList, ← reads_updates h]
    exact (perm_insertionSort _ _).map _
  sorted := ofScanned_sorted_strict (reads_distinct h hdistinct)
  inserts := by
    intro r hr hinsert
    obtain ⟨s, hs, hread⟩ := exists_of_forall₂ h.flip hr
    obtain ⟨pre, post, rfl⟩ := append_of_mem hs
    have hpost : ∀ s' ∈ post, s'.isUpdate = false → s'.timestamp ≠ s.timestamp := by
      intro s' hs' _
      have hpair := (pairwise_append.mp (reads_distinct h hdistinct)).2.1
      exact ((pairwise_cons.mp hpair).1 s' hs').symm
    -- the place of a timestamp is that of the last insert that has it
    rw [← hread.timestamp_eq, getInsertWal, ofScanned_insertWalList, foldl_append, foldl_cons,
      foldl_insertWalList_of_ne hpost]
    simp [add, hread.isUpdate_eq.trans hinsert, hread.payload_eq]
  only := by
    intro ts hts
    rw [getInsertWal, ofScanned_insertWalList, foldl_insertWalList_of_ne]
    · rfl
    · intro s hs hinsert
      obtain ⟨r, hr, hread⟩ := exists_of_forall₂ h hs
      rw [hread.timestamp_eq]
      exact hts r hr (hread.isUpdate_eq.symm.trans hinsert)

end Reading

/-- The parser meets exactly the given records, file by file and in their order. -/
def Parses (files : List WalFile) (records : List WalRecord) : Prop :=
  ∃ fuel scanned, scanFiles fuel 0 files = some scanned ∧
    Forall₂ (Reads files) scanned records

theorem scanFiles_unique {fuel' : Nat} {files : List WalFile}
    {scanned scanned' : List ScannedRecord} (h : scanFiles fuel file files = some scanned)
    (h' : scanFiles fuel' file files = some scanned') : scanned = scanned' := by
  induction files generalizing file scanned scanned' with
  | nil =>
    cases h
    cases h'
    rfl
  | cons f rest ih =>
    rw [scanFiles] at h h'
    split at h
    · next hsize =>
        rw [if_pos hsize] at h'
        exact ih h h'
    · next hsize =>
        rw [if_neg hsize] at h'
        obtain ⟨here, hhere, h⟩ := Option.bind_eq_some_iff.mp h
        obtain ⟨later, hlater, h⟩ := Option.bind_eq_some_iff.mp h
        obtain ⟨here', hhere', h'⟩ := Option.bind_eq_some_iff.mp h'
        obtain ⟨later', hlater', h'⟩ := Option.bind_eq_some_iff.mp h'
        cases h
        cases h'
        have hmore := scanFile_add hhere fuel'
        have hmore' := scanFile_add hhere' fuel
        rw [Nat.add_comm, hmore'] at hmore
        rw [Option.some.inj hmore, ih hlater hlater']

theorem parses_ofRecords (files : List (List WalRecord))
    (hts : ∀ r ∈ files.flatten, CommitTimestamp r.timestamp)
    (hlen : ∀ r ∈ files.flatten, r.payload.length < 2 ^ 30) :
    Parses (files.map .ofRecords) files.flatten := by
  have hfuel : ∀ rs ∈ files, rs.length < files.flatten.length + 1 := by
    intro rs hrs
    have hsub := (sublist_flatten_of_mem hrs).length_le
    omega
  refine ⟨files.flatten.length + 1, _, scanFiles_records hts hlen 0 hfuel, ?_⟩
  apply scannedFrom_reads
  intro i rs hi
  rw [Nat.zero_add, getElem?_map, hi]
  rfl

/-! ### Lengths that do not fit the header -/

/-- A size that a signed length of 31 bits can be read back as. -/
def FitsHeader (size : Nat) : Prop := size < 2 ^ 30 ∨ 2 ^ 64 - 2 ^ 30 ≤ size

theorem fitsHeader_sizeOfLength {word : Nat} (h : word < 256 ^ 4) :
    FitsHeader (sizeOfLength (headerLength word)) := by
  unfold FitsHeader sizeOfLength headerLength
  split
  · omega
  · omega

/-- Every size that a scan meets was read from a header. -/
theorem scanFile_fitsHeader {scanned : List ScannedRecord}
    (h : scanFile f file fuel pos = some scanned) : ∀ s ∈ scanned, FitsHeader s.content.size := by
  induction fuel generalizing pos scanned with
  | zero => cases h
  | succ fuel ih =>
    obtain ⟨more, hmore, -, hread⟩ := scanFile_cases h
    cases hmore
    rcases hread with ⟨-, rfl⟩ | ⟨-, word, rest, rfl, hrest, rfl⟩
    · simp
    · refine forall_mem_cons.mpr ⟨?_, ih hrest⟩
      apply fitsHeader_sizeOfLength
      have hlt := leNat_lt (readBytes f.bytes (pos.toNat + 4) 4)
      rwa [length_readBytes] at hlt

theorem FitsHeader.lt {size : Nat} (h : FitsHeader size) (hsize : size < 2 ^ 63) :
    size < 2 ^ 30 := by
  unfold FitsHeader at h
  omega

section

variable {files : List WalFile}

theorem scanFiles_fitsHeader {scanned : List ScannedRecord}
    (h : scanFiles fuel file files = some scanned) : ∀ s ∈ scanned, FitsHeader s.content.size := by
  induction files generalizing file scanned with
  | nil =>
    cases h
    simp
  | cons f rest ih =>
    rw [scanFiles] at h
    split at h
    · exact ih h
    · obtain ⟨here, hhere, h⟩ := Option.bind_eq_some_iff.mp h
      obtain ⟨later, hlater, h⟩ := Option.bind_eq_some_iff.mp h
      cases h
      exact forall_mem_append.mpr ⟨scanFile_fitsHeader hhere, ih hlater⟩

theorem WalContentUnit.length_bytes_fitsHeader {u : WalContentUnit}
    (h : FitsHeader u.size) : FitsHeader (u.bytes files).length := by
  unfold bytes
  split
  · rwa [length_readBytes]
  · exact .inl (by decide)

theorem Parses.fitsHeader {records : List WalRecord}
    (h : Parses files records) (hr : r ∈ records) : FitsHeader r.payload.length := by
  obtain ⟨fuel, scanned, hscan, hreads⟩ := h
  obtain ⟨s, hs, hread⟩ := exists_of_forall₂ hreads.flip hr
  rw [← hread.payload_eq]
  exact WalContentUnit.length_bytes_fitsHeader (scanFiles_fitsHeader hscan s hs)

theorem returned_fitsHeader {p : LocalWalParser} {records : List WalRecord}
    (hopen : openFiles fuel files = some p) (h : Returns files p records)
    (hr : r ∈ records) : FitsHeader r.payload.length := by
  obtain ⟨scanned, hscan, rfl⟩ := Option.map_eq_some_iff.mp hopen
  have hfits := scanFiles_fitsHeader hscan
  cases hkind : r.isUpdate with
  | true =>
    have hmem : (r.timestamp, r.payload) ∈
        (records.filter (·.isUpdate)).map fun r => (r.timestamp, r.payload) :=
      mem_map.mpr ⟨r, mem_filter.mpr ⟨hr, hkind⟩, rfl⟩
    obtain ⟨u, hu, heq⟩ := mem_map.mp (h.updates.mem_iff.mpr hmem)
    have hsize := hfits u (mem_ofScanned_updateWalList.mp hu).1
    have hpayload : u.content.bytes files = r.payload := congrArg Prod.snd heq
    rw [← hpayload]
    exact WalContentUnit.length_bytes_fitsHeader hsize
  | false =>
    obtain ⟨u, hu, heq⟩ := Option.map_eq_some_iff.mp (h.inserts r hr hkind)
    rw [← heq]
    apply WalContentUnit.length_bytes_fitsHeader
    rcases of_foldl_insertWalList hu with hnone | ⟨s, hs, -, -, rfl⟩
    · cases hnone
    · exact hfits s hs

end

/-- Parsing files written by appends returns exactly the records appended to them,
if and only if every payload is shorter than 2^30 bytes. -/
theorem parser_returns_records_iff (files : List (List WalRecord))
    (hts : ∀ r ∈ files.flatten, CommitTimestamp r.timestamp)
    (hdistinct : DistinctTimestamps files.flatten)
    (hlen : ∀ r ∈ files.flatten, r.payload.length < 2 ^ 63) :
    (∃ fuel p, openFiles fuel (files.map .ofRecords) = some p ∧
      Returns (files.map .ofRecords) p files.flatten) ↔
    ∀ r ∈ files.flatten, r.payload.length < 2 ^ 30 := by
  constructor
  · rintro ⟨fuel, p, hopen, hreturns⟩ r hr
    exact (returned_fitsHeader hopen hreturns hr).lt (hlen r hr)
  · intro hshort
    obtain ⟨fuel, scanned, hscan, hreads⟩ := parses_ofRecords files hts hshort
    exact ⟨fuel, _, congrArg (Option.map _) hscan, returns_of_reads hreads hdistinct⟩

/-- An update in one file and an older insert in another are both returned. -/
theorem parser_returns_update_and_insert : ∃ fuel p, openFiles fuel
        ([[⟨2, true, [7]⟩], [⟨1, false, [8, 9]⟩]].map .ofRecords) = some p ∧
      Returns ([[⟨2, true, [7]⟩], [⟨1, false, [8, 9]⟩]].map .ofRecords) p
        [⟨2, true, [7]⟩, ⟨1, false, [8, 9]⟩] :=
  (parser_returns_records_iff [[⟨2, true, [7]⟩], [⟨1, false, [8, 9]⟩]]
    (by unfold CommitTimestamp; decide) (by unfold DistinctTimestamps; decide) (by decide)).mpr
    (by decide)

/-- One update of 2^30 bytes, alone in its file, is not returned. -/
theorem parser_misses_long_record : ¬∃ fuel p, openFiles fuel
        [WalFile.ofRecords [⟨1, true, replicate (2 ^ 30) 0⟩]] = some p ∧
      Returns [WalFile.ofRecords [⟨1, true, replicate (2 ^ 30) 0⟩]] p
        [⟨1, true, replicate (2 ^ 30) 0⟩] := by
  rintro ⟨fuel, p, hopen, hreturns⟩
  have hfits := returned_fitsHeader hopen hreturns (mem_singleton.mpr rfl)
  rw [length_replicate] at hfits
  exact absurd (hfits.lt (by decide)) (by decide)

end Neug.Wal
