import Neug.Wal.RoundTrip

/-! # A crash during an append

Only a prefix of the last append has reached the file; what follows is still zero.
The parser takes the timestamp alone as the sign of a record.  Once a byte of it
that is not zero is on disk, the record is met, with whatever else is there, unless
nothing of it is missing.
-/

namespace Neug.Wal

open Library List WalFile

/-- The file after records were appended and a crash left only the first `k` bytes of
one more append. -/
def WalFile.crashed (rs : List WalRecord) (r : WalRecord) (k : Nat) : WalFile :=
  (ofRecords rs).appendPrefix r.bytes k

/-- The payload of a record is on disk when `k` bytes of its append are. -/
def PayloadWritten (r : WalRecord) (k : Nat) : Prop :=
  r.payload.length ≤ k - kHeaderSize

namespace WalFile

/-- A crash leaves what was there and the bytes that were written. -/
theorem Holds.appendPrefix {f : WalFile} {l : List UInt8} (h : f.Holds l) (data : List UInt8)
    (k : Nat) : (f.appendPrefix data k).Shows (l ++ data.take k) where
  bytes_eq := by
    change writeBytes f.bytes f.used ((appended data).take k) = _
    rw [h.bytes_eq, h.used_eq, writeBytes_image, appended, take_append, take_replicate,
      ← append_assoc, image_append_zeros]
  room := by
    have hroom := f.le_reserved data.length
    rw [h.used_eq] at hroom
    rw [length_append, length_take]
    change _ ≤ f.reserved data.length
    omega

theorem crashed_shows (rs : List WalRecord) (r : WalRecord) (k : Nat) :
    (crashed rs r k).Shows (encodeAll rs ++ r.bytes.take k) :=
  (ofRecords_holds rs).appendPrefix r.bytes k

end WalFile

/-- The header of a record whose append was cut off, as the parser reads it. -/
theorem read_torn_header {f : WalFile} {pre : List UInt8} {r : WalRecord} {k : Nat}
    (hbytes : f.bytes = image (pre ++ r.bytes.take k)) :
    leNat (readBytes f.bytes pre.length 4) = r.timestamp % 256 ^ min k 4 ∧
      leNat (readBytes f.bytes (pre.length + 4) 4) =
        headerWord r.isUpdate r.payload.length % 256 ^ min (k - 4) 4 := by
  have htimestamp : r.bytes.take 4 = leBytes 4 r.timestamp := by
    simp [WalRecord.bytes, headerBytes]
  have hword : (r.bytes.drop 4).take 4 = leBytes 4 (headerWord r.isUpdate r.payload.length) := by
    simp [WalRecord.bytes, headerBytes]
  constructor
  · rw [hbytes, readBytes_image, leNat_append_zeros, drop_left, take_take, Nat.min_comm,
      ← take_take, htimestamp, leNat_take_leBytes]
  · rw [hbytes, readBytes_image, leNat_append_zeros, ← drop_drop, drop_left,
      drop_take, take_take, Nat.min_comm, ← take_take, hword, leNat_take_leBytes]

theorem CommitTimestamp.mod_min {ts : Nat} (h : CommitTimestamp ts) (k : Nat) :
    ts % 256 ^ min k 4 = ts % 256 ^ k := by
  rcases Nat.le_total k 4 with hk | hk
  · rw [Nat.min_eq_left hk]
  · have hlt : ts < 256 ^ 4 := by
      have := h.2
      omega
    have hle : 256 ^ 4 ≤ 256 ^ k := Nat.pow_le_pow_right (by decide) hk
    rw [Nat.min_eq_right hk, Nat.mod_eq_of_lt hlt, Nat.mod_eq_of_lt (Nat.lt_of_lt_of_le hlt hle)]

section Crashed

variable {rs : List WalRecord} {r : WalRecord} {k : Nat}

/-- Nothing is missing from a record if its payload is on disk and the rest of its
header is zero. -/
theorem drop_bytes_of_written (hpayload : PayloadWritten r k) (hts : r.timestamp < 256 ^ k)
    (hkind : r.isUpdate = true → 4 < k) :
    r.bytes.drop k = replicate (r.bytes.length - k) 0 := by
  unfold PayloadWritten kHeaderSize at hpayload
  rcases Nat.lt_or_ge k 8 with hk | hk
  · have hempty : r.payload = [] := length_eq_zero_iff.mp (by omega)
    have hword : headerWord r.isUpdate r.payload.length < 256 ^ (k - 4) := by
      cases hupdate : r.isUpdate with
      | false =>
        simp only [headerWord, hempty, length_nil, Bool.false_eq_true, if_false]
        exact Nat.pow_pos (by decide)
      | true =>
        have hle : 256 ^ 1 ≤ 256 ^ (k - 4) :=
          Nat.pow_le_pow_right (by decide) (by have := hkind hupdate; omega)
        simp only [headerWord, hempty, length_nil, if_true]
        omega
    rw [r.length_bytes, WalRecord.bytes, headerBytes, hempty, append_nil, drop_append,
      length_leBytes, drop_leBytes_of_lt 4 hts, ← hempty, drop_leBytes_of_lt 4 hword,
      replicate_append_replicate]
    congr 1
    simp only [hempty, length_nil, kHeaderSize]
    omega
  · have hlen : r.bytes.length ≤ k := by
      rw [r.length_bytes, kHeaderSize]
      omega
    rw [drop_of_length_le hlen, Nat.sub_eq_zero_of_le hlen, replicate_zero]

theorem encodeAll_append_singleton (rs : List WalRecord) (r : WalRecord) :
    encodeAll (rs ++ [r]) = encodeAll rs ++ r.bytes := by
  simp [encodeAll]

/-- A crash that left nothing out shows in nothing. -/
theorem crashed_shows_all (rs : List WalRecord)
    (hmissing : r.bytes.drop k = replicate (r.bytes.length - k) 0) :
    (crashed rs r k).Shows (encodeAll (rs ++ [r])) where
  bytes_eq := by
    rw [encodeAll_append_singleton, (crashed_shows rs r k).bytes_eq]
    conv_rhs => rw [← take_append_drop k r.bytes, hmissing, ← append_assoc]
    rw [image_append_zeros]
  room := by
    have hroom := (ofRecords rs).le_reserved r.bytes.length
    rw [(ofRecords_holds rs).used_eq] at hroom
    rw [encodeAll_append_singleton, length_append]
    exact hroom

/-- A file that shows records and whose next timestamp is zero is parsed into them. -/
theorem parses_of_shows {f : WalFile} {rs : List WalRecord} {post : List UInt8}
    (h : f.Shows (encodeAll rs ++ post)) (hts : ∀ e ∈ rs, CommitTimestamp e.timestamp)
    (hlen : ∀ e ∈ rs, e.payload.length < 2 ^ 30)
    (hzero : leNat (readBytes f.bytes (encodeAll rs).length 4) = 0) : Parses [f] rs := by
  have hsize : f.size ≠ 0 := by
    have hroom := h.room
    unfold kHeaderSize at hroom
    omega
  have hscan := scanFile_records [] h hts hlen 0 1
  rw [nil_append, scanFile_stop h hzero 0 0, Option.map_some, append_nil] at hscan
  refine ⟨rs.length + 1, scannedAt 0 0 rs, ?_, scannedAt_reads rfl [] h.bytes_eq⟩
  rw [scanFiles, if_neg hsize]
  change (do
    let here ← scanFile f 0 (rs.length + 1) (([] : List UInt8).length : Nat)
    some (here ++ [])) = _
  rw [hscan]
  simp

/-- What a parser has met in a file that shows records with lengths that fit. -/
theorem Parses.scanned {f : WalFile} {rs records : List WalRecord} {post : List UInt8}
    (hparses : Parses [f] records) (h : f.Shows (encodeAll rs ++ post))
    (hts : ∀ e ∈ rs, CommitTimestamp e.timestamp) (hlen : ∀ e ∈ rs, e.payload.length < 2 ^ 30) :
    ∃ fuel rest, scanFile f 0 fuel (encodeAll rs).length = some rest ∧
      Forall₂ (Reads [f]) (scannedAt 0 0 rs ++ rest) records := by
  have hsize : f.size ≠ 0 := by
    have hroom := h.room
    unfold kHeaderSize at hroom
    omega
  obtain ⟨fuel, scanned, hscan, hreads⟩ := hparses
  rw [scanFiles, if_neg hsize] at hscan
  obtain ⟨here, hhere, hscan⟩ := Option.bind_eq_some_iff.mp hscan
  obtain ⟨later, hlater, hscan⟩ := Option.bind_eq_some_iff.mp hscan
  cases hlater
  cases hscan
  obtain ⟨rest, hrest, rfl⟩ := scanFile_split h hts hlen hhere
  rw [append_nil] at hreads
  exact ⟨fuel, rest, hrest, hreads⟩

section

variable (hts : ∀ e ∈ rs, CommitTimestamp e.timestamp) (hr : CommitTimestamp r.timestamp)
  (hlen : ∀ e ∈ rs, e.payload.length < 2 ^ 30)
include hts hr hlen

/-- If only the records before the crash are met, no byte of the timestamp shows. -/
theorem timestamp_mod_of_parses (h : Parses [.crashed rs r k] rs) : r.timestamp % 256 ^ k = 0 := by
  have hshows := crashed_shows rs r k
  obtain ⟨fuel, rest, hscan, hreads⟩ := h.scanned hshows hts hlen
  have hnil : rest = [] := by
    have hlength := hreads.length_eq
    rw [length_append, length_scannedAt] at hlength
    exact length_eq_zero_iff.mp (by omega)
  obtain ⟨more, -, -, ⟨hzero, -⟩ | ⟨-, word, later, -, -, hcons⟩⟩ := scanFile_cases hscan
  · rw [Int.toNat_natCast, (read_torn_header hshows.bytes_eq).1, hr.mod_min] at hzero
    exact hzero
  · rw [hnil] at hcons
    cases hcons

/-- If the record of the crash is met, its header has been read as it is. -/
theorem header_of_parses (h : Parses [.crashed rs r k] (rs ++ [r])) :
    r.timestamp < 256 ^ k ∧ (r.isUpdate = true → 4 < k) := by
  have hshows := crashed_shows rs r k
  obtain ⟨fuel, rest, hscan, hreads⟩ := h.scanned hshows hts hlen
  obtain ⟨htimestamp, hword⟩ := read_torn_header hshows.bytes_eq
  have hrest : Forall₂ (Reads [.crashed rs r k]) rest [r] := by
    have hdrop := forall₂_drop rs.length hreads
    rwa [drop_left' (length_scannedAt 0 0 rs), drop_left] at hdrop
  obtain ⟨more, -, -, ⟨-, rfl⟩ | ⟨-, word, later, rfl, -, rfl⟩⟩ := scanFile_cases hscan
  · cases hrest
  · have hread := (forall₂_cons.mp hrest).1
    have hsame := hread.timestamp_eq
    have hkind := hread.isUpdate_eq
    simp only [Int.toNat_natCast, htimestamp, hword, hr.mod_min] at hsame hkind
    constructor
    · rw [← hsame]
      exact Nat.mod_lt _ (Nat.pow_pos (by decide))
    · intro hupdate
      apply Nat.lt_of_not_le
      intro hk
      rw [Nat.sub_eq_zero_of_le hk, Nat.zero_min, Nat.pow_zero, Nat.mod_one, hupdate] at hkind
      exact absurd hkind (by decide)

end

/-- What the parser meets after a crash: the records before it, or these and the one
whose payload is on disk. -/
def ParsesCrashed (rs : List WalRecord) (r : WalRecord) (k : Nat) : Prop :=
  Parses [.crashed rs r k] rs ∨
    PayloadWritten r k ∧ Parses [.crashed rs r k] (rs ++ [r])

theorem ParsesCrashed.short (h : ParsesCrashed rs r k)
    (hlen : ∀ e ∈ rs ++ [r], e.payload.length < 2 ^ 63) : ∀ e ∈ rs, e.payload.length < 2 ^ 30 := by
  intro e he
  have hbound := hlen e (mem_append_left _ he)
  rcases h with hparses | ⟨-, hparses⟩
  · exact (hparses.fitsHeader he).lt hbound
  · exact (hparses.fitsHeader (mem_append_left _ he)).lt hbound

/-- After a crash that leaves the first `k` bytes of an append, the parser meets all
earlier records and never one whose payload is incomplete, if and only if every
earlier payload is shorter than 2^30 bytes and either the bytes of the timestamp on
disk are all zero, or the record itself is that short, its payload is on disk, and
what is missing of its header is zero. -/
theorem parses_crashed_iff (rs : List WalRecord) (r : WalRecord) (k : Nat)
    (hts : ∀ e ∈ rs ++ [r], CommitTimestamp e.timestamp)
    (hlen : ∀ e ∈ rs ++ [r], e.payload.length < 2 ^ 63) : ParsesCrashed rs r k ↔
      (∀ e ∈ rs, e.payload.length < 2 ^ 30) ∧ (r.timestamp % 256 ^ k = 0 ∨
          PayloadWritten r k ∧ r.payload.length < 2 ^ 30 ∧ r.timestamp < 256 ^ k ∧
            (r.isUpdate = true → 4 < k)) := by
  have hrs : ∀ e ∈ rs, CommitTimestamp e.timestamp := fun e he =>
    hts e (mem_append_left _ he)
  have hlast : r ∈ rs ++ [r] := mem_append_right _ (mem_singleton.mpr rfl)
  have hr := hts r hlast
  constructor
  · intro h
    have hshort := h.short hlen
    refine ⟨hshort, ?_⟩
    rcases h with hparses | ⟨hpayload, hparses⟩
    · exact .inl (timestamp_mod_of_parses hrs hr hshort hparses)
    · have hfits := (hparses.fitsHeader hlast).lt (hlen r hlast)
      exact .inr ⟨hpayload, hfits, header_of_parses hrs hr hshort hparses⟩
  · rintro ⟨hshort, hzero | ⟨hpayload, hfits, htimestamp, hkind⟩⟩
    · left
      have hshows := crashed_shows rs r k
      apply parses_of_shows hshows hrs hshort
      rw [(read_torn_header hshows.bytes_eq).1, hr.mod_min, hzero]
    · right
      refine ⟨hpayload, ?_⟩
      have hshows := crashed_shows_all rs (drop_bytes_of_written hpayload htimestamp hkind)
      have hshows' : (crashed rs r k).Shows (encodeAll (rs ++ [r]) ++ []) := by
        rwa [append_nil]
      apply parses_of_shows hshows' hts
      · exact forall_mem_append.mpr ⟨hshort, forall_mem_singleton.mpr hfits⟩
      · rw [hshows.bytes_eq, readBytes_image, drop_length]
        exact leNat_replicate_zero 4

/-- An insert whose payload is on disk, and of the terminator one byte. -/
theorem parses_crashed_in_terminator : ParsesCrashed [⟨1, true, [5]⟩] ⟨2, false, [7, 8]⟩ 11 :=
  (parses_crashed_iff [⟨1, true, [5]⟩] ⟨2, false, [7, 8]⟩ 11
    (by unfold CommitTimestamp; decide) (by decide)).mpr
    (by unfold PayloadWritten kHeaderSize; decide)

/-- The header of an insert is on disk and its payload is not: the insert is met. -/
theorem parses_torn_payload : ¬ParsesCrashed [] ⟨1, false, [7]⟩ 8 := by
  rintro (hparses | ⟨hpayload, -⟩)
  · have hzero := timestamp_mod_of_parses (by simp) (by unfold CommitTimestamp; decide) (by simp)
      hparses
    exact absurd hzero (by decide)
  · exact absurd hpayload (by unfold PayloadWritten kHeaderSize; decide)

end Crashed

/-! ### Failures of the file system -/

namespace LocalWalWriter

/-- The data `l` is in the file, and nothing else unless an append of data that was `sent` has
failed.  Then the writer has given the file up. -/
inductive Logs (sent : List (List UInt8)) : LocalWalWriter × List UInt8 → Prop
  | ready {file : Option WalFile} {l : List UInt8} (h : (file.getD .create).Holds l) :
    Logs sent (⟨true, false, file, []⟩, l)
  | retired {f : WalFile} {l data torn : List UInt8} (hdata : data ∈ sent) (htorn : torn <+: data)
      (h : f.Shows (l ++ torn)) : Logs sent (⟨true, true, none, [f]⟩, l)

theorem Logs.log {sent : List (List UInt8)} {s : LocalWalWriter × List UInt8} (h : Logs sent s)
    {data : List UInt8} (hdata : data ∈ sent) (io : AppendIo) :
    Logs sent (LocalWalWriter.log s (data, io)) := by
  cases h with
  | retired hsent htorn h => exact .retired hsent htorn h
  | @ready file l h =>
    unfold LocalWalWriter.log LocalWalWriter.append
    by_cases hempty : data = []
    · simpa [hempty] using .ready h
    cases hfile : currentFile ⟨true, false, file, []⟩ io with
    | none => simpa [hempty, hfile] using .ready h
    | some f =>
      have hf : f.Holds l := by cases file <;> simp_all [currentFile]
      by_cases hresize : f.size < f.reserved data.length ∧ io.resizeOk = false
      · have hshows : f.Shows (l ++ []) := by simpa using hf.toShows
        simpa [hempty, hfile, hresize] using .retired hdata nil_prefix hshows
      cases hwritten : io.written with
      | some k =>
        have htorn := take_prefix k data
        simpa [hempty, hfile, hresize, hwritten] using .retired hdata htorn (hf.appendPrefix data k)
      | none =>
        have hnext := hf.append data
        cases hsync : io.syncOk with
        | true => simpa [hempty, hfile, hresize, hwritten, hsync] using .ready hnext
        | false =>
          simpa [hempty, hfile, hresize, hwritten, hsync] using
            .retired hdata prefix_rfl hnext.toShows

/-- Whatever the file system does to its appends, a writer has in its file all the data whose
append succeeded, in order, and besides at most the start of the data of one append that failed. -/
theorem logs_appends (calls : List (List UInt8 × AppendIo)) :
    Logs (calls.map Prod.fst) (calls.foldl log (⟨true, false, none, []⟩, [])) :=
  foldlRecOn calls log (.ready create_holds) fun _ h _ hcall => h.log (mem_map_of_mem hcall) _

end LocalWalWriter

end Neug.Wal
