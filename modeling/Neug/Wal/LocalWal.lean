import Mathlib.Algebra.Group.Int.Defs
import Mathlib.Data.List.Sort
import Neug.Library.Bytes

/-! # The local write-ahead log

A writer appends records to a file that is extended before it is written, so what
follows the last record is zero.  A record is a header, with the timestamp, the
kind and the length of the record, and its payload.  After a record the writer
puts a header of zeros, which the next record overwrites.  The parser scans each
file from header to header until it meets a timestamp of zero.  The length is kept
in 31 bits and read back as a signed number.
-/

namespace Neug.Wal

open Library

def kHeaderSize : Nat := 8

def kTruncSize : Nat := 2 ^ 30

/-- A log record; `isUpdate` is the type bit.  A compaction is logged as an update
without payload. -/
structure WalRecord where
  timestamp : Nat
  isUpdate : Bool
  payload : List UInt8
  deriving DecidableEq, Repr

/-- The second word of a header: the type bit and the 31 bits of the length. -/
def headerWord (isUpdate : Bool) (length : Nat) : Nat :=
  (if isUpdate then 1 else 0) + 2 * (length % 2 ^ 31)

/-- The `length` field of a header, as it is read back. -/
def headerLength (word : Nat) : Int :=
  if word / 2 < 2 ^ 30 then (word / 2 : Nat) else (word / 2 : Nat) - 2 ^ 31

def headerBytes (timestamp word : Nat) : List UInt8 :=
  leBytes 4 timestamp ++ leBytes 4 word

/-- A finished record, as the builders hand it to the writer. -/
def WalRecord.bytes (r : WalRecord) : List UInt8 :=
  headerBytes r.timestamp (headerWord r.isUpdate r.payload.length) ++ r.payload

/-! ### The writer -/

structure WalFile where
  bytes : Nat → UInt8
  size : Nat
  used : Nat

namespace WalFile

def create : WalFile := ⟨image [], kTruncSize, 0⟩

/-- The bytes that an append leaves on disk when it is complete. -/
def appended (data : List UInt8) : List UInt8 :=
  data ++ List.replicate kHeaderSize 0

/-- The file size that `append` needs for data of a length. -/
def reserved (f : WalFile) (length : Nat) : Nat :=
  if f.size < f.used + length + kHeaderSize then
    ((f.used + length + kHeaderSize) / kTruncSize + 1) * kTruncSize
  else f.size

/-- The file when only the first `k` bytes of an append were written. -/
def appendPrefix (f : WalFile) (data : List UInt8) (k : Nat) : WalFile :=
  { f with
    bytes := writeBytes f.bytes f.used ((appended data).take k)
    size := f.reserved data.length }

def append (f : WalFile) (data : List UInt8) : WalFile :=
  { bytes := writeBytes f.bytes f.used (appended data)
    size := f.reserved data.length
    used := f.used + data.length }

def ofRecords (rs : List WalRecord) : WalFile :=
  rs.foldl (fun f r => f.append r.bytes) create

end WalFile

/-- What the file system does during an append.  `written` is how many bytes reach
the file when writing fails. -/
structure AppendIo where
  createOk : Bool
  resizeOk : Bool
  written : Option Nat
  syncOk : Bool
  deriving DecidableEq, Repr

inductive AppendOutcome where
  | appended
  | refused
  | threw (message : String)
  deriving DecidableEq, Repr

/-- A writer with the files it has written before the open one. -/
structure LocalWalWriter where
  opened : Bool
  poisoned : Bool
  file : Option WalFile
  closed : List WalFile

namespace LocalWalWriter

/-- `retire_after_append_failure`; the system's error text is left out. -/
def retire (w : LocalWalWriter) (f : WalFile) (operation : String) :
    LocalWalWriter × AppendOutcome :=
  ({ w with poisoned := true, file := none, closed := w.closed ++ [f] }, .threw operation)

def currentFile (w : LocalWalWriter) (io : AppendIo) : Option WalFile :=
  match w.file with
  | some f => some f
  | none => if io.createOk then some .create else none

def append (w : LocalWalWriter) (data : List UInt8) (io : AppendIo) :
    LocalWalWriter × AppendOutcome :=
  if w.poisoned then (w, .threw "WAL writer is disabled after an uncertain append failure")
  else if !w.opened then (w, .refused)
  else if data = [] then (w, .appended)
  else match w.currentFile io with
  | none => (w, .refused)
  | some f =>
    if f.size < f.reserved data.length ∧ !io.resizeOk then
      w.retire f "Failed to resize WAL file"
    else match io.written with
    | some k => w.retire (f.appendPrefix data k) "Failed to write WAL file"
    | none =>
      if io.syncOk then ({ w with file := some (f.append data) }, .appended)
      else w.retire (f.append data) "Failed to sync WAL file"

/-- An append, with the data of all appends that have succeeded. -/
def log (s : LocalWalWriter × List UInt8) (call : List UInt8 × AppendIo) :
    LocalWalWriter × List UInt8 :=
  match s.1.append call.1 call.2 with
  | (w, .appended) => (w, s.2 ++ call.1)
  | (w, _) => (w, s.2)

end LocalWalWriter

/-! ### The parser -/

/-- Where a payload lies: a file, a position in it, and a number of bytes. -/
structure WalContentUnit where
  file : Nat
  ptr : Nat
  size : Nat
  deriving DecidableEq, Repr

structure ScannedRecord where
  timestamp : Nat
  isUpdate : Bool
  content : WalContentUnit
  deriving DecidableEq, Repr

/-- A signed length stored in a `size_t`. -/
def sizeOfLength (length : Int) : Nat := (length % 2 ^ 64).toNat

/-- The scan of one file from a position; `none` when it leaves the mapping, or has
not ended within the fuel. -/
def scanFile (f : WalFile) (file : Nat) : Nat → Int → Option (List ScannedRecord)
  | 0, _ => none
  | fuel + 1, pos =>
    if pos < 0 ∨ (f.size : Int) < pos + kHeaderSize then none
    else
      let ptr := pos.toNat
      let ts := leNat (readBytes f.bytes ptr 4)
      let word := leNat (readBytes f.bytes (ptr + 4) 4)
      if ts = 0 then some []
      else
        (scanFile f file fuel (pos + kHeaderSize + headerLength word)).map
          (⟨ts, word % 2 = 1, ⟨file, ptr + kHeaderSize, sizeOfLength (headerLength word)⟩⟩ :: ·)

/-- The scan of every file, numbered from `file` on; empty files are skipped. -/
def scanFiles (fuel : Nat) : Nat → List WalFile → Option (List ScannedRecord)
  | _, [] => some []
  | file, f :: rest =>
    if f.size = 0 then scanFiles fuel (file + 1) rest
    else do
      let here ← scanFile f file fuel 0
      let later ← scanFiles fuel (file + 1) rest
      some (here ++ later)

/-- `LocalWalParser`; a place of the insert table that was never set is `none`. -/
structure LocalWalParser where
  insertWalList : Nat → Option WalContentUnit
  insertWalListSize : Nat
  updateWalList : List ScannedRecord
  lastTs : Nat

namespace LocalWalParser

def empty : LocalWalParser := ⟨fun _ => none, 4096, [], 0⟩

variable (p : LocalWalParser)

def add (r : ScannedRecord) : LocalWalParser :=
  if r.isUpdate then
    { p with updateWalList := p.updateWalList ++ [r], lastTs := max r.timestamp p.lastTs }
  else
    { p with
      insertWalList := Function.update p.insertWalList r.timestamp (some r.content)
      insertWalListSize :=
        if p.insertWalListSize ≤ r.timestamp then (r.timestamp + 1) % 2 ^ 32
        else p.insertWalListSize
      lastTs := max r.timestamp p.lastTs }

def sortUpdates : LocalWalParser :=
  { p with updateWalList := p.updateWalList.insertionSort fun r r' => r.timestamp ≤ r'.timestamp }

def ofScanned (rs : List ScannedRecord) : LocalWalParser :=
  (rs.foldl add empty).sortUpdates

def openFiles (fuel : Nat) (files : List WalFile) : Option LocalWalParser :=
  (scanFiles fuel 0 files).map ofScanned

def getInsertWal (ts : Nat) : Option WalContentUnit :=
  p.insertWalList ts

def getUpdateWals : List ScannedRecord :=
  p.updateWalList

end LocalWalParser

def WalContentUnit.bytes (files : List WalFile) (u : WalContentUnit) : List UInt8 :=
  match files[u.file]? with
  | some f => readBytes f.bytes u.ptr u.size
  | none => []

end Neug.Wal
