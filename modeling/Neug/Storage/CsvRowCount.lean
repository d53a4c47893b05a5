import Mathlib.Algebra.GroupWithZero.Nat
import Mathlib.Data.List.TakeWhile
import Neug.Library.Buffer

/-! # Counting the rows of a CSV file

The counter looks at raw bytes: a row ends at a line break outside quotes.  Large files are cut
behind line breaks, and every chunk is scanned twice, as if it started outside and inside quotes.
-/

namespace Neug.Storage

open Library List

structure CsvDialect where
  quoting : Bool
  quoteChar : UInt8
  doubleQuote : Bool
  delimiter : UInt8

/-- `'\n'` or `'\r'`. -/
def isTerminator (c : UInt8) : Bool := c == 10 || c == 13

structure RowCounterState where
  inQuotes : Bool
  hasContent : Bool
  pendingQuote : Bool
  count : Nat
  atFieldStart : Bool

namespace RowCounterState

def init (startInQuotes : Bool) : RowCounterState :=
  ⟨startInQuotes, startInQuotes, false, 0, !startInQuotes⟩

variable (cfg : CsvDialect) (s : RowCounterState) (c : UInt8)

/-- The part of `step` for a byte outside quotes. -/
def stepUnquoted : RowCounterState :=
  if cfg.quoting && s.atFieldStart && c == cfg.quoteChar then
    { s with inQuotes := true, hasContent := true, atFieldStart := false }
  else if isTerminator c then
    { s with
      count := if s.hasContent then s.count + 1 else s.count
      hasContent := false
      atFieldStart := true }
  else if c == cfg.delimiter then
    { s with atFieldStart := true }
  else
    { s with hasContent := true, atFieldStart := false }

def step : RowCounterState :=
  if s.inQuotes then
    if s.pendingQuote then
      if cfg.doubleQuote && c == cfg.quoteChar then
        { s with hasContent := true, pendingQuote := false }
      else
        stepUnquoted cfg { s with
          inQuotes := false, hasContent := true, pendingQuote := false, atFieldStart := false } c
    else if c == cfg.quoteChar then
      if cfg.doubleQuote then { s with hasContent := true, pendingQuote := true }
      else { s with inQuotes := false, hasContent := true }
    else
      { s with hasContent := true }
  else
    stepUnquoted cfg s c

def stepAll (bytes : List UInt8) : RowCounterState := bytes.foldl (step cfg) s

/-- The rows, with a last one that no line break ends. -/
def total : Nat := if s.hasContent then s.count + 1 else s.count

/-- The state of a scan that had counted `n` rows before. -/
def after (n : Nat) : RowCounterState := { s with count := n + s.count }

/-- A byte inside quotes starts no field, and a quote is pending only inside quotes. -/
def Regular : Prop :=
  if s.inQuotes then s.atFieldStart = false ∧ cfg.quoting = true else s.pendingQuote = false

variable {cfg s}

theorem step_after (n : Nat) : step cfg (s.after n) c = (step cfg s c).after n := by
  simp only [step, stepUnquoted, after]
  grind

theorem stepAll_after (n : Nat) (bytes : List UInt8) :
    stepAll cfg (s.after n) bytes = (stepAll cfg s bytes).after n := by
  induction bytes generalizing s with
  | nil => rfl
  | cons c bytes ih => rw [stepAll, foldl_cons, step_after]; exact ih

theorem Regular.step (h : Regular cfg s) : Regular cfg (step cfg s c) := by
  simp only [Regular, RowCounterState.step, stepUnquoted] at h ⊢
  split_ifs at h ⊢ <;> simp_all

theorem Regular.stepAll (h : Regular cfg s) (bytes : List UInt8) :
    Regular cfg (stepAll cfg s bytes) :=
  foldlRecOn bytes _ h fun _ hs c _ => hs.step c

theorem Regular.init_false : Regular cfg (init false) := rfl

/-- Behind a line break nothing but the number of rows and the side of the quotes is left. -/
theorem Regular.step_terminator (h : Regular cfg s) (hc : isTerminator c = true)
    (hquote : c ≠ cfg.quoteChar) :
    RowCounterState.step cfg s c =
      (init (RowCounterState.step cfg s c).inQuotes).after
        (RowCounterState.step cfg s c).count := by
  simp only [Regular, RowCounterState.step, stepUnquoted] at h ⊢
  split_ifs at h ⊢ <;> simp_all [init, after]

end RowCounterState

open RowCounterState

/-- The contents of the buffer in which some bytes are read, one call after the other. -/
def buffers (size : Nat) : List UInt8 → List (List UInt8)
  | [] => []
  | c :: bytes => (c :: bytes.take (size - 1)) :: buffers size (bytes.drop (size - 1))
termination_by bytes => bytes.length
decreasing_by simp only [length_drop, length_cons]; omega

theorem flatten_buffers (size : Nat) (bytes : List UInt8) :
    (buffers size bytes).flatten = bytes := by
  induction bytes using buffers.induct size with
  | case1 => simp [buffers]
  | case2 c bytes ih => simp [buffers, ih]

/-- Where the first line break of some buffers ends; they start at `pos`. -/
def findTerminator : Nat → List (List UInt8) → Option Nat
  | _, [] => none
  | pos, data :: rest =>
    match data.findIdx? isTerminator with
    | some i => some (pos + i + 1)
    | none => findTerminator (pos + data.length) rest

theorem exists_of_findTerminator {pos stop : Nat} {bufs : List (List UInt8)}
    (h : findTerminator pos bufs = some stop) :
    ∃ i c, stop = pos + i + 1 ∧ bufs.flatten[i]? = some c ∧ isTerminator c = true := by
  induction bufs generalizing pos with
  | nil => cases h
  | cons data rest ih =>
    rw [findTerminator] at h
    split at h
    next i hi =>
      obtain ⟨hlt, hc, -⟩ := findIdx?_eq_some_iff_getElem.mp hi
      refine ⟨i, data[i], (Option.some.inj h).symm, ?_, hc⟩
      rw [flatten_cons, getElem?_append_left hlt, getElem?_eq_getElem hlt]
    next =>
      obtain ⟨i, c, rfl, hi, hc⟩ := ih h
      refine ⟨data.length + i, c, by omega, ?_, hc⟩
      rw [flatten_cons, getElem?_append_right (by omega), Nat.add_sub_cancel_left, hi]

structure ChunkResult where
  outside : RowCounterState
  inside : RowCounterState

/-- What chaining the chunks has found so far; `last` is the result selected for the last one. -/
structure Chained where
  total : Nat
  inQuotes : Bool
  last : Option RowCounterState

def Chained.next (r : Chained) (chunk : ChunkResult) : Chained :=
  let s := if r.inQuotes then chunk.inside else chunk.outside
  ⟨r.total + s.count, s.inQuotes, some s⟩

def Chained.rows (r : Chained) : Nat :=
  if r.last.any (·.hasContent) then r.total + 1 else r.total

variable (cfg : CsvDialect) (file : List UInt8)

def scanRange (start stop : Nat) (s : RowCounterState) : RowCounterState :=
  (buffers (2 ^ 20) (slice file start (stop - start))).foldl (stepAll cfg) s

def alignToNewline (start stop : Nat) : Nat :=
  if stop ≤ start then stop
  else (findTerminator start (buffers 4096 (slice file start (stop - start)))).getD stop

def scanChunk (start stop : Nat) : ChunkResult :=
  let outside := scanRange cfg file start stop (init false)
  ⟨outside, if cfg.quoting then scanRange cfg file start stop (init true) else outside⟩

/-- `count_stream`, for what the calls of `Read` return one after the other. -/
def countStream (reads : List (List UInt8)) : Nat × Bool :=
  let read := reads.takeWhile fun data => !data.isEmpty
  ((read.foldl (stepAll cfg) (init false)).total, !read.isEmpty)

def countSingle : Nat := (scanRange cfg file 0 file.length (init false)).total

/-- The bounds between chunks that the threads from the `i`-th on start at. -/
def chunkStarts (approxChunk : Nat) : Nat → Nat → Nat → List Nat
  | 0, _, _ => []
  | threads + 1, i, back =>
    let actual := alignToNewline file (i * approxChunk) file.length
    if actual ≤ back ∨ file.length ≤ actual then []
    else actual :: chunkStarts approxChunk threads (i + 1) actual

/-- The loop over the results of the chunks with given bounds. -/
def chainChunks (r : Chained) (bounds : List Nat) : Chained :=
  ((bounds.zip bounds.tail).map fun b => scanChunk cfg file b.1 b.2).foldl Chained.next r

def countParallel (numThreads : Nat) : Nat :=
  let starts := chunkStarts file (file.length / numThreads) (numThreads - 1) 1 0
  (chainChunks cfg file ⟨0, false, none⟩ (0 :: starts ++ [file.length])).rows

theorem foldl_stepAll (bufs : List (List UInt8)) (s : RowCounterState) :
    bufs.foldl (stepAll cfg) s = stepAll cfg s bufs.flatten := by
  rw [stepAll, foldl_flatten]
  rfl

theorem scanRange_eq (start stop : Nat) (s : RowCounterState) :
    scanRange cfg file start stop s = stepAll cfg s (slice file start (stop - start)) := by
  rw [scanRange, foldl_stepAll, flatten_buffers]

/-- The state of the sequential pass at a position. -/
def passed (pos : Nat) : RowCounterState := stepAll cfg (init false) (file.take pos)

theorem regular_passed (pos : Nat) : Regular cfg (passed cfg file pos) :=
  Regular.init_false.stepAll _

variable {cfg file}

theorem passed_alignToNewline (hquote : isTerminator cfg.quoteChar = false) {start : Nat}
    (h : alignToNewline file start file.length < file.length) :
    let s := passed cfg file (alignToNewline file start file.length)
    s = (init s.inQuotes).after s.count := by
  rw [alignToNewline] at h ⊢
  split_ifs at h ⊢ with hle
  · exact absurd h (Nat.lt_irrefl _)
  cases hfind : findTerminator start (buffers 4096 (slice file start (file.length - start))) with
  | none => simp [hfind] at h
  | some stop =>
    obtain ⟨i, c, rfl, hi, hc⟩ := exists_of_findTerminator hfind
    rw [flatten_buffers, slice, getElem?_take] at hi
    split_ifs at hi
    rw [getElem?_drop] at hi
    rw [Option.getD_some, passed, take_add_one, hi, Option.toList_some, stepAll,
      foldl_append]
    refine (regular_passed cfg file _).step_terminator c hc ?_
    rintro rfl
    rw [hquote] at hc
    cases hc

variable {r : Chained} {start stop : Nat}

/-- The result that is selected for a chunk is the pass over it, but for the rows before. -/
theorem passed_next (h : passed cfg file start = (init r.inQuotes).after r.total)
    (hle : start ≤ stop) :
    ∃ s, r.next (scanChunk cfg file start stop) = ⟨r.total + s.count, s.inQuotes, some s⟩ ∧
      passed cfg file stop = s.after r.total := by
  refine ⟨_, rfl, ?_⟩
  have hsplit : passed cfg file stop =
      stepAll cfg (passed cfg file start) (slice file start (stop - start)) := by
    rw [passed, passed, stepAll, stepAll, stepAll, ← foldl_append, slice, ← take_add,
      Nat.add_sub_cancel' hle]
  have hregular := regular_passed cfg file start
  rw [h] at hsplit hregular
  rw [hsplit, stepAll_after, scanChunk, scanRange_eq, scanRange_eq]
  cases hside : r.inQuotes with
  | false => simp
  | true =>
    -- inside quotes the second scan was made, since only quoting leads there
    rw [hside] at hregular
    simp [show cfg.quoting = true from hregular.2]

theorem rows_next (h : passed cfg file start = (init r.inQuotes).after r.total)
    (hle : start ≤ stop) :
    (r.next (scanChunk cfg file start stop)).rows = (passed cfg file stop).total := by
  obtain ⟨s, hnext, hpassed⟩ := passed_next h hle
  rw [hnext, hpassed]
  rfl

theorem rows_chainChunks (hquote : isTerminator cfg.quoteChar = false)
    (h : passed cfg file start = (init r.inQuotes).after r.total) (hle : start ≤ file.length)
    (approxChunk threads i : Nat) :
    (chainChunks cfg file r (start :: chunkStarts file approxChunk threads i start ++
      [file.length])).rows = (passed cfg file file.length).total := by
  induction threads generalizing r start i with
  | zero => exact rows_next h hle
  | succ threads ih =>
    rw [chunkStarts]
    split_ifs with hend
    · exact rows_next h hle
    · obtain ⟨hback, hlt⟩ := not_or.mp hend
      obtain ⟨s, hnext, hpassed⟩ := passed_next h (Nat.le_of_not_le hback)
      have hcut := passed_alignToNewline hquote (Nat.lt_of_not_le hlt)
      refine ih ?_ (Nat.le_of_not_le hlt) (i + 1)
      rw [hnext, hcut, hpassed]
      rfl

variable (cfg file)

/-- The speculative count and the count over a stream agree with the sequential pass, for every
number of threads and every way in which the stream is read. -/
theorem row_counts_agree (hquote : isTerminator cfg.quoteChar = false) (numThreads : Nat) :
    countParallel cfg file numThreads = countSingle cfg file ∧
    ∀ reads : List (List UInt8), (∀ data ∈ reads, data ≠ []) → reads.flatten = file →
      (countStream cfg reads).1 = countSingle cfg file := by
  have hsingle : countSingle cfg file = (passed cfg file file.length).total := by
    rw [countSingle, scanRange_eq, passed, slice, drop_zero, Nat.sub_zero]
  rw [hsingle]
  constructor
  · exact rows_chainChunks hquote rfl (Nat.zero_le _) _ _ 1
  · rintro reads hne rfl
    have hall : reads.takeWhile (fun data => !data.isEmpty) = reads := by
      simpa [takeWhile_eq_self_iff] using hne
    rw [countStream, hall, foldl_stepAll, passed, take_length]

/-- A file of two rows with a quoted line break. -/
theorem row_counts_agree_quoted :
    countParallel ⟨true, 34, true, 44⟩ [34, 10, 34, 13, 10, 97] 2 =
      countSingle ⟨true, 34, true, 44⟩ [34, 10, 34, 13, 10, 97] ∧
    (countStream ⟨true, 34, true, 44⟩ [[34], [10, 34, 13, 10, 97]]).1 =
      countSingle ⟨true, 34, true, 44⟩ [34, 10, 34, 13, 10, 97] := by
  have h := row_counts_agree ⟨true, 34, true, 44⟩ [34, 10, 34, 13, 10, 97] (by decide) 2
  exact ⟨h.1, h.2 [[34], [10, 34, 13, 10, 97]] (by decide) rfl⟩

end Neug.Storage
