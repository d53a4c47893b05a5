import Mathlib.Algebra.GroupWithZero.Nat
import Mathlib.Data.List.Basic

/-! # Bytes and byte memories

Numbers are laid out as bytes with the least significant byte first.  A file or a
buffer is a function from positions to bytes; the ones here hold some bytes and
are zero from there on, as a file is that was extended before it was written.
-/

namespace Library

open List

/-- The `k` low bytes of a number, least significant first. -/
def leBytes : Nat → Nat → List UInt8
  | 0, _ => []
  | k + 1, n => UInt8.ofNat n :: leBytes k (n / 256)

def leNat : List UInt8 → Nat
  | [] => 0
  | b :: rest => b.toNat + 256 * leNat rest

@[simp] theorem length_leBytes (k n : Nat) : (leBytes k n).length = k := by
  induction k generalizing n with
  | zero => rfl
  | succ k ih => simp [leBytes, ih]

theorem leNat_leBytes (k n : Nat) : leNat (leBytes k n) = n % 256 ^ k := by
  induction k generalizing n with
  | zero => simp [leBytes, leNat, Nat.mod_one]
  | succ k ih =>
    have hbyte : (UInt8.ofNat n).toNat = n % 256 := by simp
    rw [leBytes, leNat, ih, hbyte, Nat.pow_succ', Nat.mod_mul]

variable (l : List UInt8)

theorem leNat_lt : leNat l < 256 ^ l.length := by
  induction l with
  | nil => simp [leNat]
  | cons b rest ih =>
    have hb : b.toNat < 256 := b.toNat_lt
    rw [leNat, length_cons, Nat.pow_succ']
    omega

theorem leNat_append (l l' : List UInt8) :
    leNat (l ++ l') = leNat l + 256 ^ l.length * leNat l' := by
  induction l with
  | nil => simp [leNat]
  | cons b rest ih =>
    rw [cons_append, leNat, ih, leNat, length_cons, Nat.pow_succ', Nat.mul_add,
      Nat.add_assoc, Nat.mul_assoc]

theorem leNat_replicate_zero (n : Nat) : leNat (replicate n 0) = 0 := by
  induction n with
  | zero => rfl
  | succ n ih => simp [replicate_succ, leNat, ih]

/-- Cutting the bytes of a number keeps its low part. -/
theorem take_leBytes {j k : Nat} (n : Nat) (h : j ≤ k) : (leBytes k n).take j = leBytes j n := by
  induction j generalizing k n with
  | zero => rfl
  | succ j ih =>
    cases k with
    | zero => exact absurd h (Nat.not_succ_le_zero j)
    | succ k => rw [leBytes, leBytes, take_succ_cons, ih _ (Nat.le_of_succ_le_succ h)]

theorem drop_leBytes (j k n : Nat) : (leBytes k n).drop j = leBytes (k - j) (n / 256 ^ j) := by
  induction j generalizing k n with
  | zero => simp
  | succ j ih =>
    cases k with
    | zero => simp [leBytes]
    | succ k =>
      rw [leBytes, drop_succ_cons, ih, Nat.div_div_eq_div_mul, Nat.pow_succ', Nat.add_sub_add_right]

theorem leBytes_zero (k : Nat) : leBytes k 0 = replicate k 0 := by
  induction k with
  | zero => rfl
  | succ k ih =>
    rw [leBytes, Nat.zero_div, ih, replicate_succ]
    rfl

theorem drop_leBytes_of_lt {j n : Nat} (k : Nat) (h : n < 256 ^ j) :
    (leBytes k n).drop j = replicate (k - j) 0 := by
  rw [drop_leBytes, Nat.div_eq_of_lt h, leBytes_zero]

theorem leNat_append_zeros (n : Nat) : leNat (l ++ replicate n 0) = leNat l := by
  rw [leNat_append, leNat_replicate_zero, Nat.mul_zero, Nat.add_zero]

theorem leNat_take_leBytes (j k n : Nat) : leNat ((leBytes k n).take j) = n % 256 ^ min j k := by
  rcases Nat.le_total j k with h | h
  · rw [take_leBytes n h, leNat_leBytes, Nat.min_eq_left h]
  · rw [take_of_length_le (by rwa [length_leBytes]), leNat_leBytes, Nat.min_eq_right h]

/-! ### Archives of words -/

/-- The word of `k` bytes at the front, and what comes after it. -/
def readWord (k : Nat) (arc : List UInt8) : Nat × List UInt8 := (leNat (arc.take k), arc.drop k)

def readWords (k : Nat) : Nat → List UInt8 → List Nat × List UInt8
  | 0, arc => ([], arc)
  | n + 1, arc =>
    let (word, arc) := readWord k arc
    let (words, arc) := readWords k n arc
    (word :: words, arc)

def writeWords (k : Nat) (words : List Nat) : List UInt8 := words.flatMap (leBytes k)

theorem readWord_leBytes {k n : Nat} (hn : n < 256 ^ k) (rest : List UInt8) :
    readWord k (leBytes k n ++ rest) = (n, rest) := by
  have hk := length_leBytes k n
  rw [readWord, take_left' hk, drop_left' hk, leNat_leBytes, Nat.mod_eq_of_lt hn]

theorem readWords_writeWords {k n : Nat} {words : List Nat} (hn : words.length = n)
    (hwords : ∀ w ∈ words, w < 256 ^ k) (rest : List UInt8) :
    readWords k n (writeWords k words ++ rest) = (words, rest) := by
  subst hn
  induction words with
  | nil => rfl
  | cons w words ih =>
    obtain ⟨hw, hwords⟩ := forall_mem_cons.mp hwords
    simp only [writeWords, flatMap_cons, append_assoc, length_cons, readWords, readWord_leBytes hw]
    rw [← writeWords, ih hwords]

/-! ### Memories -/

def readBytes (mem : Nat → UInt8) (off len : Nat) : List UInt8 :=
  (range len).map fun i => mem (off + i)

def writeBytes (mem : Nat → UInt8) (off : Nat) (data : List UInt8) : Nat → UInt8 := fun i =>
  if off ≤ i then (data[i - off]?).getD (mem i) else mem i

/-- The memory that holds some bytes and is zero after them. -/
def image : Nat → UInt8 := fun i => (l[i]?).getD 0

@[simp] theorem length_readBytes (mem : Nat → UInt8) (off len : Nat) :
    (readBytes mem off len).length = len := by
  simp [readBytes]

/-- Appending to the bytes a memory holds. -/
theorem writeBytes_image (l data : List UInt8) :
    writeBytes (image l) l.length data = image (l ++ data) := by
  funext i
  unfold writeBytes image
  by_cases hi : l.length ≤ i
  · rw [if_pos hi, getElem?_append_right hi, getElem?_eq_none hi, Option.getD_none]
  · rw [if_neg hi, getElem?_append_left (Nat.lt_of_not_le hi)]

theorem image_append_zeros (n : Nat) : image (l ++ replicate n 0) = image l := by
  funext i
  unfold image
  by_cases hi : l.length ≤ i
  · rw [getElem?_append_right hi, getElem?_eq_none hi, getElem?_replicate]
    split <;> rfl
  · rw [getElem?_append_left (Nat.lt_of_not_le hi)]

/-- What a memory holds is read as it is, and as zeros beyond. -/
theorem readBytes_image (off len : Nat) : readBytes (image l) off len =
      (l.drop off).take len ++ replicate (len - (l.drop off).length) 0 := by
  apply ext_getElem?
  intro i
  rw [readBytes, getElem?_map]
  by_cases hi : i < len
  · rw [getElem?_range hi, Option.map_some, image, ← getElem?_drop]
    by_cases hl : i < (l.drop off).length
    · have htake : i < ((l.drop off).take len).length := by
        rw [length_take]
        exact Nat.lt_min.mpr ⟨hi, hl⟩
      rw [getElem?_append_left htake, getElem?_take_of_lt hi,
        getElem?_eq_getElem hl, Option.getD_some]
    · have htake : ((l.drop off).take len).length ≤ i := by
        rw [length_take]
        omega
      have hzeros : i - ((l.drop off).take len).length < len - (l.drop off).length := by
        rw [length_take]
        omega
      rw [getElem?_append_right htake, getElem?_eq_none (Nat.le_of_not_lt hl),
        Option.getD_none, getElem?_replicate, if_pos hzeros]
  · have hlen : ((l.drop off).take len ++
        replicate (len - (l.drop off).length) (0 : UInt8)).length ≤ i := by
      rw [length_append, length_take, length_replicate]
      omega
    rw [getElem?_eq_none (by simpa using Nat.le_of_not_lt hi), Option.map_none,
      getElem?_eq_none hlen]

/-- Bytes that are in the middle of what a memory holds are read as they are. -/
theorem readBytes_image_append (pre l post : List UInt8) :
    readBytes (image (pre ++ l ++ post)) pre.length l.length = l := by
  rw [append_assoc, readBytes_image]
  simp

end Library
