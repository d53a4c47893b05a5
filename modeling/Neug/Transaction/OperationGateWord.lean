import Mathlib.Data.Nat.Bitwise

/-! # The packed admission word

One 64-bit word combines the admission phase with the two operation counters:
bits 63 and 62 hold the phase, bits 61 to 31 the inserters and bits 30 to 0 the
readers.  The definitions use the masks and shifts of the source; the lemmas say
what each update of the word does to the three decoded fields, provided the
counter concerned neither overflows nor underflows.
-/

namespace Neug.Transaction

inductive AdmissionState where
  | kOpen
  | kInsertsBlocked
  | kAllBlocked
  deriving DecidableEq, Repr

namespace AdmissionState

def code : AdmissionState → Nat
  | kOpen => 0
  | kInsertsBlocked => 1
  | kAllBlocked => 2

/-- The enumerator with a given value.  Two bits can also hold the value 3, which
names no phase and compares unequal to all of them. -/
def ofCode : Nat → Option AdmissionState
  | 0 => some kOpen
  | 1 => some kInsertsBlocked
  | 2 => some kAllBlocked
  | _ => none

@[simp] theorem ofCode_code (p : AdmissionState) : ofCode p.code = some p := by
  cases p <;> rfl

end AdmissionState

abbrev GateWord := UInt64

namespace OperationGateWord

open AdmissionState

def kMaxReaderCount : Nat := 0x7fffffff
def kMaxInserterCount : Nat := 0x7fffffff
def kReaderMask : GateWord := 0x7fffffff
def kInserterFieldMask : GateWord := 0x7fffffff
def kPhaseMask : GateWord := (3 : GateWord) <<< 62
def kReaderUnit : GateWord := 1
def kInserterUnit : GateWord := (1 : GateWord) <<< 31

/-- The word with a given phase and no operation admitted. -/
def empty (p : AdmissionState) : GateWord :=
  UInt64.ofNat p.code <<< 62

variable (word : GateWord)

def phase : Option AdmissionState :=
  ofCode (word >>> 62).toNat

def readers : Nat :=
  (word &&& kReaderMask).toNat

def inserters : Nat :=
  ((word >>> 31) &&& kInserterFieldMask).toNat

def withPhase (desiredPhase : AdmissionState) : GateWord :=
  (word &&& ~~~kPhaseMask) ||| (UInt64.ofNat desiredPhase.code <<< 62)

def incrementInserter : GateWord :=
  word + kInserterUnit

/-! ### The fields as digits of the word -/

theorem readers_eq : readers word = word.toNat % 2 ^ 31 := by
  exact Nat.and_two_pow_sub_one_eq_mod word.toNat 31

theorem inserters_eq : inserters word = word.toNat / 2 ^ 31 % 2 ^ 31 := by
  have hshift : (word >>> 31).toNat = word.toNat / 2 ^ 31 := by
    simp [UInt64.toNat_shiftRight, Nat.shiftRight_eq_div_pow]
  rw [inserters, UInt64.toNat_and, hshift]
  exact Nat.and_two_pow_sub_one_eq_mod _ 31

theorem phase_eq : phase word = ofCode (word.toNat / 2 ^ 62) := by
  have hshift : (word >>> 62).toNat = word.toNat / 2 ^ 62 := by
    simp [UInt64.toNat_shiftRight, Nat.shiftRight_eq_div_pow]
  rw [phase, hshift]

variable (p : AdmissionState)

theorem toNat_phaseBits : (UInt64.ofNat p.code <<< 62).toNat = 2 ^ 62 * p.code := by
  cases p <;> decide

theorem toNat_withPhase : (withPhase word p).toNat = 2 ^ 62 * p.code + word.toNat % 2 ^ 62 := by
  have hmask : (word &&& ~~~kPhaseMask).toNat = word.toNat % 2 ^ 62 := by
    have hbits : (~~~kPhaseMask).toNat = 2 ^ 62 - 1 := by decide
    exact Nat.and_two_pow_sub_one_eq_mod word.toNat 62
  have hlow : word.toNat % 2 ^ 62 < 2 ^ 62 := Nat.mod_lt _ (by decide)
  rw [withPhase, UInt64.toNat_or, hmask, toNat_phaseBits, Nat.or_comm,
    Nat.two_pow_add_eq_or_of_lt hlow]

/-! ### Effect of the updates -/

@[simp] theorem phase_empty : phase (empty p) = some p := by
  cases p <;> decide

@[simp] theorem readers_empty : readers (empty p) = 0 := by
  cases p <;> decide

@[simp] theorem inserters_empty : inserters (empty p) = 0 := by
  cases p <;> decide

section

variable (word : GateWord) (p : AdmissionState)

@[simp] theorem phase_withPhase : phase (withPhase word p) = some p := by
  have hdigit : (withPhase word p).toNat / 2 ^ 62 = p.code := by
    rw [toNat_withPhase]
    omega
  rw [phase_eq, hdigit, ofCode_code]

@[simp] theorem readers_withPhase : readers (withPhase word p) = readers word := by
  rw [readers_eq, readers_eq, toNat_withPhase]
  omega

@[simp] theorem inserters_withPhase : inserters (withPhase word p) = inserters word := by
  rw [inserters_eq, inserters_eq, toNat_withPhase]
  omega

end

variable {word : GateWord}

/-- A reader increment that does not find the counter full only moves the reader
field. -/
theorem add_reader_fields (hroom : readers word < kMaxReaderCount) :
    phase (word + kReaderUnit) = phase word ∧ inserters (word + kReaderUnit) = inserters word ∧
      readers (word + kReaderUnit) = readers word + 1 := by
  have hword : word.toNat < 2 ^ 64 := word.toNat_lt
  have hunit : kReaderUnit.toNat = 1 := rfl
  rw [readers_eq, kMaxReaderCount] at hroom
  have hsum : (word + kReaderUnit).toNat = word.toNat + 1 := by
    rw [UInt64.toNat_add, hunit]
    omega
  have hphase : (word.toNat + 1) / 2 ^ 62 = word.toNat / 2 ^ 62 := by omega
  simp only [phase_eq, inserters_eq, readers_eq, hsum, hphase]
  exact ⟨trivial, by omega, by omega⟩

theorem sub_reader_fields (hsome : 0 < readers word) : phase (word - kReaderUnit) = phase word ∧
      inserters (word - kReaderUnit) = inserters word ∧
      readers (word - kReaderUnit) + 1 = readers word := by
  have hword : word.toNat < 2 ^ 64 := word.toNat_lt
  have hunit : kReaderUnit.toNat = 1 := rfl
  rw [readers_eq] at hsome
  have hdiff : (word - kReaderUnit).toNat = word.toNat - 1 := by
    rw [UInt64.toNat_sub, hunit]
    omega
  have hphase : (word.toNat - 1) / 2 ^ 62 = word.toNat / 2 ^ 62 := by omega
  simp only [phase_eq, inserters_eq, readers_eq, hdiff, hphase]
  exact ⟨trivial, by omega, by omega⟩

theorem incrementInserter_fields (hroom : inserters word ≠ kMaxInserterCount) :
    phase (incrementInserter word) = phase word ∧
      inserters (incrementInserter word) = inserters word + 1 ∧
      readers (incrementInserter word) = readers word := by
  have hword : word.toNat < 2 ^ 64 := word.toNat_lt
  have hunit : kInserterUnit.toNat = 2 ^ 31 := rfl
  rw [inserters_eq, kMaxInserterCount] at hroom
  have hsum : (incrementInserter word).toNat = word.toNat + 2 ^ 31 := by
    rw [incrementInserter, UInt64.toNat_add, hunit]
    omega
  have hphase : (word.toNat + 2 ^ 31) / 2 ^ 62 = word.toNat / 2 ^ 62 := by omega
  simp only [phase_eq, inserters_eq, readers_eq, hsum, hphase]
  exact ⟨trivial, by omega, by omega⟩

theorem sub_inserter_fields (hsome : 0 < inserters word) :
    phase (word - kInserterUnit) = phase word ∧
      inserters (word - kInserterUnit) + 1 = inserters word ∧
      readers (word - kInserterUnit) = readers word := by
  have hword : word.toNat < 2 ^ 64 := word.toNat_lt
  have hunit : kInserterUnit.toNat = 2 ^ 31 := rfl
  rw [inserters_eq] at hsome
  have hdiff : (word - kInserterUnit).toNat = word.toNat - 2 ^ 31 := by
    rw [UInt64.toNat_sub, hunit]
    omega
  have hphase : (word.toNat - 2 ^ 31) / 2 ^ 62 = word.toNat / 2 ^ 62 := by omega
  simp only [phase_eq, inserters_eq, readers_eq, hdiff, hphase]
  exact ⟨trivial, by omega, by omega⟩

end OperationGateWord

end Neug.Transaction
