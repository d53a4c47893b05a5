import Mathlib.Data.List.Basic

/-! # Storing a list of things under their keys

A store is read and written by key; a write replaces what the key had.  After a list of
things was written, each is read back as long as no other of them has its key.
-/

namespace Library

variable {Store Key Val α : Type*}

def writeAll (write : Store → Key → Val → Store) (key : α → Key) (val : α → Val)
    (store : Store) (l : List α) : Store :=
  l.foldl (fun acc a => write acc (key a) (val a)) store

variable {write : Store → Key → Val → Store} {key : α → Key} {val : α → Val}

theorem read_writeAll [DecidableEq Key] [DecidableEq α] (read : Store → Key → Option Val)
    (hwrite : ∀ store k v k', read (write store k v) k' = if k' = k then some v else read store k')
    {l : List α} {a : α} (hkeys : ∀ b ∈ l, key b = key a → b = a) (store : Store) :
    read (writeAll write key val store l) (key a) =
      if a ∈ l then some (val a) else read store (key a) := by
  induction l generalizing store with
  | nil => rfl
  | cons b rest ih =>
    have hrest : ∀ c ∈ rest, key c = key a → c = a :=
      fun c hc => hkeys c (List.mem_cons_of_mem b hc)
    have hstep : writeAll write key val store (b :: rest) =
        writeAll write key val (write store (key b) (val b)) rest := rfl
    rw [hstep, ih hrest, hwrite]
    by_cases hba : b = a
    · subst hba
      simp
    · have hkey : ¬ key a = key b := fun h => hba (hkeys b List.mem_cons_self h.symm)
      simp [hkey, Ne.symm hba]

theorem writeAll_keeps {β : Type*} (f : Store → β)
    (hwrite : ∀ store k v, f (write store k v) = f store) (store : Store) (l : List α) :
    f (writeAll write key val store l) = f store :=
  List.foldlRecOn (motive := (f · = f store)) l _ rfl fun s hs _ _ => (hwrite s _ _).trans hs

end Library
