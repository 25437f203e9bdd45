import Mathlib.Data.List.Basic
/-!
# Lists of numbers in blocks

`numlist.c`: a list of numbers is a chain of blocks of
`MEMBLOCK_SIZE` numbers each, and only the block at the head may have
room. Here is what a flow does with its latencies: it creates a list and
adds to it, so that there always is a head.
-/

namespace Rushit

/-- `MEMBLOCK_SIZE` -/
def memblockSize : ℕ := 500

variable {α : Type}

/-- `struct memblock`: the numbers in use. -/
structure Memblock (α : Type) where
  data : List α
  size_le : data.length ≤ memblockSize

/-- `struct numlist`: the block at the head, and those after it. -/
structure Numlist (α : Type) where
  head : Memblock α
  next : List (Memblock α)

namespace Numlist

/-- `prepend_memblock`, onto the chain `next`. -/
def prependMemblock (next : List (Memblock α)) : Numlist α := ⟨⟨[], Nat.zero_le _⟩, next⟩

/-- `numlist_create` -/
def create : Numlist α := prependMemblock []

/-- `lst->head->data[lst->head->size++] = val` -/
def push (lst : Numlist α) (h : lst.head.data.length < memblockSize) (val : α) : Numlist α :=
  { lst with head := ⟨lst.head.data ++ [val], by rw [List.length_append]; exact h⟩ }

/-- `numlist_add` -/
def add (lst : Numlist α) (val : α) : Numlist α :=
  if h : lst.head.data.length = memblockSize then
    (prependMemblock (lst.head :: lst.next)).push (by decide : 0 < memblockSize) val
  else lst.push (Nat.lt_of_le_of_ne lst.head.size_le h) val

/-- `numlist_size`: every number of every block is counted. -/
def size (lst : Numlist α) : ℕ :=
  (lst.head :: lst.next).foldl (fun size blk => blk.data.foldl (fun size _ => size + 1) size) 0

/-- The numbers of a chain of blocks, block by block. -/
def numbers (blocks : List (Memblock α)) : List α := blocks.flatMap Memblock.data

theorem foldl_count (data : List α) (n : ℕ) :
    data.foldl (fun size _ => size + 1) n = n + data.length := by
  induction data generalizing n with
  | nil => rfl
  | cons a data ih =>
    rw [List.foldl_cons, ih, List.length_cons]
    omega

theorem foldl_size (blocks : List (Memblock α)) (n : ℕ) :
    blocks.foldl (fun size blk => blk.data.foldl (fun size _ => size + 1) size) n =
      n + (numbers blocks).length := by
  induction blocks generalizing n with
  | nil => rfl
  | cons blk blocks ih =>
    have hcons : numbers (blk :: blocks) = blk.data ++ numbers blocks := rfl
    rw [List.foldl_cons, ih, foldl_count, hcons, List.length_append]
    omega

/-- What `numlist_size` counts are the numbers of the blocks. -/
theorem size_eq (lst : Numlist α) : lst.size = (numbers (lst.head :: lst.next)).length := by
  rw [size, foldl_size, Nat.zero_add]

@[simp] theorem size_create : (create : Numlist α).size = 0 := rfl

/-- **Each number added counts once**, whether or not the block at the
head is full. -/
@[simp] theorem size_add (lst : Numlist α) (val : α) : (lst.add val).size = lst.size + 1 := by
  rw [size_eq, size_eq]
  unfold add
  split
  · simp only [push, prependMemblock, numbers, List.flatMap_cons, List.length_append,
      List.length_cons, List.length_nil]
    omega
  · simp only [push, numbers, List.flatMap_cons, List.length_append, List.length_cons,
      List.length_nil]
    omega

end Numlist

end Rushit
