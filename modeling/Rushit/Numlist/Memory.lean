import Mathlib.Algebra.Group.Int.Defs
import Mathlib.Algebra.Group.Nat.Defs
import Mathlib.Data.List.Sort
import Mathlib.Order.BoundedOrder.Basic
import Rushit.Sample.Numlist
/-!
# Lists of numbers in memory

`numlist.c` as it works on memory: a `struct numlist` has a pointer to
the block at its head, which is null after the list was the `tail` of a
`numlist_concat`, and each block one to the next. What follows a null
pointer, touches memory that is not allocated or reads outside an array
is an error of the model.

Addresses are numbers in the order of allocation; the code compares none
of them. The numbers are of a type with a total order, `⊤` and `⊥` for
`INFINITY` and `-INFINITY`, so that a `NAN` is not among them; where the
code returns `NAN` there is no number. `numlist_mean` and
`numlist_stddev` are left out.
-/

namespace Rushit

variable {α β : Type}

/-- What the code must not do. -/
inductive Memory.Fault
  /-- A null pointer is followed. -/
  | null
  /-- Memory is used that is not allocated. -/
  | freed
  /-- An array is accessed outside its bounds. -/
  | bounds
  /-- A loop goes on for ever. -/
  | endless
  deriving DecidableEq

/-- `struct memblock`, with the numbers in use. -/
structure Block (α : Type) extends Memblock α where
  next : Option ℕ

/-- The blocks and the lists there are, by address; none where the memory
was freed. A `struct numlist` is its `head`. -/
structure Memory (α : Type) where
  blocks : List (Option (Block α))
  lists : List (Option (Option ℕ))
  /-- The blocks that were passed to `free`, the last one first. -/
  frees : List ℕ

namespace Memory

/-- Before anything is allocated. -/
def empty : Memory α := ⟨[], [], []⟩

/-- A pointer that is followed. -/
def deref : Option ℕ → Except Fault ℕ
  | none => .error .null
  | some a => .ok a

/-- The block at an address. -/
def block (m : Memory α) (a : ℕ) : Except Fault (Block α) :=
  match m.blocks[a]? with
  | some (some blk) => .ok blk
  | _ => .error .freed

/-- `lst->head` -/
def head (m : Memory α) (lst : ℕ) : Except Fault (Option ℕ) :=
  match m.lists[lst]? with
  | some (some p) => .ok p
  | _ => .error .freed

def setBlock (m : Memory α) (a : ℕ) (blk : Block α) : Memory α :=
  { m with blocks := m.blocks.set a (some blk) }

def setHead (m : Memory α) (lst : ℕ) (p : Option ℕ) : Memory α :=
  { m with lists := m.lists.set lst (some p) }

/-- A block without numbers. -/
def emptyBlock (next : Option ℕ) : Block α := ⟨(Numlist.prependMemblock []).head, next⟩

/-- `prepend_memblock` -/
def prependMemblock (m : Memory α) (lst : ℕ) : Except Fault (Memory α) := do
  let head ← m.head lst
  pure ({ m with blocks := m.blocks ++ [some (emptyBlock head)] }.setHead lst
    (some m.blocks.length))

/-- `numlist_create`; the list is at `m.lists.length`. -/
def create (m : Memory α) : Except Fault (Memory α) :=
  { m with lists := m.lists ++ [some none] }.prependMemblock m.lists.length

/-- A block with one more number. -/
def push (blk : Block α) (val : α) : Except Fault (Block α) :=
  if h : blk.data.length < memblockSize then
    .ok ⟨((⟨blk.toMemblock, []⟩ : Numlist α).push h val).head, blk.next⟩
  else .error .bounds

/-- `lst->head->data[lst->head->size++] = val` -/
def store (m : Memory α) (lst : ℕ) (val : α) : Except Fault (Memory α) := do
  let head ← m.head lst
  let a ← deref head
  let blk ← m.block a
  let blk ← push blk val
  pure (m.setBlock a blk)

/-- `numlist_add` -/
def add (m : Memory α) (lst : ℕ) (val : α) : Except Fault (Memory α) := do
  let head ← m.head lst
  let a ← deref head
  let blk ← m.block a
  let m ← if blk.data.length = memblockSize then m.prependMemblock lst else pure m
  m.store lst val

/-- `while (blk->next) blk = blk->next`, as far as `fuel` loops. -/
def lastBlock (m : Memory α) : ℕ → Option ℕ → Except Fault ℕ
  | _, none => .error .null
  | 0, some _ => .error .endless
  | fuel + 1, some a => do
    let blk ← m.block a
    if blk.next.isSome then lastBlock m fuel blk.next else pure a

/-- `numlist_concat`, of two lists. -/
def concat (m : Memory α) (lst tail : ℕ) : Except Fault (Memory α) := do
  let head ← m.head lst
  let a ← m.lastBlock m.blocks.length head
  let blk ← m.block a
  let tailHead ← m.head tail
  pure ((m.setBlock a { blk with next := tailHead }).setHead tail none)

/-! ## Queries -/

/-- `for_each_memblock`, as far as `fuel` loops. -/
def forEachMemblock (m : Memory α) (f : β → Memblock α → β) : ℕ → β → Option ℕ → Except Fault β
  | _, b, none => .ok b
  | 0, _, some _ => .error .endless
  | fuel + 1, b, some a => do
    let blk ← m.block a
    forEachMemblock m f fuel (f b blk.toMemblock) blk.next

/-- `for_each` -/
def forEach (m : Memory α) (lst : ℕ) (f : β → α → β) (b : β) : Except Fault β := do
  let head ← m.head lst
  m.forEachMemblock (fun b blk => blk.data.foldl f b) m.blocks.length b head

/-- `numlist_size` -/
def size (m : Memory α) (lst : ℕ) : Except Fault ℕ := m.forEach lst (fun size _ => size + 1) 0

section Order

variable [LinearOrder α] [BoundedOrder α]

/-- `numlist_min` -/
def min (m : Memory α) (lst : ℕ) : Except Fault α :=
  m.forEach lst (fun min n => if n < min then n else min) ⊤

/-- `numlist_max` -/
def max (m : Memory α) (lst : ℕ) : Except Fault α :=
  m.forEach lst (fun max n => if n > max then n else max) ⊥

end Order

section Percentile

variable [LinearOrder α]

/-- `compare_doubles` -/
def compareDoubles (x y : α) : ℤ := if x < y then -1 else if x > y then 1 else 0

/-- `(size - 1) * percentile / 100`, in `size_t`. -/
def percentileIndex (size : ℕ) (percentile : ℤ) : ℕ :=
  ((size - 1) * (percentile % 2 ^ 64).toNat) % 2 ^ 64 / 100

/-- `values[i]` -/
def readAt (values : List α) (i : ℕ) : Except Fault α :=
  match values[i]? with
  | some val => .ok val
  | none => .error .bounds

/-- `numlist_percentile`; none is `NAN`. -/
def percentile (m : Memory α) (lst : ℕ) (percentile : ℤ) : Except Fault (Option α) := do
  let size ← m.size lst
  if size = 0 then pure none
  else
    let values ← m.forEach lst (fun values n => values ++ [n]) []
    -- `qsort`
    let values := values.mergeSort fun x y => decide (compareDoubles x y ≤ 0)
    let result ← readAt values (percentileIndex size percentile)
    pure (some result)

end Percentile

/-! ## Release -/

/-- The loop of `numlist_destroy`, as far as `fuel` loops. -/
def freeBlocks : ℕ → Memory α → Option ℕ → Except Fault (Memory α)
  | _, m, none => .ok m
  | 0, _, some _ => .error .endless
  | fuel + 1, m, some a => do
    let blk ← m.block a
    freeBlocks fuel { m with blocks := m.blocks.set a none, frees := a :: m.frees } blk.next

/-- `numlist_destroy` -/
def destroy (m : Memory α) (lst : ℕ) : Except Fault (Memory α) := do
  let head ← m.head lst
  let m ← freeBlocks m.blocks.length m head
  pure { m with lists := m.lists.set lst none }

/-- `free_samples`, of samples with these `latency` lists. -/
def freeSamples (m : Memory α) (samples : List ℕ) : Except Fault (Memory α) :=
  samples.foldlM destroy m

/-! ## The report -/

/-- What `report_latency` prints. -/
structure LatencyReport (α : Type) where
  latencyMin : α
  latencyMax : α
  /-- The percentiles that are chosen. -/
  latencyP : List (ℕ × Option α)

/-- The loop of `report_latency`, of samples with these `latency` lists. -/
def concatSamples (all : ℕ) (samples : List ℕ) (start stop : ℕ) (m : Memory α) :
    Except Fault (Memory α) :=
  (List.range' (start + 1) (stop - start)).foldlM (fun m i => do
    let latency ← readAt samples i
    m.concat all latency) m

section Report

variable [LinearOrder α] [BoundedOrder α]

/-- The queries of `report_latency`. -/
def latencyReport (chosen : ℕ → Bool) (all : ℕ) (m : Memory α) :
    Except Fault (LatencyReport α) := do
  let latencyMin ← m.min all
  let latencyMax ← m.max all
  let latencyP ← ((List.range 101).filter chosen).mapM fun (i : ℕ) => do
    let p ← m.percentile all i
    pure (i, p)
  pure ⟨latencyMin, latencyMax, latencyP⟩

/-- `report_latency` -/
def reportLatency (client : Bool) (chosen : ℕ → Bool) (samples : List ℕ) (start stop : ℕ)
    (m : Memory α) : Except Fault (Memory α × Option (LatencyReport α)) := do
  let all ← readAt samples start
  if client then
    let m ← concatSamples all samples start stop m
    let report ← latencyReport chosen all m
    pure (m, some report)
  else pure (m, none)

end Report

end Memory

end Rushit
