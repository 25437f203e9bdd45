import Mathlib.Algebra.Group.Int.Defs
import Mathlib.Algebra.Group.Nat.Defs
import Mathlib.Data.Int.Notation
import Mathlib.Data.List.Basic
import Mathlib.Data.Nat.Notation
/-!
# The dump of a message

`hexdump` of `hexdump.c` prints the bytes of a message in rows of 16: two
hexadecimal digits and a blank for each, then the characters themselves,
where they can be printed, then a newline. The bytes come as `char`,
which is signed, and a digit is looked up in a table of 16; what stands
around the table in memory is an argument here, `stray`, and the indices
that are looked up are recorded.
-/

namespace Rushit

namespace Hexdump

/-- What C leaves undefined. -/
inductive Fault
  /-- An `int` is past its largest value. -/
  | overflow
  /-- A write past the end of the buffer. -/
  | outOfBounds
  deriving DecidableEq

/-- `WIDTH` -/
def width : ℕ := 16

/-- `sizeof(row_buf)` -/
def rowSize : ℕ := width * 3 + width + 1

def intMax : ℕ := 2147483647

def blank : UInt8 := ' '.toUInt8

def dot : UInt8 := '.'.toUInt8

def newline : UInt8 := '\n'.toUInt8

/-- `chr`, a string: with its NUL. -/
def chr : List UInt8 :=
  ['0', '1', '2', '3', '4', '5', '6', '7', '8', '9', 'a', 'b', 'c', 'd', 'e', 'f'].map
    Char.toUInt8 ++ [0]

/-- What stands in memory at an index from `chr`. -/
def chrAt (stray : ℤ → UInt8) (i : ℤ) : UInt8 :=
  if 0 ≤ i then chr.getD i.toNat (stray i) else stray i

/-- `isprint` in the C locale, of what fits a `char`. -/
def isprint (c : ℤ) : Bool := 0x20 ≤ c ∧ c ≤ 0x7e

/-- The conversion of a `char` to an `int`. -/
def ofChar (b : UInt8) : ℤ := b.toInt8.toInt

/-- The conversion of an `int` to a `char`. -/
def toChar (c : ℤ) : UInt8 := (Int8.ofInt c).toUInt8

/-- The row that is being filled, and the indices of `chr` that were
looked up. -/
structure Work where
  rowBuf : List UInt8
  lookups : List ℤ
  deriving DecidableEq

/-- One cell, of the byte at its index where there is one. -/
def fillCell (stray : ℤ → UInt8) (cell : Option UInt8) (i : ℕ) (w : Work) : Work :=
  match cell with
  | some b =>
    let c := ofChar b
    -- division rounds toward zero, and a remainder has the sign of `c`
    ⟨(((w.rowBuf.set (i * 3) (chrAt stray (c.tdiv 16))).set (i * 3 + 1)
        (chrAt stray (c.tmod 16))).set (i * 3 + 2) blank).set (width * 3 + i)
        (if isprint c then toChar c else dot),
      w.lookups ++ [c.tdiv 16, c.tmod 16]⟩
  | none =>
    ⟨(((w.rowBuf.set (i * 3) blank).set (i * 3 + 1) blank).set (i * 3 + 2) blank).set
        (width * 3 + i) blank,
      w.lookups⟩

/-- The cells of a row, from `i` on with `left` of them to fill. -/
def fillCells (stray : ℤ → UInt8) (input : List UInt8) (row : ℕ) :
    ℕ → ℕ → Work → Except Fault Work
  | 0, _, w => .ok w
  | left + 1, i, w =>
    if intMax < row * width + i then .error .overflow
    else fillCells stray input row left (i + 1) (fillCell stray input[row * width + i]? i w)

/-- `sizeof(row_buf) * row`, of a `size_t`. -/
def offset (row : ℤ) : ℕ := (rowSize * row % 2 ^ 64).toNat

/-- A copy into the buffer. -/
def store (out : List UInt8) (start : ℕ) (bytes : List UInt8) : Except Fault (List UInt8) :=
  if start + bytes.length ≤ out.length then
    .ok (out.take start ++ bytes ++ out.drop (start + bytes.length))
  else .error .outOfBounds

/-- The rows, from `row` on with `left` of them to print: whether they
fit, and the buffer. -/
def dumpRows (stray : ℤ → UInt8) (input : List UInt8) :
    ℕ → ℕ → List UInt8 → Work → Except Fault (Bool × List UInt8 × Work)
  | 0, _, out, w => .ok (true, out, w)
  | left + 1, row, out, w => do
    let w ← fillCells stray input row width 0 w
    let w := { w with rowBuf := w.rowBuf.set (width * 3 + width) newline }
    if out.length ≤ offset (row + 1) then .ok (false, out, w)
    else
      let out ← store out (offset row) w.rowBuf
      dumpRows stray input left (row + 1) out w

/-- `num_rows`: a `size_t` that is converted to an `int`. -/
def numRows (inLen : ℕ) : ℤ := (((inLen + width - 1) % 2 ^ 64 / width : ℕ) : ℤ).bmod (2 ^ 32)

/-- What `hexdump` leaves. -/
structure Dump where
  /-- It returns `out`, not `NULL`. -/
  returned : Bool
  out : List UInt8
  lookups : List ℤ
  deriving DecidableEq

/-- `hexdump` -/
def hexdump (stray : ℤ → UInt8) (input out : List UInt8) : Except Fault Dump := do
  let numRows := numRows input.length
  -- what `row_buf` has at first is nowhere read
  let (fit, out, w) ← dumpRows stray input numRows.toNat 0 out ⟨List.replicate rowSize 0, []⟩
  if fit then
    let out ← store out (offset numRows) [0]
    .ok ⟨true, out, w.lookups⟩
  else .ok ⟨false, out, w.lookups⟩

/-! ## What a row has -/

/-- The rows that it takes for `n` bytes. -/
def rows (n : ℕ) : ℕ := (n + 15) / 16

/-- The characters of a cell: two digits and a blank, and the byte as
itself. -/
inductive Column
  | high
  | low
  | space
  | char

/-- The character at `j` of the first three. -/
def Column.ofNat : ℕ → Column
  | 0 => .high
  | 1 => .low
  | _ => .space

/-- A character of a cell. -/
def cellByte (stray : ℤ → UInt8) (cell : Option UInt8) : Column → UInt8
  | .high => cell.elim blank fun b => chrAt stray ((ofChar b).tdiv 16)
  | .low => cell.elim blank fun b => chrAt stray ((ofChar b).tmod 16)
  | .space => blank
  | .char => cell.elim blank fun b => if isprint (ofChar b) then toChar (ofChar b) else dot

/-- The byte at `k` of the rows. -/
def dumpByte (stray : ℤ → UInt8) (input : List UInt8) (k : ℕ) : UInt8 :=
  let row := k / 65
  let j := k % 65
  if j < 48 then cellByte stray input[row * 16 + j / 3]? (.ofNat (j % 3))
  else if j < 64 then cellByte stray input[row * 16 + (j - 48)]? .char
  else newline

end Hexdump

end Rushit
