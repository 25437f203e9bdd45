import Mathlib.Algebra.Group.Int.Defs
import Mathlib.Algebra.Group.Nat.Defs
import Mathlib.Data.List.Range
import Rushit.Common.Fold
import Rushit.Hexdump.Model
/-!
# The rows of a dump

The loop over the cells leaves in `row_buf` the row of its bytes
(`fillCells_filled`), whatever was there, and the loop over the rows
leaves the rows in the buffer, as long as they fit it and the `int` that
counts the bytes does not overflow (`hexdump_fits`). It overflows after
2^27 rows (`hexdump_overflow`).
-/

namespace Rushit

namespace Hexdump

variable {stray : ℤ → UInt8} {input out rest : List UInt8} {row left i n : ℕ} {w : Work}

/-- The indices of `chr` that a cell looks up. -/
def cellLookups (cell : Option UInt8) : List ℤ :=
  cell.elim [] fun b => [(ofChar b).tdiv 16, (ofChar b).tmod 16]

/-- The indices that the first `n` cells look up. -/
def lookupsTo (input : List UInt8) (n : ℕ) : List ℤ :=
  (List.range n).flatMap fun k => cellLookups input[k]?

/-- The first `n` bytes of the rows. -/
def dumpTo (stray : ℤ → UInt8) (input : List UInt8) (n : ℕ) : List UInt8 :=
  (List.range n).map (dumpByte stray input)

@[simp] theorem length_dumpTo : (dumpTo stray input n).length = n := by
  simp [dumpTo]

theorem dumpTo_getElem? (stray : ℤ → UInt8) (input : List UInt8) {k : ℕ} (h : k < n) :
    (dumpTo stray input n)[k]? = some (dumpByte stray input k) := by
  simp [dumpTo, h]

/-! ## The cells of a row -/

/-- Where `row_buf` has a character of cell `i`. -/
def place (i : ℕ) : Column → ℕ
  | .high => i * 3
  | .low => i * 3 + 1
  | .space => i * 3 + 2
  | .char => 48 + i

theorem place_lt (hi : i < 16) (k : Column) : place i k < 64 := by
  cases k <;> simp only [place] <;> omega

/-- No two characters have one place. -/
theorem place_inj {i' : ℕ} {k k' : Column} (hi : i < 16) (hi' : i' < 16)
    (h : place i k = place i' k') : i = i' ∧ k = k' := by
  cases k <;> cases k' <;> simp only [place] at h <;> simp <;> omega

/-- The first `n` cells of the row are filled. -/
structure Filled (stray : ℤ → UInt8) (input : List UInt8) (row n : ℕ) (w : Work) : Prop where
  length : w.rowBuf.length = 65
  cells : ∀ i < n, ∀ k, w.rowBuf[place i k]? = some (cellByte stray input[row * 16 + i]? k)
  lookups : w.lookups = lookupsTo input (row * 16 + n)

theorem fillCell_rowBuf (cell : Option UInt8) (i : ℕ) (w : Work) :
    (fillCell stray cell i w).rowBuf =
      (((w.rowBuf.set (place i .high) (cellByte stray cell .high)).set (place i .low)
        (cellByte stray cell .low)).set (place i .space) (cellByte stray cell .space)).set
        (place i .char) (cellByte stray cell .char) := by
  cases cell <;> rfl

theorem fillCell_lookups (cell : Option UInt8) (i : ℕ) (w : Work) :
    (fillCell stray cell i w).lookups = w.lookups ++ cellLookups cell := by
  cases cell with
  | none => exact (List.append_nil _).symm
  | some b => rfl

/-- **One cell is filled**, and the others are left as they are. -/
theorem Filled.fillCell (h : Filled stray input row n w) (hn : n < 16) :
    Filled stray input row (n + 1) (fillCell stray input[row * 16 + n]? n w) := by
  refine ⟨?_, fun i hi k => ?_, ?_⟩
  · rw [fillCell_rowBuf]
    simpa using h.length
  · have hlen := h.length
    have hplace := place_lt hn
    have hi16 : i < 16 := by omega
    rw [fillCell_rowBuf]
    simp only [List.getElem?_set, List.length_set, hlen]
    rcases Nat.lt_succ_iff_lt_or_eq.mp hi with hlt | rfl
    · -- no place of the new cell is one of this
      have hne : ∀ k', place n k' ≠ place i k := fun k' heq =>
        absurd (place_inj hn hi16 heq).1 (by omega)
      rw [if_neg (hne .char), if_neg (hne .space), if_neg (hne .low), if_neg (hne .high)]
      exact h.cells i hlt k
    · have hlt : ∀ k', place i k' < 65 := fun k' => (hplace k').trans (by decide)
      have hiff : ∀ k', place i k' = place i k ↔ k' = k := fun k' =>
        ⟨fun heq => (place_inj hn hn heq).2, fun heq => heq ▸ rfl⟩
      cases k <;> simp [hiff, hlt]
  · rw [fillCell_lookups, h.lookups, ← Nat.add_assoc, lookupsTo, lookupsTo, List.range_succ,
      List.flatMap_append, List.flatMap_singleton]

/-- **The loop fills the row**, where its bytes can be counted. -/
theorem fillCells_filled (h : Filled stray input row i w) (hleft : i + left ≤ 16)
    (hrow : row < 2 ^ 27) :
    ∃ w', fillCells stray input row left i w = .ok w' ∧
      Filled stray input row (i + left) w' := by
  induction left generalizing i w with
  | zero => exact ⟨w, rfl, h⟩
  | succ left ih =>
    have hcount : ¬ intMax < row * width + i := by
      unfold intMax width
      omega
    obtain ⟨w', hw', hfilled⟩ := ih (h.fillCell (by omega)) (by omega)
    refine ⟨w', ?_, by rwa [Nat.add_right_comm] at hfilled⟩
    rw [fillCells, if_neg hcount]
    exact hw'

/-- After 2^27 rows the count overflows. -/
theorem fillCells_overflow (hrow : 2 ^ 27 ≤ row) :
    fillCells stray input row width 0 w = .error .overflow := by
  have hcount : intMax < row * width + 0 := by
    unfold intMax width
    omega
  rw [show width = 15 + 1 from rfl, fillCells, if_pos hcount]

/-- **A row that is filled** is the next row of the dump. -/
theorem Filled.rowBuf (h : Filled stray input row 16 w) :
    w.rowBuf.set 64 newline = (List.range 65).map fun j => dumpByte stray input (row * 65 + j) := by
  have hlen := h.length
  refine List.ext_getElem? fun j => ?_
  rw [List.getElem?_set, List.getElem?_map]
  rcases Nat.lt_or_ge j 65 with hj | hj
  · have hdiv : (row * 65 + j) / 65 = row := by omega
    have hmod : (row * 65 + j) % 65 = j := by omega
    rw [List.getElem?_range hj, Option.map_some, dumpByte]
    simp only [hdiv, hmod]
    rcases Nat.lt_or_ge j 64 with hj' | hj'
    · rw [if_neg (by omega)]
      rcases Nat.lt_or_ge j 48 with hj'' | hj''
      · -- in the digits
        have hplace : place (j / 3) (.ofNat (j % 3)) = j := by
          have hcases : j % 3 = 0 ∨ j % 3 = 1 ∨ j % 3 = 2 := by omega
          rcases hcases with hcase | hcase | hcase <;>
            simp only [hcase, Column.ofNat, place] <;> omega
        rw [if_pos hj'', ← h.cells (j / 3) (by omega) (.ofNat (j % 3)), hplace]
      · -- in the characters
        have hplace : place (j - 48) .char = j := by
          simp only [place]
          omega
        rw [if_neg (by omega), if_pos hj', ← h.cells (j - 48) (by omega) .char, hplace]
    · have hj64 : 64 = j := by omega
      subst hj64
      rw [if_pos rfl, if_pos (by omega)]
      rfl
  · rw [if_neg (by omega), List.getElem?_eq_none (by omega),
      List.getElem?_eq_none (by simpa using hj)]
    rfl

/-! ## The rows of a dump -/

/-- Before the row `row`. -/
structure Started (input : List UInt8) (row : ℕ) (w : Work) : Prop where
  length : w.rowBuf.length = 65
  lookups : w.lookups = lookupsTo input (row * 16)

theorem started_zero : Started input 0 ⟨List.replicate rowSize 0, []⟩ := ⟨rfl, rfl⟩

theorem offset_natCast (hn : n ≤ 2 ^ 31) : offset n = 65 * n := by
  have hsize : (rowSize : ℤ) = 65 := rfl
  have hbound : (65 * n : ℤ) < 2 ^ 64 := by omega
  rw [offset, hsize, Int.emod_eq_of_lt (by omega) hbound]
  omega

theorem store_fits {start : ℕ} {bytes : List UInt8} (h : start + bytes.length ≤ out.length) :
    store out start bytes =
      .ok (out.take start ++ bytes ++ out.drop (start + bytes.length)) := if_pos h

/-- The next row of the dump. -/
theorem dumpTo_row (row : ℕ) :
    dumpTo stray input (65 * row) ++ (List.range 65).map (fun j => dumpByte stray input
      (row * 65 + j)) = dumpTo stray input (65 * (row + 1)) := by
  unfold dumpTo
  have hmul : 65 * (row + 1) = 65 * row + 65 := rfl
  rw [hmul, List.range_add, List.map_append, List.map_map, Nat.mul_comm row]
  rfl

/-- What comes before the copy of a row. -/
theorem row_filled (stray : ℤ → UInt8) (h : Started input row w) (hrow : row < 2 ^ 27) :
    ∃ w', fillCells stray input row width 0 w = .ok w' ∧
      w'.rowBuf.set (width * 3 + width) newline =
        (List.range 65).map (fun j => dumpByte stray input (row * 65 + j)) ∧
      Started input (row + 1) { w' with rowBuf := w'.rowBuf.set (width * 3 + width) newline } := by
  have hfilled : Filled stray input row 0 w := ⟨h.length, nofun, h.lookups⟩
  obtain ⟨w', hw', hfilled'⟩ := fillCells_filled hfilled (le_refl (0 + 16)) hrow
  refine ⟨w', hw', hfilled'.rowBuf, ?_, ?_⟩
  · simpa using hfilled'.length
  · rw [Nat.add_one_mul]
    exact hfilled'.lookups

/-- **One row that fits.** -/
theorem dumpRows_copied (stray : ℤ → UInt8) (left : ℕ) (h : Started input row w)
    (hrow : row < 2 ^ 27) (rest : List UInt8) (hfits : 65 < rest.length) :
    ∃ w', Started input (row + 1) w' ∧
      dumpRows stray input (left + 1) row (dumpTo stray input (65 * row) ++ rest) w =
        dumpRows stray input left (row + 1)
          (dumpTo stray input (65 * (row + 1)) ++ rest.drop 65) w' := by
  obtain ⟨w', hw', hrowBuf, hstarted⟩ := row_filled stray h hrow
  refine ⟨_, hstarted, ?_⟩
  have hlen : (w'.rowBuf.set (width * 3 + width) newline).length = 65 := hstarted.length
  have hstart : offset row = 65 * row := offset_natCast (by omega)
  have hnext : offset (row + 1) = 65 * (row + 1) := offset_natCast (n := row + 1) (by omega)
  rw [dumpRows, hw']
  simp only [bind, Except.bind]
  rw [hnext, if_neg (by simp; omega), hstart, store_fits (by simp [hlen]; omega), hlen, hrowBuf,
    List.take_left' length_dumpTo, dumpTo_row, List.drop_append, length_dumpTo,
    List.drop_eq_nil_of_le (by simp), Nat.add_sub_cancel_left, List.nil_append]

/-- One row that does not. -/
theorem dumpRows_null (stray : ℤ → UInt8) (left : ℕ) (h : Started input row w)
    (hrow : row < 2 ^ 27) (hfull : rest.length ≤ 65) :
    ∃ w', dumpRows stray input (left + 1) row (dumpTo stray input (65 * row) ++ rest) w =
      .ok (false, dumpTo stray input (65 * row) ++ rest, w') := by
  obtain ⟨w', hw', -, -⟩ := row_filled stray h hrow
  refine ⟨{ w' with rowBuf := w'.rowBuf.set (width * 3 + width) newline }, ?_⟩
  have hnext : offset (row + 1) = 65 * (row + 1) := offset_natCast (n := row + 1) (by omega)
  rw [dumpRows, hw']
  simp only [bind, Except.bind]
  rw [hnext, if_pos (by simp; omega)]

/-- **All rows fit.** -/
theorem dumpRows_fits (stray : ℤ → UInt8) (left : ℕ) (h : Started input row w)
    (rest : List UInt8) (hrow : row + left ≤ 2 ^ 27)
    (hfits : 65 * left < rest.length) :
    ∃ w', Started input (row + left) w' ∧
      dumpRows stray input left row (dumpTo stray input (65 * row) ++ rest) w =
        .ok (true, dumpTo stray input (65 * (row + left)) ++ rest.drop (65 * left), w') := by
  induction left generalizing row rest w with
  | zero => exact ⟨w, h, rfl⟩
  | succ left ih =>
    obtain ⟨w', hw', hcopied⟩ := dumpRows_copied stray left h (by omega) rest (by omega)
    obtain ⟨w'', hw'', hfits'⟩ := ih hw' (rest.drop 65) (by omega)
      (by rw [List.length_drop]; omega)
    refine ⟨w'', by rwa [Nat.add_right_comm] at hw'', ?_⟩
    rw [hcopied, hfits', List.drop_drop, Nat.add_right_comm row, Nat.mul_succ, Nat.add_comm 65]
    rfl

/-- Some row does not fit. -/
theorem dumpRows_full (stray : ℤ → UInt8) (left : ℕ) (h : Started input row w)
    (rest : List UInt8) (hrow : row + left ≤ 2 ^ 27)
    (hpos : 0 < rest.length) (hfull : rest.length ≤ 65 * left) :
    ∃ out' w', dumpRows stray input left row (dumpTo stray input (65 * row) ++ rest) w =
      .ok (false, out', w') ∧ out'.length = 65 * row + rest.length := by
  induction left generalizing row rest w with
  | zero => omega
  | succ left ih =>
    rcases Nat.lt_or_ge 65 rest.length with hlt | hge
    · obtain ⟨w', hw', hcopied⟩ := dumpRows_copied stray left h (by omega) rest hlt
      obtain ⟨out', w'', hout', hlen⟩ := ih hw' (rest.drop 65) (by omega)
        (by rw [List.length_drop]; omega) (by rw [List.length_drop]; omega)
      refine ⟨out', w'', hcopied.trans hout', ?_⟩
      rw [hlen, List.length_drop]
      omega
    · obtain ⟨w', hnull⟩ := dumpRows_null stray left h (by omega) hge
      exact ⟨_, w', hnull, by simp⟩

/-- More rows than can be counted. -/
theorem dumpRows_overflow (stray : ℤ → UInt8) (left : ℕ) (h : Started input row w)
    (rest : List UInt8) (hrow : row ≤ 2 ^ 27)
    (hleft : 2 ^ 27 < row + left) (hfits : 65 * left < rest.length) :
    dumpRows stray input left row (dumpTo stray input (65 * row) ++ rest) w =
      .error .overflow := by
  induction left generalizing row rest w with
  | zero => omega
  | succ left ih =>
    rcases hrow.lt_or_eq with hlt | rfl
    · obtain ⟨w', hw', hcopied⟩ := dumpRows_copied stray left h hlt rest (by omega)
      rw [hcopied]
      exact ih hw' (rest.drop 65) hlt (by omega) (by rw [List.length_drop]; omega)
    · rw [dumpRows, fillCells_overflow le_rfl]
      rfl

/-! ## The whole dump -/

/-- The `int` has the rows of a message of up to 2^31 bytes. -/
theorem numRows_eq (h : n ≤ 2 ^ 31) : numRows n = rows n := by
  have hsize : n + width - 1 = n + 15 := rfl
  have hsum : (n + 15) % 2 ^ 64 = n + 15 := Nat.mod_eq_of_lt (by omega)
  have hrows : (n + 15) / 16 ≤ 2 ^ 27 := by omega
  have hwidth : width = 16 := rfl
  have hint : (((n + 15) / 16 : ℕ) : ℤ).bmod (2 ^ 32) = ((n + 15) / 16 : ℕ) := by
    have hpow : (2 ^ 32 : ℕ) = 4294967296 := rfl
    rw [hpow]
    exact Int.bmod_eq_of_le (by omega) (by omega)
  unfold numRows rows
  rw [hsize, hsum, hwidth, hint]

/-- **The dump of what fits.** -/
theorem hexdump_fits (stray : ℤ → UInt8) (hrows : numRows input.length = n) (hn : n ≤ 2 ^ 27)
    (hfits : 65 * n < out.length) :
    hexdump stray input out =
      .ok ⟨true, dumpTo stray input (65 * n) ++ 0 :: out.drop (65 * n + 1),
        lookupsTo input (16 * n)⟩ := by
  obtain ⟨w, hw, hdump⟩ := dumpRows_fits stray n started_zero out (by omega) hfits
  rw [Nat.zero_add] at hw hdump
  have hloop : dumpRows stray input n 0 out ⟨List.replicate rowSize 0, []⟩ = _ := hdump
  have hlookups : w.lookups = lookupsTo input (16 * n) := by
    rw [hw.lookups, Nat.mul_comm]
  rw [hexdump, hrows, Int.toNat_natCast, hloop]
  simp only [bind, Except.bind, if_true]
  rw [offset_natCast (by omega), store_fits (by simp; omega), hlookups]
  simp [List.drop_append]

/-- What does not fit is not dumped. -/
theorem hexdump_full (stray : ℤ → UInt8) (hrows : numRows input.length = n) (hn : n ≤ 2 ^ 27)
    (hpos : 0 < out.length) (hfull : out.length ≤ 65 * n) :
    ∃ d, hexdump stray input out = .ok d ∧ d.returned = false ∧ d.out.length = out.length := by
  obtain ⟨out', w, hdump, hlen⟩ := dumpRows_full stray n started_zero out (by omega) hpos
    hfull
  have hloop : dumpRows stray input n 0 out ⟨List.replicate rowSize 0, []⟩ = _ := hdump
  refine ⟨⟨false, out', w.lookups⟩, ?_, rfl, by simpa using hlen⟩
  rw [hexdump, hrows, Int.toNat_natCast, hloop]
  rfl

/-- A message of more rows than can be counted. -/
theorem hexdump_overflow (stray : ℤ → UInt8) (hrows : numRows input.length = n) (hn : 2 ^ 27 < n)
    (hfits : 65 * n < out.length) : hexdump stray input out = .error .overflow := by
  have hloop : dumpRows stray input n 0 out ⟨List.replicate rowSize 0, []⟩ = _ :=
    dumpRows_overflow stray n started_zero out (by omega) (by omega) hfits
  rw [hexdump, hrows, Int.toNat_natCast, hloop]
  rfl

end Hexdump

end Rushit
