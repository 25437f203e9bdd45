import Rushit.Common.CString
import Rushit.Hexdump.Rows
/-!
# Reading a dump back

A byte below 128 is a `char` that is not negative, and both of its digits
are in the table. Where all bytes are such and they can be counted in an
`int`, a dump reads back as the message (`decodes_iff`), and it is a
string of rows with a newline at the end of each
(`dump_is_rows_iff`). Any other byte looks up an index below 0.
-/

namespace Rushit

namespace Hexdump

open CString

variable {stray : ℤ → UInt8} {input out s : List UInt8} {n k : ℕ} {b : UInt8}

/-! ## One byte -/

/-- The value of a digit. -/
def hexDigit (d : UInt8) : Option ℕ := (chr.take 16).idxOf? d

/-- An index of the table does not look at what stands around it. -/
theorem chrAt_eq {v : ℕ} (hv : v < 16) : chrAt stray v = chr.getD v 0 := by
  have hlen : v < chr.length := hv.trans (by decide)
  rw [chrAt, if_pos (by omega), Int.toNat_natCast, List.getD, List.getD,
    List.getElem?_eq_getElem hlen]
  rfl

theorem hexDigit_chrAt {v : ℕ} (hv : v < 16) : hexDigit (chrAt stray v) = some v := by
  have hall : ∀ v : Fin 16, hexDigit (chr.getD v 0) = some (v : ℕ) := by decide
  rw [chrAt_eq hv]
  exact hall ⟨v, hv⟩

theorem chrAt_ne {v : ℕ} (hv : v < 16) : chrAt stray v ≠ 0 ∧ chrAt stray v ≠ newline := by
  have hall : ∀ v : Fin 16, chr.getD v 0 ≠ 0 ∧ chr.getD v 0 ≠ newline := by decide
  rw [chrAt_eq hv]
  exact hall ⟨v, hv⟩

theorem ofChar_eq (b : UInt8) :
    ofChar b = if b.toNat < 128 then (b.toNat : ℤ) else b.toNat - 256 := by
  have hcond : ofChar b = if 2 * b.toNat < 2 ^ 8 then (b.toNat : ℤ) else b.toNat - (2 ^ 8 : ℕ) :=
    BitVec.toInt_eq_toNat_cond b.toBitVec
  rw [hcond]
  split_ifs <;> omega

/-- A byte below 128 is not negative. -/
theorem ofChar_low (hb : b < 128) : ofChar b = b.toNat :=
  (ofChar_eq b).trans (if_pos (UInt8.lt_iff_toNat_lt.mp hb))

theorem toChar_ofChar (b : UInt8) : toChar (ofChar b) = b := by
  simp [toChar, ofChar]

theorem tdiv_low (hb : b < 128) : (ofChar b).tdiv 16 = (b.toNat / 16 : ℕ) := by
  rw [ofChar_low hb, Int.tdiv_eq_ediv_of_nonneg (by omega)]
  omega

theorem tmod_low (hb : b < 128) : (ofChar b).tmod 16 = (b.toNat % 16 : ℕ) := by
  rw [ofChar_low hb, Int.tmod_eq_emod_of_nonneg (by omega)]
  omega

/-- One of the two digits of any other byte is before the table. -/
theorem lookup_high (hb : ¬ b < 128) : (ofChar b).tdiv 16 < 0 ∨ (ofChar b).tmod 16 < 0 := by
  have hhigh : ¬ b.toNat < 128 := fun h => hb (UInt8.lt_iff_toNat_lt.mpr h)
  have hdivmod := Int.mul_tdiv_add_tmod (ofChar b) 16
  have hneg := ofChar_eq b
  have hlt := b.toNat_lt
  rw [if_neg hhigh] at hneg
  omega

/-- **A byte looks up the table only** where it is below 128. -/
theorem lookups_in_table_iff (b : UInt8) :
    (∀ i ∈ cellLookups (some b), 0 ≤ i ∧ i < 16) ↔ b < 128 := by
  constructor
  · intro h
    have hdiv := (h _ List.mem_cons_self).1
    have hmod := (h _ (List.mem_cons_of_mem _ List.mem_cons_self)).1
    by_contra hb
    have hneg := lookup_high hb
    omega
  · intro hb i hi
    have hlt : b.toNat < 128 := UInt8.lt_iff_toNat_lt.mp hb
    have hmem : i = (b.toNat / 16 : ℕ) ∨ i = (b.toNat % 16 : ℕ) := by
      simpa [cellLookups, tdiv_low hb, tmod_low hb] using hi
    rcases hmem with rfl | rfl <;> omega

/-! ## The cells of a dump -/

/-- The two digits of a cell, read as a byte. -/
def readCell (s : List UInt8) (k : ℕ) : Option UInt8 := do
  let high ← s[k / 16 * 65 + k % 16 * 3]?.bind hexDigit
  let low ← s[k / 16 * 65 + k % 16 * 3 + 1]?.bind hexDigit
  some (UInt8.ofNat (16 * high + low))

/-- The cells of all rows, one after the other; what has no digits is no
byte. -/
def decode (s : List UInt8) : List UInt8 :=
  (List.range (16 * (s.length / 65))).filterMap (readCell s)

/-- The character of a cell. -/
def readChar (s : List UInt8) (k : ℕ) : Option UInt8 := s[k / 16 * 65 + 48 + k % 16]?

/-- The digits of the rows. -/
theorem dumpByte_digit (stray : ℤ → UInt8) (input : List UInt8) (k : ℕ) {j : ℕ} (hj : j < 3) :
    dumpByte stray input (k / 16 * 65 + k % 16 * 3 + j) =
      cellByte stray input[k]? (.ofNat j) := by
  have hdiv : (k / 16 * 65 + k % 16 * 3 + j) / 65 = k / 16 := by omega
  have hmod : (k / 16 * 65 + k % 16 * 3 + j) % 65 = k % 16 * 3 + j := by omega
  have hcell : (k % 16 * 3 + j) / 3 = k % 16 := by omega
  have hplace : (k % 16 * 3 + j) % 3 = j := by omega
  have hk : k / 16 * 16 + k % 16 = k := by omega
  unfold dumpByte
  simp only [hdiv, hmod, hcell, hplace, hk]
  rw [if_pos (by omega)]

/-- The characters of the rows. -/
theorem dumpByte_char (stray : ℤ → UInt8) (input : List UInt8) (k : ℕ) :
    dumpByte stray input (k / 16 * 65 + 48 + k % 16) = cellByte stray input[k]? .char := by
  have hdiv : (k / 16 * 65 + 48 + k % 16) / 65 = k / 16 := by omega
  have hmod : (k / 16 * 65 + 48 + k % 16) % 65 = 48 + k % 16 := by omega
  have hk : k / 16 * 16 + k % 16 = k := by omega
  unfold dumpByte
  simp only [hdiv, hmod, Nat.add_sub_cancel_left, hk]
  rw [if_neg (by omega), if_pos (by omega)]

/-- **A cell reads back** as its byte, where that is below 128. -/
theorem readCell_dumpTo (hlow : ∀ b ∈ input, b < 128) (hk : k < 16 * n) :
    readCell (dumpTo stray input (65 * n)) k = input[k]? := by
  have hhigh := dumpTo_getElem? stray input (n := 65 * n) (k := k / 16 * 65 + k % 16 * 3) (by omega)
  have hlow' := dumpTo_getElem? stray input (n := 65 * n) (k := k / 16 * 65 + k % 16 * 3 + 1)
    (by omega)
  have hdigit := dumpByte_digit stray input k (j := 0) (by decide)
  rw [readCell, hhigh, hlow', dumpByte_digit _ _ k (by decide),
    ← Nat.add_zero (k / 16 * 65 + k % 16 * 3), hdigit]
  cases hcell : input[k]? with
  | none => rfl
  | some b =>
    have hb := hlow b (List.mem_of_getElem? hcell)
    have hlt : b.toNat < 128 := UInt8.lt_iff_toNat_lt.mp hb
    have hfirst : hexDigit (cellByte stray (some b) (.ofNat 0)) = some (b.toNat / 16) := by
      have heq : cellByte stray (some b) (.ofNat 0) = chrAt stray ((ofChar b).tdiv 16) := rfl
      rw [heq, tdiv_low hb, hexDigit_chrAt (by omega)]
    have hsecond : hexDigit (cellByte stray (some b) (.ofNat 1)) = some (b.toNat % 16) := by
      have heq : cellByte stray (some b) (.ofNat 1) = chrAt stray ((ofChar b).tmod 16) := rfl
      rw [heq, tmod_low hb, hexDigit_chrAt (by omega)]
    simp only [Option.bind_some, hfirst, hsecond, bind]
    rw [Nat.div_add_mod, UInt8.ofNat_toNat]

theorem filterMap_getElem? (l : List UInt8) (m : ℕ) :
    (List.range m).filterMap (fun k => l[k]?) = l.take m := by
  induction m with
  | zero => rfl
  | succ m ih =>
    rw [List.range_succ, List.filterMap_append, ih, List.take_add_one, List.filterMap_cons]
    cases l[m]? <;> rfl

/-- **The rows read back** as the message. -/
theorem decode_dumpTo (hlow : ∀ b ∈ input, b < 128) (hn : input.length ≤ 16 * n) :
    decode (dumpTo stray input (65 * n)) = input := by
  have hcells : 16 * ((dumpTo stray input (65 * n)).length / 65) = 16 * n := by
    rw [length_dumpTo]
    omega
  have hread : ∀ k ∈ List.range (16 * n), readCell (dumpTo stray input (65 * n)) k = input[k]? :=
    fun k hk => readCell_dumpTo hlow (List.mem_range.mp hk)
  rw [decode, hcells, List.filterMap_congr hread, filterMap_getElem?, List.take_of_length_le hn]

/-- No more is read than there are cells. -/
theorem length_decode_le (hs : s.length ≤ 65 * n) : (decode s).length ≤ 16 * n := by
  have hle := List.length_filterMap_le (readCell s) (List.range (16 * (s.length / 65)))
  rw [List.length_range] at hle
  unfold decode
  omega

/-- **A character that can be printed** is in the column as itself. -/
theorem readChar_dumpTo (hlow : ∀ b ∈ input, b < 128) (hk : k < 16 * n) (hb : input[k]? = some b) :
    readChar (dumpTo stray input (65 * n)) k = some (if isprint b.toNat then b else dot) := by
  have hofChar := ofChar_low (hlow b (List.mem_of_getElem? hb))
  have hchar : cellByte stray (some b) .char =
      if isprint (ofChar b) then toChar (ofChar b) else dot := rfl
  rw [readChar, dumpTo_getElem? _ _ (by omega), dumpByte_char, hb, hchar, toChar_ofChar, hofChar]

/-! ## The lines of a dump -/

theorem cellByte_ne (stray : ℤ → UInt8) (hlow : ∀ b ∈ input, b < 128) (k : ℕ) (j : Column) :
    cellByte stray input[k]? j ≠ 0 ∧ cellByte stray input[k]? j ≠ newline := by
  have hblank : blank ≠ 0 ∧ blank ≠ newline := by decide
  have hdot : dot ≠ 0 ∧ dot ≠ newline := by decide
  cases hcell : input[k]? with
  | none =>
    cases j <;> exact hblank
  | some b =>
    have hb := hlow b (List.mem_of_getElem? hcell)
    have hlt : b.toNat < 128 := UInt8.lt_iff_toNat_lt.mp hb
    cases j with
    | high =>
      change chrAt stray ((ofChar b).tdiv 16) ≠ 0 ∧ chrAt stray ((ofChar b).tdiv 16) ≠ newline
      rw [tdiv_low hb]
      exact chrAt_ne (by omega)
    | low =>
      change chrAt stray ((ofChar b).tmod 16) ≠ 0 ∧ chrAt stray ((ofChar b).tmod 16) ≠ newline
      rw [tmod_low hb]
      exact chrAt_ne (by omega)
    | space => exact hblank
    | char =>
      change (if isprint (ofChar b) then toChar (ofChar b) else dot) ≠ 0 ∧
        (if isprint (ofChar b) then toChar (ofChar b) else dot) ≠ newline
      rw [toChar_ofChar, ofChar_low hb]
      split_ifs with hprint
      · -- neither of the two can be printed
        constructor <;> rintro rfl <;> exact absurd hprint (by decide)
      · exact hdot

/-- **No byte of the rows is a NUL**, and the newlines are at their ends. -/
theorem dumpByte_ne (hlow : ∀ b ∈ input, b < 128) (k : ℕ) :
    dumpByte stray input k ≠ 0 ∧ (dumpByte stray input k = newline ↔ k % 65 = 64) := by
  have hlt : k % 65 < 65 := Nat.mod_lt _ (by decide)
  unfold dumpByte
  dsimp only
  split_ifs with hdigits hchars
  · have hne := cellByte_ne stray hlow (k / 65 * 16 + k % 65 / 3)
      (.ofNat (k % 65 % 3))
    exact ⟨hne.1, fun h => absurd h hne.2, fun h => by omega⟩
  · have hne := cellByte_ne stray hlow (k / 65 * 16 + (k % 65 - 48)) .char
    exact ⟨hne.1, fun h => absurd h hne.2, fun h => by omega⟩
  · exact ⟨by decide, fun _ => by omega, fun _ => rfl⟩

/-- The text of a dump. -/
theorem text_dump (hlow : ∀ b ∈ input, b < 128) :
    text (dumpTo stray input n ++ 0 :: out) = dumpTo stray input n := by
  refine text_append fun hmem => ?_
  obtain ⟨k, -, hk⟩ := List.mem_map.mp hmem
  exact (dumpByte_ne hlow k).1 hk

/-! ## Messages of any length -/

theorem mem_lookupsTo {i : ℤ} :
    i ∈ lookupsTo input n ↔ ∃ k < n, i ∈ cellLookups input[k]? := by
  simp [lookupsTo]

/-- The `int` has no more rows than the message. -/
theorem numRows_le (n : ℕ) : numRows n ≤ rows n := by
  have hsize : n + width - 1 = n + 15 := rfl
  have hwidth : width = 16 := rfl
  have hmod := Nat.mod_le (n + 15) (2 ^ 64)
  have hpow : (2 ^ 32 : ℕ) = 4294967296 := rfl
  have hbmod : ∀ x : ℕ, (x : ℤ).bmod 4294967296 ≤ x := by
    intro x
    unfold Int.bmod
    dsimp only
    split_ifs <;> omega
  unfold numRows rows
  rw [hsize, hwidth, hpow]
  have hle := hbmod ((n + 15) % 2 ^ 64 / 16)
  have hdiv := Nat.div_le_div_right (c := 16) hmod
  omega

/-- **What a dump is to be**: the table is looked up where it has a digit,
the cells read back as the message, and the column has its characters. -/
structure Decodes (input : List UInt8) (d : Dump) : Prop where
  returned : d.returned = true
  lookups : ∀ i ∈ d.lookups, 0 ≤ i ∧ i < 16
  bytes : decode (text d.out) = input
  chars : ∀ k b, input[k]? = some b →
    readChar (text d.out) k = some (if isprint b.toNat then b else dot)

/-- The dump of a message of low bytes. -/
theorem decodes_of_low (hlow : ∀ b ∈ input, b < 128) (hlen : input.length ≤ 2 ^ 31)
    (hfits : 65 * rows input.length < out.length) :
    ∃ d, hexdump stray input out = .ok d ∧ Decodes input d := by
  have hrows : rows input.length = (input.length + 15) / 16 := rfl
  refine ⟨_, hexdump_fits _ (numRows_eq hlen) (by omega) hfits, rfl, fun i hi => ?_, ?_, ?_⟩
  · obtain ⟨k, -, hi⟩ := mem_lookupsTo.mp hi
    cases hcell : input[k]? with
    | none =>
      rw [hcell] at hi
      cases hi
    | some b =>
      rw [hcell] at hi
      exact (lookups_in_table_iff b).mpr (hlow b (List.mem_of_getElem? hcell)) i hi
  · rw [text_dump hlow]
    exact decode_dumpTo hlow (by omega)
  · intro k b hb
    have hk : k < input.length := (List.getElem?_eq_some_iff.mp hb).1
    rw [text_dump hlow]
    exact readChar_dumpTo hlow (by omega) hb

/-- Where the `int` is negative there is no row, and a buffer of NULs
stays one. -/
theorem text_of_negative {d : Dump} {m : ℕ} (hneg : numRows input.length < 0)
    (hd : hexdump stray input (List.replicate m 0) = .ok d) : text d.out = [] := by
  have hnone : (numRows input.length).toNat = 0 := Int.toNat_of_nonpos (Int.le_of_lt hneg)
  rw [hexdump, hnone] at hd
  obtain ⟨⟨fit, out, w⟩, hloop, hd⟩ := bind_eq_ok.mp hd
  cases hloop
  obtain ⟨out, hout, hd⟩ := bind_eq_ok.mp hd
  cases hd
  unfold store at hout
  split_ifs at hout
  obtain rfl := Except.ok.inj hout
  refine List.eq_nil_iff_forall_not_mem.mpr fun c hc => ?_
  have hmem : c ∈ _ := (List.takeWhile_prefix _).subset hc
  have hzero : c = 0 := by
    rcases List.mem_append.mp hmem with hmem | hmem
    · rcases List.mem_append.mp hmem with hmem | hmem
      · exact (List.mem_replicate.mp (List.mem_of_mem_take hmem)).2
      · exact List.mem_singleton.mp hmem
    · exact (List.mem_replicate.mp (List.mem_of_mem_drop hmem)).2
  exact zero_notMem_text (hzero ▸ hc)

/-- What reads back has been counted. -/
theorem length_le_of_decodes {outLen : ℕ} (hfits : 65 * rows input.length < outLen)
    (h : ∃ d, hexdump stray input (List.replicate outLen 0) = .ok d ∧ Decodes input d) :
    input.length ≤ 2 ^ 31 := by
  obtain ⟨d, hd, hdecodes⟩ := h
  have hbytes := congrArg List.length hdecodes.bytes
  have hle := numRows_le input.length
  rcases Int.lt_or_le (numRows input.length) 0 with hneg | hpos
  · rw [text_of_negative hneg hd] at hbytes
    have hempty : input.length = 0 := hbytes.symm
    omega
  · obtain ⟨m, hm⟩ := Int.eq_ofNat_of_zero_le hpos
    have hfits' : 65 * m < (List.replicate outLen (0 : UInt8)).length := by
      rw [List.length_replicate]
      omega
    rcases Nat.lt_or_ge (2 ^ 27) m with hmany | hfew
    · rw [hexdump_overflow _ hm hmany hfits'] at hd
      cases hd
    · rw [hexdump_fits _ hm hfew hfits'] at hd
      cases hd
      have hnul : (dumpTo stray input (65 * m) ++ 0 ::
          (List.replicate outLen (0 : UInt8)).drop (65 * m + 1))[65 * m]? = some 0 := by
        rw [List.getElem?_append_right (by simp)]
        simp
      have hread := length_decode_le (n := m) (length_text_le_of_nul hnul)
      rw [hbytes] at hread
      omega

/-- **A dump reads back** exactly where all bytes are below 128 and an
`int` can count them. -/
theorem decodes_iff (stray : ℤ → UInt8) (input : List UInt8) (outLen : ℕ)
    (hfits : 65 * rows input.length < outLen) :
    (∀ out, out.length = outLen → ∃ d, hexdump stray input out = .ok d ∧ Decodes input d) ↔
      (∀ b ∈ input, b < 128) ∧ input.length ≤ 2 ^ 31 := by
  constructor
  · intro h
    have hzeros := h _ (List.length_replicate (a := (0 : UInt8)))
    have hlen := length_le_of_decodes hfits hzeros
    have hrows : rows input.length = (input.length + 15) / 16 := rfl
    obtain ⟨d, hd, hdecodes⟩ := hzeros
    rw [hexdump_fits _ (numRows_eq hlen) (by omega) (by simpa using hfits)] at hd
    cases hd
    refine ⟨fun b hb => (lookups_in_table_iff b).mp fun i hi => ?_, hlen⟩
    obtain ⟨k, hk, hcell⟩ := List.mem_iff_getElem.mp hb
    refine hdecodes.lookups i (mem_lookupsTo.mpr ⟨k, by omega, ?_⟩)
    rw [List.getElem?_eq_getElem hk, hcell]
    exact hi
  · rintro ⟨hlow, hlen⟩ out rfl
    exact decodes_of_low hlow hlen hfits

/-- A message of 26 bytes, which takes two rows. -/
def alphabet : List UInt8 := "abcdefghijklmnopqrstuvwxyz".toList.map Char.toUInt8

theorem alphabet_low : ∀ b ∈ alphabet, b < 128 := by decide +kernel

theorem decodes_iff_alphabet : ∃ d,
    hexdump (fun _ => 0) alphabet (List.replicate 131 0) = .ok d ∧ Decodes alphabet d := by
  have hlen : alphabet.length = 26 := by decide
  exact (decodes_iff (fun _ => 0) alphabet 131 (by decide)).mpr
    ⟨alphabet_low, by omega⟩ (List.replicate 131 0) List.length_replicate

/-- The byte 128 looks up the index -8. -/
theorem high_byte_looked_up :
    ¬ ∃ d, hexdump (fun _ => 48) [128] (List.replicate 66 0) = .ok d ∧ Decodes [128] d := by
  rintro ⟨d, hd, hdecodes⟩
  have hlookups : d.lookups = [-8, 0] := by
    cases hd
    decide
  have hbefore := (hdecodes.lookups (-8) (hlookups ▸ List.mem_cons_self)).1
  omega

/-! ## The string that is returned -/

/-- The buffer has the rows of a message as a string, with the newlines
at their ends. -/
structure IsRows (input : List UInt8) (d : Dump) : Prop where
  terminated : Terminated d.out
  length : (text d.out).length = 65 * rows input.length
  newlines : ∀ k < 65 * rows input.length, (text d.out)[k]? = some newline ↔ k % 65 = 64

/-- **What `hexdump` is to return**, without a write past the buffer. -/
def Formed (stray : ℤ → UInt8) (input out : List UInt8) : Prop :=
  ∃ d, hexdump stray input out = .ok d ∧
    (d.returned = true ↔ 65 * rows input.length < out.length ∨ input = []) ∧
    (d.returned = true → IsRows input d)

/-- **The buffer is kept**, and the dump is returned where it fits,
whatever the bytes are. -/
theorem returned_iff (stray : ℤ → UInt8) (hin : input.length ≤ 2 ^ 31) (hout : 0 < out.length) :
    ∃ d, hexdump stray input out = .ok d ∧
      (d.returned = true ↔ 65 * rows input.length < out.length) := by
  have hrows : rows input.length = (input.length + 15) / 16 := rfl
  rcases Nat.lt_or_ge (65 * rows input.length) out.length with hfits | hfull
  · exact ⟨_, hexdump_fits _ (numRows_eq hin) (by omega) hfits, fun _ => hfits, fun _ => rfl⟩
  · obtain ⟨d, hd, hnull, -⟩ := hexdump_full stray (numRows_eq hin) (by omega) hout hfull
    refine ⟨d, hd, ?_⟩
    rw [hnull]
    exact ⟨nofun, fun h => by omega⟩

/-- A message that does not fit. -/
theorem formed_full (hin : input.length ≤ 2 ^ 31) (hout : 0 < out.length)
    (hfull : out.length ≤ 65 * rows input.length) : Formed stray input out := by
  obtain ⟨d, hd, hreturned⟩ := returned_iff stray hin hout
  have hnull : ¬ d.returned = true := fun h => by
    have hfits := hreturned.mp h
    omega
  refine ⟨d, hd, ⟨fun h => absurd h hnull, fun h => ?_⟩, fun h => absurd h hnull⟩
  rcases h with hfits | rfl
  · omega
  · -- no bytes take no row
    exact absurd hfull (Nat.not_le.mpr hout)

/-- A message of low bytes. -/
theorem formed_of_low (hlow : ∀ b ∈ input, b < 128) (hin : input.length ≤ 2 ^ 31)
    (hfits : 65 * rows input.length < out.length) : Formed stray input out := by
  have hrows : rows input.length = (input.length + 15) / 16 := rfl
  refine ⟨_, hexdump_fits _ (numRows_eq hin) (by omega) hfits, ?_, fun _ => ⟨?_, ?_, ?_⟩⟩
  · exact ⟨fun _ => .inl hfits, fun _ => rfl⟩
  · exact terminated_append
  · rw [text_dump hlow, length_dumpTo]
  · intro k hk
    rw [text_dump hlow, dumpTo_getElem? _ _ hk, Option.some.injEq]
    exact (dumpByte_ne hlow k).2

/-- Where NULs stand around the table, a high byte ends the string. -/
theorem nul_of_high (hb : input[k]? = some b) (hhigh : ¬ b < 128) :
    ∃ i < 65 * rows input.length, dumpByte (fun _ => 0) input i = 0 := by
  have hk : k < input.length := (List.getElem?_eq_some_iff.mp hb).1
  have hrows : rows input.length = (input.length + 15) / 16 := rfl
  have hstray : ∀ i : ℤ, i < 0 → chrAt (fun _ => 0) i = 0 := fun i hi =>
    if_neg (by omega)
  rcases lookup_high hhigh with hneg | hneg
  · refine ⟨k / 16 * 65 + k % 16 * 3 + 0, by omega, ?_⟩
    rw [dumpByte_digit _ _ k (by decide), hb]
    exact hstray _ hneg
  · refine ⟨k / 16 * 65 + k % 16 * 3 + 1, by omega, ?_⟩
    rw [dumpByte_digit _ _ k (by decide), hb]
    exact hstray _ hneg

/-- **A dump is a string of rows**, whatever stands around the table,
exactly where all bytes are below 128 or it does not fit; it never writes
past the buffer. -/
theorem dump_is_rows_iff (input out : List UInt8) (hin : input.length + 15 < 2 ^ 31)
    (hout : 1 ≤ out.length) :
    (∀ stray, Formed stray input out) ↔
      (∀ b ∈ input, b < 128) ∨ out.length ≤ 65 * rows input.length := by
  have hlen : input.length ≤ 2 ^ 31 := by omega
  have hrows : rows input.length = (input.length + 15) / 16 := rfl
  constructor
  · intro h
    by_contra hnot
    obtain ⟨hsome, hfits⟩ := not_or.mp hnot
    obtain ⟨b, hnot⟩ := not_forall.mp hsome
    obtain ⟨hmem, hhigh⟩ := Classical.not_imp.mp hnot
    obtain ⟨k, hk⟩ := List.mem_iff_getElem?.mp hmem
    obtain ⟨i, hi, hnul⟩ := nul_of_high hk hhigh
    obtain ⟨d, hd, hreturned, hrowsOf⟩ := h fun _ => 0
    rw [hexdump_fits _ (numRows_eq hlen) (by omega) (by omega)] at hd
    cases hd
    -- the string is cut off at the NUL
    have hcut : 65 * rows input.length ≤ i := by
      rw [← (hrowsOf rfl).length]
      refine length_text_le_of_nul ?_
      rw [List.getElem?_append_left (by simpa using hi), dumpTo_getElem? _ _ hi, hnul]
    omega
  · rintro (hlow | hfull) stray
    · rcases Nat.lt_or_ge (65 * rows input.length) out.length with hfits | hfull
      · exact formed_of_low hlow hlen hfits
      · exact formed_full hlen hout hfull
    · exact formed_full hlen hout hfull

/-- A message of two rows, in buffers of which only one has room for the
NUL. -/
theorem dump_is_rows_iff_alphabet :
    (∀ stray, Formed stray alphabet (List.replicate 131 0)) ∧
      ∀ stray, Formed stray alphabet (List.replicate 130 0) := by
  have hlen : alphabet.length = 26 := by decide
  have hin : alphabet.length + 15 < 2 ^ 31 := by omega
  have hfull : (List.replicate 130 (0 : UInt8)).length ≤ 65 * rows alphabet.length := by
    rw [List.length_replicate, hlen]
    decide
  exact ⟨(dump_is_rows_iff alphabet (List.replicate 131 0) hin (by simp)).mpr (.inl alphabet_low),
    (dump_is_rows_iff alphabet (List.replicate 130 0) hin (by simp)).mpr (.inr hfull)⟩

/-- A NUL before the table is the first digit of the byte 128. -/
theorem high_byte_ends_string : ¬ Formed (fun _ => 0) [128] (List.replicate 66 0) := by
  rintro ⟨d, hd, -, hrowsOf⟩
  cases hd
  have hlength := (hrowsOf rfl).length
  revert hlength
  decide

end Hexdump

end Rushit
