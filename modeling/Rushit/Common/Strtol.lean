import Mathlib.Data.Int.Notation
import Mathlib.Data.Nat.Notation
import Rushit.Common.CString
/-!
# Numbers in strings

`strtol` with base 10: blanks, a sign, digits, and the end of what was
read. A pointer is what is left of the string and its NUL in memory, and
a read of nothing is one past the NUL. A call stays within the string,
and where it reads a number it moves on (`strtol_within`); it reads back
what is printed in decimal (`strtol_decimal`).
-/

namespace Rushit

namespace CString

/-- The rest of a string, and its NUL. -/
inductive Within {C : Type*} [Zero C] : List C → Prop
  | nul : Within [0]
  | cons {c : C} {p : List C} : c ≠ 0 → Within p → Within (c :: p)

theorem CStr.within {C : Type*} [Zero C] (s : CStr C) : Within s.inMemory := by
  obtain ⟨chars, hchars⟩ := s
  unfold CStr.inMemory
  induction chars with
  | nil => exact .nul
  | cons c chars ih =>
    have hc : c ≠ 0 := fun h => hchars (h ▸ List.mem_cons_self)
    exact .cons hc (ih fun h => hchars (List.mem_cons_of_mem _ h))

/-- `isspace` in the C locale. -/
def isspace (c : UInt8) : Bool := decide (9 ≤ c.toNat ∧ c.toNat ≤ 13 ∨ c.toNat = 32)

def isdigit (c : UInt8) : Bool := decide (48 ≤ c.toNat ∧ c.toNat ≤ 57)

/-- `ERANGE` -/
def erange : ℤ := 34

def longMax : ℤ := 9223372036854775807

def longMin : ℤ := -9223372036854775808

/-- The pointer to what follows the blanks. -/
def skipSpace : List UInt8 → Option (List UInt8)
  | [] => none
  | c :: p => if isspace c then skipSpace p else some (c :: p)

/-- Whether there is a minus, and the pointer to what follows the sign. -/
def skipSign : List UInt8 → Option (Bool × List UInt8)
  | [] => none
  | c :: p =>
    if c = '-'.toUInt8 then some (true, p)
    else if c = '+'.toUInt8 then some (false, p)
    else some (false, c :: p)

/-- The number that `n` and the digits are, and the pointer to what
follows them. -/
def readDigits (n : ℕ) : List UInt8 → Option (ℕ × List UInt8)
  | [] => none
  | c :: p => if isdigit c then readDigits (10 * n + (c.toNat - 48)) p else some (n, c :: p)

/-- What `strtol` returns, with `errno` and `endptr`. -/
structure Number where
  val : ℤ
  errno : ℤ
  endptr : List UInt8
  deriving DecidableEq

/-- A number as a `long`: the nearest there is. -/
def toLong (n : ℤ) (endptr : List UInt8) : Number :=
  if longMax < n then ⟨longMax, erange, endptr⟩
  else if n < longMin then ⟨longMin, erange, endptr⟩
  else ⟨n, 0, endptr⟩

/-- What follows the blanks and the sign of `arg`, as a number. -/
def convert (arg : List UInt8) (minus : Bool) : List UInt8 → Option Number
  | [] => none
  | c :: p =>
    if isdigit c then
      (readDigits 0 (c :: p)).map fun (n, endptr) => toLong (if minus then -n else n) endptr
    -- there is no number
    else some ⟨0, 0, arg⟩

/-- `strtol` with base 10 -/
def strtol (arg : List UInt8) : Option Number :=
  (skipSpace arg).bind fun p => (skipSign p).bind fun (minus, p) => convert arg minus p

variable {p q : List UInt8} {c : UInt8} {n : ℕ}

theorem zero_not_isdigit : isdigit 0 = false := by decide

/-! ## What is read -/

theorem skipSpace_within (h : Within p) :
    ∃ q, skipSpace p = some q ∧ Within q ∧ q.length ≤ p.length := by
  induction h with
  | nul => exact ⟨[0], rfl, .nul, le_rfl⟩
  | @cons c p hc hp ih =>
    obtain ⟨q, hq, hwithin, hle⟩ := ih
    unfold skipSpace
    split_ifs
    · exact ⟨q, hq, hwithin, Nat.le_succ_of_le hle⟩
    · exact ⟨c :: p, rfl, .cons hc hp, le_rfl⟩

theorem skipSign_within (h : Within p) :
    ∃ minus q, skipSign p = some (minus, q) ∧ Within q ∧ q.length ≤ p.length := by
  cases h with
  | nul => exact ⟨false, [0], rfl, .nul, le_rfl⟩
  | @cons c p hc hp =>
    unfold skipSign
    dsimp only
    split_ifs
    · exact ⟨true, p, rfl, hp, Nat.le_succ _⟩
    · exact ⟨false, p, rfl, hp, Nat.le_succ _⟩
    · exact ⟨false, c :: p, rfl, .cons hc hp, le_rfl⟩

theorem readDigits_within (h : Within p) (n : ℕ) :
    ∃ m q, readDigits n p = some (m, q) ∧ Within q ∧ q.length ≤ p.length := by
  induction h generalizing n with
  | nul => exact ⟨n, [0], rfl, .nul, le_rfl⟩
  | @cons c p hc hp ih =>
    obtain ⟨m, q, hq, hwithin, hle⟩ := ih (10 * n + (c.toNat - 48))
    unfold readDigits
    split_ifs
    · exact ⟨m, q, hq, hwithin, Nat.le_succ_of_le hle⟩
    · exact ⟨n, c :: p, rfl, .cons hc hp, le_rfl⟩

theorem toLong_endptr (n : ℤ) (p : List UInt8) : (toLong n p).endptr = p := by
  unfold toLong
  split_ifs <;> rfl

theorem convert_within (hp : Within p) (hq : Within q) (hle : q.length ≤ p.length) (minus : Bool) :
    ∃ r, convert p minus q = some r ∧ Within r.endptr ∧
      (r.endptr = p ∨ r.endptr.length < p.length) := by
  cases hq with
  | nul => exact ⟨⟨0, 0, p⟩, rfl, hp, .inl rfl⟩
  | @cons c q hc hq =>
    unfold convert
    dsimp only
    by_cases hdigit : isdigit c = true
    · -- at least one digit is read
      obtain ⟨m, q', hq', hwithin, hle'⟩ := readDigits_within hq (10 * 0 + (c.toNat - 48))
      have hread : readDigits 0 (c :: q) = some (m, q') := by
        rw [readDigits, if_pos hdigit]
        exact hq'
      have hlt : q'.length < p.length := by
        rw [List.length_cons] at hle
        omega
      rw [if_pos hdigit, hread]
      refine ⟨_, rfl, ?_⟩
      rw [toLong_endptr]
      exact ⟨hwithin, .inr hlt⟩
    · exact ⟨⟨0, 0, p⟩, if_neg hdigit, hp, .inl rfl⟩

/-- **A call stays within the string**, and moves on where it reads a
number. -/
theorem strtol_within (h : Within p) :
    ∃ r, strtol p = some r ∧ Within r.endptr ∧ (r.endptr = p ∨ r.endptr.length < p.length) := by
  obtain ⟨p₁, hspace, h₁, hle₁⟩ := skipSpace_within h
  obtain ⟨minus, p₂, hsign, h₂, hle₂⟩ := skipSign_within h₁
  unfold strtol
  rw [hspace, Option.bind_some, hsign, Option.bind_some]
  exact convert_within h h₂ (hle₂.trans hle₁) minus

/-! ## What is printed -/

/-- What `%d` prints of a number. -/
def decimal (n : ℕ) : List UInt8 := (Nat.toDigits 10 n).map Char.toUInt8

theorem toNat_toUInt8 {d : Char} (hd : d.isDigit) :
    d.toUInt8.toNat = d.toNat ∧ 48 ≤ d.toNat ∧ d.toNat ≤ 57 := by
  obtain ⟨hge, hle⟩ := Char.isDigit_iff_toNat.mp hd
  have hnine : '9'.toNat = 57 := rfl
  refine ⟨?_, hge, hle⟩
  have hlt : d.toNat < 256 := by omega
  exact Nat.mod_eq_of_lt hlt

theorem readDigits_append (ds : List Char) (hds : ∀ d ∈ ds, d.isDigit) (hc : isdigit c = false)
    (n : ℕ) : readDigits n (ds.map Char.toUInt8 ++ c :: q) =
      some (Nat.ofDigitChars 10 ds n, c :: q) := by
  induction ds generalizing n with
  | nil => simp [readDigits, hc]
  | cons d ds ih =>
    obtain ⟨hval, hge, hle⟩ := toNat_toUInt8 (hds d List.mem_cons_self)
    have hdigit : isdigit d.toUInt8 = true := by
      simp only [isdigit, hval, decide_eq_true_eq]
      exact ⟨hge, hle⟩
    have hzero : '0'.toNat = 48 := rfl
    rw [List.map_cons, List.cons_append, readDigits, if_pos hdigit,
      ih (fun d' hd' => hds d' (List.mem_cons_of_mem _ hd')), Nat.ofDigitChars_cons, hval, hzero]

theorem isdigit_of_mem_decimal (h : c ∈ decimal n) : isdigit c = true := by
  unfold decimal at h
  obtain ⟨d, hd, rfl⟩ := List.mem_map.mp h
  obtain ⟨hval, hge, hle⟩ := toNat_toUInt8 (Nat.isDigit_of_mem_toDigits (by decide) (by decide) hd)
  simp only [isdigit, hval, decide_eq_true_eq]
  exact ⟨hge, hle⟩

/-- A number begins with a digit, which is no blank and no sign. -/
theorem decimal_eq_cons (n : ℕ) : ∃ d ds, decimal n = d :: ds ∧ isdigit d = true := by
  cases hfirst : decimal n with
  | nil => exact absurd (List.map_eq_nil_iff.mp hfirst) Nat.toDigits_ne_nil
  | cons d ds => exact ⟨d, ds, rfl, isdigit_of_mem_decimal (hfirst ▸ List.mem_cons_self)⟩

theorem not_isspace_of_isdigit (h : isdigit c = true) : isspace c = false := by
  simp only [isdigit, decide_eq_true_eq] at h
  simp only [isspace, decide_eq_false_iff_not]
  omega

theorem skipSign_of_isdigit (h : isdigit c = true) : skipSign (c :: p) = some (false, c :: p) := by
  have hminus : c ≠ '-'.toUInt8 := fun heq => by
    rw [heq] at h
    exact absurd h (by decide)
  have hplus : c ≠ '+'.toUInt8 := fun heq => by
    rw [heq] at h
    exact absurd h (by decide)
  rw [skipSign, if_neg hminus, if_neg hplus]

theorem skipSpace_append (h : ∀ b ∈ p, isspace b = true) (hc : isspace c = false) :
    skipSpace (p ++ c :: q) = some (c :: q) := by
  induction p with
  | nil => simp [skipSpace, hc]
  | cons b p ih =>
    rw [List.cons_append, skipSpace, if_pos (h b List.mem_cons_self)]
    exact ih fun b' hb' => h b' (List.mem_cons_of_mem _ hb')

/-- **The digits that are printed read back.** -/
theorem convert_decimal (hc : isdigit c = false) (arg : List UInt8) (minus : Bool) :
    convert arg minus (decimal n ++ c :: q) =
      some (toLong (if minus then -(n : ℤ) else n) (c :: q)) := by
  have hread : readDigits 0 (decimal n ++ c :: q) = some (n, c :: q) := by
    have hdigits : ∀ d ∈ Nat.toDigits 10 n, d.isDigit := fun d hd =>
      Nat.isDigit_of_mem_toDigits (by decide) (by decide) hd
    have h := readDigits_append (q := q) (Nat.toDigits 10 n) hdigits hc 0
    rwa [Nat.ofDigitChars_ten_toDigits] at h
  obtain ⟨d, ds, hd, hdigit⟩ := decimal_eq_cons n
  rw [hd, List.cons_append] at hread ⊢
  rw [convert, if_pos hdigit, hread]
  rfl

theorem toLong_of_le {v : ℤ} (hmin : longMin ≤ v) (hmax : v ≤ longMax) (p : List UInt8) :
    toLong v p = ⟨v, 0, p⟩ := by
  rw [toLong, if_neg (by omega), if_neg (by omega)]

/-- What `%d` prints of a number with a sign. -/
def decimalInt (v : ℤ) : List UInt8 :=
  if v < 0 then '-'.toUInt8 :: decimal v.natAbs else decimal v.natAbs

/-- A printed number is made of digits, after its sign. -/
theorem notMem_decimalInt (hc : isdigit c = false) (hsign : c ≠ '-'.toUInt8) (v : ℤ) :
    c ∉ decimalInt v := by
  have hdigits : c ∉ decimal v.natAbs := fun h => by
    rw [isdigit_of_mem_decimal h] at hc
    cases hc
  unfold decimalInt
  split_ifs
  · simp only [List.mem_cons, not_or]
    exact ⟨hsign, hdigits⟩
  · exact hdigits

theorem decimalInt_ne_nil (v : ℤ) : decimalInt v ≠ [] := by
  obtain ⟨d, ds, hd, -⟩ := decimal_eq_cons v.natAbs
  unfold decimalInt
  split_ifs
  · exact List.cons_ne_nil _ _
  · rw [hd]
    exact List.cons_ne_nil _ _

/-- **What is printed reads back**, after blanks too. -/
theorem strtol_decimalInt {v : ℤ} (hp : ∀ b ∈ p, isspace b = true) (hmin : longMin ≤ v)
    (hmax : v ≤ longMax) (hc : isdigit c = false) :
    strtol (p ++ (decimalInt v ++ c :: q)) = some ⟨v, 0, c :: q⟩ := by
  have hconvert := convert_decimal (n := v.natAbs) (q := q) hc (p ++ (decimalInt v ++ c :: q))
  unfold decimalInt at hconvert ⊢
  by_cases hneg : v < 0
  · rw [if_pos hneg, List.cons_append] at hconvert ⊢
    have hval : -(v.natAbs : ℤ) = v := by omega
    rw [strtol, skipSpace_append hp (by decide), Option.bind_some, skipSign, if_pos rfl,
      Option.bind_some]
    dsimp only
    rw [hconvert, if_pos rfl, hval, toLong_of_le hmin hmax]
  · rw [if_neg hneg] at hconvert ⊢
    have hval : (v.natAbs : ℤ) = v := by omega
    obtain ⟨d, ds, hd, hdigit⟩ := decimal_eq_cons v.natAbs
    rw [hd, List.cons_append] at hconvert ⊢
    rw [strtol, skipSpace_append hp (not_isspace_of_isdigit hdigit), Option.bind_some,
      skipSign_of_isdigit hdigit, Option.bind_some]
    dsimp only
    rw [hconvert, if_neg Bool.false_ne_true, hval, toLong_of_le hmin hmax]

/-- **A number without a sign.** -/
theorem strtol_decimal (hn : (n : ℤ) ≤ longMax) (hc : isdigit c = false) :
    strtol (decimal n ++ c :: q) = some ⟨n, 0, c :: q⟩ := by
  have h := strtol_decimalInt (p := []) (q := q) (v := n) (by simp) (by unfold longMin; omega) hn hc
  rwa [List.nil_append, decimalInt, if_neg (by omega), Int.natAbs_natCast] at h

end CString

end Rushit
