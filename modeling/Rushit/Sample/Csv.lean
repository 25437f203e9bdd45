import Rushit.Percentiles.RoundTrip
import Rushit.Sample.Model
/-!
# The file of the samples

`print_samples` writes a line of names and a line for each sample. Read
back, at newlines and commas, the file is a table: every row has the
fields that the names say, in their order, also with the percentiles that
were chosen, no two columns have one name, and the times in it are the
times of the sample to the last digit.

The floating point of `numlist.c` is left out: what `%f` prints of a mean
or a percentile is a parameter.
-/

namespace Rushit

namespace Csv

open CString
open Percentiles (Chosen comma chosenOf)

/-- `struct timeval` -/
structure Timeval where
  sec : ℤ
  usec : ℕ
  usec_lt : usec < 10 ^ 6

def Timeval.seconds (a : Timeval) : ℚ := a.sec + a.usec / 10 ^ 6

/-- `struct rusage`, of what is printed. -/
structure Rusage where
  utime : Timeval
  stime : Timeval
  maxrss : ℤ
  minflt : ℤ
  majflt : ℤ
  nvcsw : ℤ
  nivcsw : ℤ

/-- `struct sample`, with its `rusage`. -/
structure Record extends Sample where
  rusage : Rusage

/-- The calls into `numlist.c`. -/
inductive Statistic
  | min
  | mean
  | max
  | stddev
  | percentile (i : Fin 101)
  deriving DecidableEq

/-- A string of the source. -/
def literal (s : String) : List UInt8 := s.toList.map Char.toUInt8

def newline : UInt8 := '\n'.toUInt8

/-- `%0wd`, of what is not negative. -/
def padded (w n : ℕ) : List UInt8 :=
  List.replicate (w - (decimal n).length) '0'.toUInt8 ++ decimal n

/-- `%ld.%0wld` -/
def fixed (sec : ℤ) (w n : ℕ) : List UInt8 := decimalInt sec ++ literal "." ++ padded w n

section Print

variable (fmt : Statistic → Numlist ℚ → List UInt8) (percentiles : Option Chosen)

/-- The loop over the percentiles, which prints for those that are chosen. -/
def forChosen (print : Fin 101 → List UInt8) : List UInt8 :=
  match percentiles with
  | some chosen => (List.finRange 101).flatMap fun i => if chosen i then print i else []
  | none => []

/-- `print_sample`, without a sample. -/
def printHeader : List UInt8 :=
  literal "time,tid,flow_id,bytes_read,transactions" ++
  literal ",latency_min,latency_mean,latency_max" ++
  literal ",latency_stddev" ++
  forChosen percentiles (fun i => literal ",latency_p" ++ decimal i) ++
  literal ",utime,stime,maxrss,minflt,majflt,nvcsw,nivcsw" ++
  literal "\n"

/-- `print_sample` -/
def printSample (s : Record) : List UInt8 :=
  fixed s.timestamp.sec 9 s.timestamp.nsec ++ literal "," ++ decimalInt s.tid ++
  literal "," ++ decimal s.flowId ++ literal "," ++ decimalInt s.bytesRead ++
  literal "," ++ decimal s.transactions ++
  literal "," ++ fmt .min s.latency ++ literal "," ++ fmt .mean s.latency ++
  literal "," ++ fmt .max s.latency ++ literal "," ++ fmt .stddev s.latency ++
  forChosen percentiles (fun i => literal "," ++ fmt (.percentile i) s.latency) ++
  literal "," ++ fixed s.rusage.utime.sec 6 s.rusage.utime.usec ++
  literal "," ++ fixed s.rusage.stime.sec 6 s.rusage.stime.usec ++
  literal "," ++ decimalInt s.rusage.maxrss ++ literal "," ++ decimalInt s.rusage.minflt ++
  literal "," ++ decimalInt s.rusage.majflt ++ literal "," ++ decimalInt s.rusage.nvcsw ++
  literal "," ++ decimalInt s.rusage.nivcsw ++ literal "\n"

/-- `print_samples`: what is in the file that it opens. -/
def printSamples (samples : List Record) : List UInt8 :=
  printHeader percentiles ++ samples.flatMap (printSample fmt percentiles)

end Print

/-! ## The table -/

inductive Column
  | time
  | tid
  | flowId
  | bytesRead
  | transactions
  | latency (st : Statistic)
  | utime
  | stime
  | maxrss
  | minflt
  | majflt
  | nvcsw
  | nivcsw
  deriving DecidableEq

def Statistic.name : Statistic → List UInt8
  | .min => literal "latency_min"
  | .mean => literal "latency_mean"
  | .max => literal "latency_max"
  | .stddev => literal "latency_stddev"
  | .percentile i => literal "latency_p" ++ decimal i

namespace Column

def name : Column → List UInt8
  | time => literal "time"
  | tid => literal "tid"
  | flowId => literal "flow_id"
  | bytesRead => literal "bytes_read"
  | transactions => literal "transactions"
  | latency st => st.name
  | utime => literal "utime"
  | stime => literal "stime"
  | maxrss => literal "maxrss"
  | minflt => literal "minflt"
  | majflt => literal "majflt"
  | nvcsw => literal "nvcsw"
  | nivcsw => literal "nivcsw"

/-- What a row has in a column. -/
def field (fmt : Statistic → Numlist ℚ → List UInt8) (s : Record) : Column → List UInt8
  | time => fixed s.timestamp.sec 9 s.timestamp.nsec
  | tid => decimalInt s.tid
  | flowId => decimal s.flowId
  | bytesRead => decimalInt s.bytesRead
  | transactions => decimal s.transactions
  | latency st => fmt st s.latency
  | utime => fixed s.rusage.utime.sec 6 s.rusage.utime.usec
  | stime => fixed s.rusage.stime.sec 6 s.rusage.stime.usec
  | maxrss => decimalInt s.rusage.maxrss
  | minflt => decimalInt s.rusage.minflt
  | majflt => decimalInt s.rusage.majflt
  | nvcsw => decimalInt s.rusage.nvcsw
  | nivcsw => decimalInt s.rusage.nivcsw

/-- The columns before the percentiles. -/
def before : List Column :=
  [time, tid, flowId, bytesRead, transactions, latency .min, latency .mean, latency .max,
    latency .stddev]

/-- The columns after them. -/
def after : List Column := [utime, stime, maxrss, minflt, majflt, nvcsw, nivcsw]

/-- The columns of a file. -/
def all (percentiles : Option Chosen) : List Column :=
  before ++ (percentiles.elim [] chosenOf).map (fun i => latency (.percentile i)) ++ after

end Column

/-- A file as a table: every line ends with a newline, and its fields are
separated by commas. -/
def readTable (t : List UInt8) : List (List (List UInt8)) :=
  (t.splitOn newline).dropLast.map fun line => line.splitOn comma

/-- A number with decimals. -/
def readFixed (t : List UInt8) : Option ℚ :=
  match readDigits 0 (t ++ [0]) with
  | some (n, c :: rest) =>
    if c = '.'.toUInt8 then
      (readDigits 0 rest).map fun r => n + r.1 / 10 ^ (rest.length - 1)
    else none
  | _ => none

variable {fmt : Statistic → Numlist ℚ → List UInt8} {percentiles : Option Chosen}

/-! ## A line -/

/-- Fields with a comma before each. -/
theorem intercalate_comma (x : List UInt8) (xs : List (List UInt8)) :
    [comma].intercalate (x :: xs) = x ++ xs.flatMap fun y => comma :: y := by
  induction xs generalizing x with
  | nil => simp
  | cons y xs ih => rw [List.intercalate_cons_cons, ih, List.flatMap_cons]; simp

theorem forChosen_eq (print : Fin 101 → List UInt8) :
    forChosen percentiles print = (percentiles.elim [] chosenOf).flatMap print := by
  cases percentiles with
  | none => rfl
  | some chosen =>
    simp only [forChosen, Option.elim_some, chosenOf]
    induction List.finRange 101 with
    | nil => rfl
    | cons i is ih =>
      rw [List.flatMap_cons, List.filter_cons, ih]
      cases chosen i <;> simp

/-- What is written for the columns, whatever is written for each. -/
theorem intercalate_all (f : Column → List UInt8) :
    [comma].intercalate ((Column.all percentiles).map f) =
      f .time ++ Column.before.tail.flatMap (fun c => comma :: f c) ++
      (percentiles.elim [] chosenOf).flatMap (fun i => comma :: f (.latency (.percentile i))) ++
      Column.after.flatMap fun c => comma :: f c := by
  have hall : Column.all percentiles = .time :: (Column.before.tail ++
      ((percentiles.elim [] chosenOf).map (fun i => .latency (.percentile i)) ++
        Column.after)) := by
    simp [Column.all, Column.before]
  rw [hall, List.map_cons, intercalate_comma, List.flatMap_map, List.flatMap_append,
    List.flatMap_append, List.flatMap_map]
  simp

/-- **The first line** has the names. -/
theorem printHeader_eq : printHeader percentiles =
    [comma].intercalate ((Column.all percentiles).map Column.name) ++ [newline] := by
  have hbefore : literal "time,tid,flow_id,bytes_read,transactions" ++
      literal ",latency_min,latency_mean,latency_max" ++ literal ",latency_stddev" =
      Column.time.name ++ Column.before.tail.flatMap fun c => comma :: c.name := rfl
  have hafter : literal ",utime,stime,maxrss,minflt,majflt,nvcsw,nivcsw" =
      Column.after.flatMap fun c => comma :: c.name := rfl
  unfold printHeader
  rw [intercalate_all, forChosen_eq, hbefore, hafter]
  rfl

/-- **A row** has the fields of the columns. -/
theorem printSample_eq (s : Record) : printSample fmt percentiles s =
    [comma].intercalate ((Column.all percentiles).map (Column.field fmt s)) ++ [newline] := by
  have hcomma : literal "," = [comma] := rfl
  have hnewline : literal "\n" = [newline] := rfl
  unfold printSample
  rw [intercalate_all, forChosen_eq, hcomma, hnewline]
  simp [Column.before, Column.after, Column.field]

/-! ## The file, read back -/

/-- A text with nothing in it that separates fields or lines. What `%f`
prints is one: digits, a sign and a point, or `inf` or `nan`. -/
def Clean (t : List UInt8) : Prop := comma ∉ t ∧ newline ∉ t

theorem Clean.append {t u : List UInt8} (ht : Clean t) (hu : Clean u) : Clean (t ++ u) :=
  ⟨fun h => (List.mem_append.mp h).elim ht.1 hu.1, fun h => (List.mem_append.mp h).elim ht.2 hu.2⟩

theorem clean_decimalInt (v : ℤ) : Clean (decimalInt v) :=
  ⟨notMem_decimalInt (by decide) (by decide) v, notMem_decimalInt (by decide) (by decide) v⟩

theorem clean_decimal (n : ℕ) : Clean (decimal n) := by
  have h := clean_decimalInt n
  rwa [decimalInt, if_neg (by omega), Int.natAbs_natCast] at h

theorem clean_fixed (sec : ℤ) (w n : ℕ) : Clean (fixed sec w n) := by
  have hzeros (k : ℕ) : Clean (List.replicate k '0'.toUInt8) :=
    ⟨fun h => absurd (List.eq_of_mem_replicate h) (by decide),
      fun h => absurd (List.eq_of_mem_replicate h) (by decide)⟩
  have hpoint : Clean (literal ".") := by unfold Clean; decide
  exact ((clean_decimalInt sec).append hpoint).append ((hzeros _).append (clean_decimal n))

theorem clean_name (c : Column) : Clean c.name := by
  cases c with
  | latency st =>
    cases st with
    | percentile i =>
      have hprefix : Clean (literal "latency_p") := by unfold Clean; decide
      exact hprefix.append (clean_decimal i)
    | _ => unfold Clean; decide
  | _ => unfold Clean; decide

theorem clean_field (hfmt : ∀ st lat, Clean (fmt st lat)) (s : Record) (c : Column) :
    Clean (c.field fmt s) := by
  cases c with
  | time => exact clean_fixed _ _ _
  | utime => exact clean_fixed _ _ _
  | stime => exact clean_fixed _ _ _
  | flowId => exact clean_decimal _
  | transactions => exact clean_decimal _
  | latency st => exact hfmt st _
  | _ => exact clean_decimalInt _

/-- A line of fields, read back. -/
theorem splitOn_fields {fs : List (List UInt8)} (hfs : ∀ f ∈ fs, Clean f) (hne : fs ≠ []) :
    ([comma].intercalate fs).splitOn comma = fs :=
  List.splitOn_intercalate comma (fun f hf => (hfs f hf).1) hne

/-- A line has no newline. -/
theorem newline_notMem {fs : List (List UInt8)} (hfs : ∀ f ∈ fs, Clean f) :
    newline ∉ [comma].intercalate fs := by
  intro h
  have hsep : newline ≠ comma := by decide
  cases fs with
  | nil => cases h
  | cons f fs =>
    rw [intercalate_comma, List.mem_append, List.mem_flatMap] at h
    rcases h with h | ⟨g, hg, h⟩
    · exact (hfs f List.mem_cons_self).2 h
    · rcases List.mem_cons.mp h with h | h
      · exact hsep h
      · exact (hfs g (List.mem_cons_of_mem _ hg)).2 h

/-- **Lines of fields, read back.** -/
theorem readTable_lines (lines : List (List (List UInt8)))
    (hlines : ∀ fs ∈ lines, (∀ f ∈ fs, Clean f) ∧ fs ≠ []) :
    readTable (lines.flatMap fun fs => [comma].intercalate fs ++ [newline]) = lines := by
  have hjoin : (lines.flatMap fun fs => [comma].intercalate fs ++ [newline]) =
      [newline].intercalate (lines.map (fun fs => [comma].intercalate fs) ++ [[]]) := by
    induction lines with
    | nil => rfl
    | cons fs lines ih =>
      rw [List.flatMap_cons, ih fun gs hgs => hlines gs (List.mem_cons_of_mem _ hgs), List.map_cons,
        List.cons_append, List.intercalate_cons_of_ne_nil (by simp)]
  unfold readTable
  rw [hjoin, List.splitOn_intercalate newline ?_ (by simp), List.dropLast_concat, List.map_map]
  · refine (List.map_congr_left fun fs hfs => ?_).trans (List.map_id _)
    exact splitOn_fields (hlines fs hfs).1 (hlines fs hfs).2
  · intro t ht
    rcases List.mem_append.mp ht with ht | ht
    · obtain ⟨fs, hfs, rfl⟩ := List.mem_map.mp ht
      exact newline_notMem (hlines fs hfs).1
    · rw [List.mem_singleton.mp ht]
      exact List.not_mem_nil

/-! ## The names of the columns -/

theorem readDigits_padded {c : UInt8} (hc : isdigit c = false) (w n : ℕ) (q : List UInt8) :
    readDigits 0 (padded w n ++ c :: q) = some (n, c :: q) := by
  have hdigits : ∀ d ∈ Nat.toDigits 10 n, d.isDigit := fun d hd =>
    Nat.isDigit_of_mem_toDigits (by decide) (by decide) hd
  unfold padded
  generalize w - (decimal n).length = k
  induction k with
  | zero =>
    have h := readDigits_append (q := q) (Nat.toDigits 10 n) hdigits hc 0
    rwa [Nat.ofDigitChars_ten_toDigits] at h
  | succ k ih =>
    rw [List.replicate_succ, List.cons_append, List.cons_append, readDigits, if_pos (by decide)]
    exact ih

theorem decimal_injective : Function.Injective decimal := by
  intro n m h
  have hzero : isdigit 0 = false := by decide
  have hn := readDigits_padded hzero 0 n []
  have hm := readDigits_padded hzero 0 m []
  unfold padded at hn hm
  rw [Nat.zero_sub] at hn hm
  rw [h, hm] at hn
  exact (congrArg Prod.fst (Option.some.inj hn)).symm

/-- **No two columns have one name.** -/
theorem names_nodup (percentiles : Option Chosen) :
    ((Column.all percentiles).map Column.name).Nodup := by
  have hperm : ((Column.all percentiles).map Column.name).Perm
      ((Column.before ++ Column.after).map Column.name ++
        (percentiles.elim [] chosenOf).map fun i : Fin 101 =>
          literal "latency_p" ++ decimal i) := by
    rw [Column.all, List.append_assoc, List.map_append, List.map_append, List.map_append,
      List.append_assoc, List.map_map]
    exact (List.perm_append_comm).append_left _
  have hchosen : (percentiles.elim [] chosenOf).Nodup := by
    cases percentiles with
    | none => exact List.nodup_nil
    | some chosen => exact (List.nodup_finRange 101).filter _
  have hother : ∀ x ∈ (Column.before ++ Column.after).map Column.name,
      (literal "latency_p").isPrefixOf x = false := by decide
  refine hperm.nodup_iff.mpr (List.nodup_append.mpr ⟨by decide, hchosen.map ?_, ?_⟩)
  · intro i j h
    exact Fin.val_injective (decimal_injective (List.append_cancel_left h))
  · rintro x hx _ hy rfl
    obtain ⟨i, -, rfl⟩ := List.mem_map.mp hy
    have hprefix := List.isPrefixOf_iff_prefix.mpr (List.prefix_append (literal "latency_p")
      (decimal i))
    rw [hother _ hx] at hprefix
    cases hprefix

/-! ## The times -/

theorem length_padded {w n : ℕ} (hw : 0 < w) (hn : n < 10 ^ w) : (padded w n).length = w := by
  have hdigits : (Nat.toDigits 10 n).length ≤ w :=
    (Nat.length_toDigits_le_iff (by decide) hw).mpr hn
  unfold padded decimal
  rw [List.length_append, List.length_replicate, List.length_map]
  omega

/-- **A time reads back** to its last digit. -/
theorem readFixed_fixed {sec : ℤ} {w n : ℕ} (hsec : 0 ≤ sec) (hw : 0 < w) (hn : n < 10 ^ w) :
    readFixed (fixed sec w n) = some ((sec : ℚ) + n / 10 ^ w) := by
  have hpoint : isdigit '.'.toUInt8 = false := by decide
  have hread := readDigits_padded hpoint 0 sec.natAbs (padded w n ++ [0])
  have htext : fixed sec w n ++ [0] =
      padded 0 sec.natAbs ++ '.'.toUInt8 :: (padded w n ++ [0]) := by
    have hliteral : literal "." = ['.'.toUInt8] := rfl
    simp [fixed, decimalInt, padded, hliteral, not_lt.mpr hsec]
  have hcast : ((sec.natAbs : ℕ) : ℚ) = (sec : ℚ) := by
    rw [← Int.cast_natCast, Int.natAbs_of_nonneg hsec]
  unfold readFixed
  rw [htext, hread]
  dsimp only
  rw [if_pos rfl, readDigits_padded (by decide), Option.map_some, List.length_append,
    length_padded hw hn, List.length_singleton, Nat.add_sub_cancel, hcast]

/-- **The file is a table**: read back, its first line has the names of
the columns, all different, and each other line has the fields of a
sample in their order; and the times in it, where they are not negative,
are exact. -/
theorem readTable_printSamples (hfmt : ∀ st lat, Clean (fmt st lat)) (percentiles : Option Chosen)
    (samples : List Record) :
    readTable (printSamples fmt percentiles samples) =
      (Column.all percentiles).map Column.name ::
        samples.map (fun s => (Column.all percentiles).map (Column.field fmt s)) ∧
    ((Column.all percentiles).map Column.name).Nodup ∧
    ∀ s ∈ samples,
      (0 ≤ s.timestamp.sec → readFixed (Column.time.field fmt s) = some s.time) ∧
      (0 ≤ s.rusage.utime.sec →
        readFixed (Column.utime.field fmt s) = some s.rusage.utime.seconds) ∧
      (0 ≤ s.rusage.stime.sec →
        readFixed (Column.stime.field fmt s) = some s.rusage.stime.seconds) := by
  refine ⟨?_, names_nodup percentiles, fun s _ => ⟨fun hsec => ?_, fun hsec => ?_, fun hsec => ?_⟩⟩
  · have hne (f : Column → List UInt8) : (Column.all percentiles).map f ≠ [] := by
      simp [Column.all, Column.before]
    have hfile : printSamples fmt percentiles samples =
        ((Column.all percentiles).map Column.name :: samples.map fun s =>
          (Column.all percentiles).map (Column.field fmt s)).flatMap
          fun fs => [comma].intercalate fs ++ [newline] := by
      rw [List.flatMap_cons, List.flatMap_map, printSamples, printHeader_eq]
      exact congrArg _ (List.flatMap_congr fun s _ => printSample_eq s)
    rw [hfile, readTable_lines]
    intro fs hfs
    rcases List.mem_cons.mp hfs with rfl | hfs
    · refine ⟨fun f hf => ?_, hne _⟩
      obtain ⟨c, -, rfl⟩ := List.mem_map.mp hf
      exact clean_name c
    · obtain ⟨s, -, rfl⟩ := List.mem_map.mp hfs
      refine ⟨fun f hf => ?_, hne _⟩
      obtain ⟨c, -, rfl⟩ := List.mem_map.mp hf
      exact clean_field hfmt s c
  · refine (readFixed_fixed hsec (by decide) s.timestamp.nsec_lt).trans ?_
    norm_num [Sample.time, Timespec.seconds]
  · exact readFixed_fixed hsec (by decide) s.rusage.utime.usec_lt
  · exact readFixed_fixed hsec (by decide) s.rusage.stime.usec_lt

/-- What `%f` prints of a list without numbers. -/
def emptyText : Statistic → List UInt8
  | .min => literal "inf"
  | .mean => literal "-nan"
  | .max => literal "-inf"
  | .stddev => literal "-nan"
  | .percentile _ => literal "nan"

/-- A sample of the second 1.05. -/
def early : Record :=
  ⟨⟨0, 3, 70, 1, .create, ⟨1, 50000000, by decide⟩⟩,
    ⟨⟨0, 2000, by decide⟩, ⟨0, 0, by decide⟩, 1024, 5, 0, 2, 1⟩⟩

theorem readTable_printSamples_early :
    readTable (printSamples (fun st _ => emptyText st) (some fun i => i == 50) [early]) =
      [["time", "tid", "flow_id", "bytes_read", "transactions", "latency_min", "latency_mean",
        "latency_max", "latency_stddev", "latency_p50", "utime", "stime", "maxrss", "minflt",
        "majflt", "nvcsw", "nivcsw"].map literal,
      ["1.050000000", "0", "3", "70", "1", "inf", "-nan", "-inf", "-nan", "nan", "0.002000",
        "0.000000", "1024", "5", "0", "2", "1"].map literal] ∧
    readFixed (literal "1.050000000") = some (21 / 20) := by
  have hfmt : ∀ st (_ : Numlist ℚ), Clean (emptyText st) := by
    intro st _
    have hnan : Clean (literal "nan") := by unfold Clean; decide
    cases st with
    | percentile i => exact hnan
    | _ => unfold Clean; decide
  have h := readTable_printSamples hfmt (some fun i => i == 50) [early]
  refine ⟨h.1.trans rfl, ?_⟩
  have htime := (h.2.2 early List.mem_cons_self).1 (by decide)
  refine htime.trans (congrArg some ?_)
  norm_num [Sample.time, Timespec.seconds, early]

end Csv

end Rushit
