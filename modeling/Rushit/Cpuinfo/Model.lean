import Mathlib.Data.List.DropRight
import Mathlib.Logic.Function.Basic
import Rushit.Common.Strtol
/-!
# Reading /proc/cpuinfo

`get_cpuinfo` of `cpuinfo.c`. The text is read with the format
`"%m[^:]:%m[^\n]\n"`: a key up to the colon, a value up to the end of the
line, and all white space after it. A conversion of no characters fails,
so a line with nothing after its colon ends the inner loop, and with it
the entry. A read at the end of the text sets the end-of-file indicator,
or the error indicator where the text ends because a read fails.

The strings that `fscanf` allocates are values here, so that freeing them
is left out.
-/

namespace Rushit

/-- `struct cpuinfo` -/
structure Cpuinfo where
  processor : ℤ
  physicalId : ℤ
  siblings : ℤ
  coreId : ℤ
  cpuCores : ℤ
  deriving DecidableEq

namespace Cpuinfo

open CString

/-- A stream that is open for reading. -/
structure File where
  /-- What is still to be read. -/
  rest : List UInt8
  /-- A read past the rest fails, where else it finds the end of the file. -/
  broken : Bool
  /-- What `feof` and `ferror` tell. -/
  eof : Bool
  error : Bool

def colon : UInt8 := ':'.toUInt8

def newline : UInt8 := '\n'.toUInt8

/-- A read that finds nothing. -/
def File.hitEnd (f : File) : File :=
  if f.broken then { f with error := true } else { f with eof := true }

/-- What is left after a run of characters, where the next one is looked at. -/
def File.setRest (f : File) (rest : List UInt8) : File :=
  if rest = [] then { f with rest := rest }.hitEnd else { f with rest := rest }

/-- `%m[^stop]`: the characters up to `stop`. There is no conversion where
there are none. -/
def File.scanUntil (f : File) (stop : UInt8) : List UInt8 × File :=
  (f.rest.takeWhile (· ≠ stop), f.setRest (f.rest.dropWhile (· ≠ stop)))

/-- White space in the format. -/
def File.skipSpace (f : File) : File := f.setRest (f.rest.dropWhile isspace)

/-- `fscanf(f, "%m[^:]:%m[^\n]\n", &key, &value)`: the key and the value
where it returns 2. -/
def File.scanEntry (f : File) : Option (List UInt8 × List UInt8) × File :=
  let (key, f) := f.scanUntil colon
  if key = [] then (none, f)
  else
    match f.rest with
    | [] => (none, f.hitEnd)
    | _ :: rest =>
      let (value, f) := { f with rest := rest }.scanUntil newline
      if value = [] then (none, f) else (some (key, value), f.skipSpace)

/-- `ltrim` -/
def ltrim (str : List UInt8) : List UInt8 := str.dropWhile isspace

/-- `rtrim` -/
def rtrim (str : List UInt8) : List UInt8 := (text str).rdropWhile isspace

/-- A `long` as an `int`. -/
def toInt (n : ℤ) : ℤ := Int.bmod n 4294967296

/-- `sscanf(value, "%d", &old)`, which leaves `old` where it reads no number. -/
def sscanfInt (value : List UInt8) (old : ℤ) : ℤ :=
  match strtol (text value ++ [0]) with
  | some num => if num.endptr = text value ++ [0] then old else toInt num.val
  | none => old

/-- A string of the source. -/
def literal (s : String) : List UInt8 := s.toList.map Char.toUInt8

/-- The body of the inner loop. -/
def enterField (cpu : Cpuinfo) (key value : List UInt8) : Cpuinfo :=
  let name := ltrim (rtrim key)
  if name = literal "processor" then
    { cpu with processor := sscanfInt value cpu.processor }
  else if name = literal "physical id" then
    { cpu with physicalId := sscanfInt value cpu.physicalId }
  else if name = literal "siblings" then
    { cpu with siblings := sscanfInt value cpu.siblings }
  else if name = literal "core id" then
    { cpu with coreId := sscanfInt value cpu.coreId }
  else if name = literal "cpu cores" then
    { cpu with cpuCores := sscanfInt value cpu.cpuCores }
  else cpu

/-- The inner loop. Each entry takes some of the text, so that it does not
run out of `fuel` where there is more than there is text. -/
def readEntry : (fuel : ℕ) → File → Cpuinfo → Option (Cpuinfo × File)
  | 0, _, _ => none
  | fuel + 1, f, cpu =>
    match f.scanEntry with
    | (some (key, value), f) => readEntry fuel f (enterField cpu key value)
    | (none, f) => some (cpu, f)

/-- The outer loop, from `n` on, where `left` is `max_cpus - n`. -/
def readEntries (f : File) (cpus : ℕ → Cpuinfo) (n : ℕ) : (left : ℕ) → Option (ℤ × (ℕ → Cpuinfo))
  | 0 => some (n, cpus)
  | left + 1 => do
    let (cpu, f) ← readEntry (f.rest.length + 1) f (cpus n)
    let cpus := Function.update cpus n cpu
    if f.error then return (-1, cpus)
    if f.eof then return (n, cpus)
    readEntries f cpus (n + 1) left

/-- `get_cpuinfo`: what it returns, and the array as it is left. `file` is
what `fopen` opens. -/
def getCpuinfo (file : Option File) (cpus : ℕ → Cpuinfo) (maxCpus : ℤ) :
    Option (ℤ × (ℕ → Cpuinfo)) :=
  match file with
  | none => some (-1, cpus)
  | some f => readEntries f cpus 0 maxCpus.toNat

/-- The file with the given text, opened. -/
def File.open (text : List UInt8) : File := ⟨text, false, false, false⟩

end Cpuinfo

end Rushit
