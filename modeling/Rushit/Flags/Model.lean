import Mathlib.Data.Int.Notation
import Mathlib.Order.Defs.LinearOrder
import Rushit.Common.Exchange
/-!
# The command line flags

`flags.c`: the flags are registered one by one, each with a long name and
maybe a short one, and `flags_parser_run` sorts a copy of them by the
short name. From the sorted copy come the two tables of `getopt_long`,
and an option that it reports is looked up there again: a short one by
its character, a long one by the number that stands for its index.

`getopt_long`, the parsers of single flags and the conversions of the C
library are arguments. The usage texts and the printers of the flags are
left out, since they are only printed.
-/

namespace Rushit

namespace Flags

inductive HasArg
  | noArgument
  | requiredArgument
  | optionalArgument
  deriving DecidableEq

/-- What is stored in a variable; `D` is the type of a `double`. -/
inductive Value (D : Type)
  | bool (b : Bool)
  | int (n : ℤ)
  | string (s : Option String)
  | unsignedLong (n : ℕ)
  | double (d : D)

/-- How the program can end. -/
inductive End
  | exit (code : ℤ)
  | fatal (msg : String)
  /-- An index past the end of an array, or a null pointer that is read. -/
  | crash
  deriving DecidableEq

/-- The variables, and the errors that were logged. -/
structure State (Var D : Type) where
  vars : Var → Option (Value D)
  errors : List String

/-- `parser_t`: what it does with an argument and the variable. -/
abbrev Parser (Var D : Type) : Type := Option String → Var → State Var D → Except End (State Var D)

/-- `struct flag` -/
structure Flag (Var D : Type) where
  /-- A `char`, which is no printable one where there is no short name. -/
  shortName : ℤ
  longName : String
  type : String
  variableName : String
  /-- `variable` -/
  var : Var
  parser : Option (Parser Var D)
  hasArg : HasArg

/-- The conversions of the C library. -/
structure Libc (D : Type) where
  atoi : String → ℤ
  strtoul : String → ℕ
  atof : String → D

section
variable {Var D : Type} [DecidableEq Var]

/-! ## Registering flags -/

/-- `remap_long_name` -/
def remapLongName (name : String) : String := name.map fun c => if c = '_' then '-' else c

/-- `flags_parser_add` -/
def flagsParserAdd (flags : List (Flag Var D)) (shortName : ℤ) (longName type : String)
    (var : Var) : List (Flag Var D) :=
  { shortName := shortName
    longName := remapLongName longName
    type := type
    variableName := longName
    var := var
    parser := none
    hasArg := if type = "bool" then .noArgument else .requiredArgument } :: flags

/-- `flags_parser_set_parser` -/
def flagsParserSetParser (flags : List (Flag Var D)) (var : Var) (parser : Parser Var D) :
    List (Flag Var D) :=
  flags.map fun flag => if flag.var = var then { flag with parser := some parser } else flag

/-- `flags_parser_set_no_argument` and `flags_parser_set_optional` -/
def flagsParserSetHasArg (flags : List (Flag Var D)) (var : Var) (hasArg : HasArg) :
    List (Flag Var D) :=
  flags.map fun flag => if flag.var = var then { flag with hasArg := hasArg } else flag

/-- A call that registers a flag or sets what it does. -/
inductive Registration (Var D : Type)
  | add (shortName : ℤ) (longName type : String) (var : Var)
  | setParser (var : Var) (parser : Parser Var D)
  | setHasArg (var : Var) (hasArg : HasArg)

/-- What one call does to the flags. -/
def register (flags : List (Flag Var D)) : Registration Var D → List (Flag Var D)
  | .add shortName longName type var => flagsParserAdd flags shortName longName type var
  | .setParser var parser => flagsParserSetParser flags var parser
  | .setHasArg var hasArg => flagsParserSetHasArg flags var hasArg

/-- The flags that a program registers, from none. -/
def registered (calls : List (Registration Var D)) : List (Flag Var D) := calls.foldl register []

/-! ## The tables of `getopt_long` -/

/-- `isgraph`, which is false above 255. -/
def isgraph (c : ℤ) : Bool := decide (33 ≤ c ∧ c ≤ 126)

/-- `LONG_OPTION_START` -/
def longOptionStart : ℤ := 1000

def colon : ℤ := 58

def questionMark : ℤ := 63

def plus : ℤ := 43

def minus : ℤ := 45

def semicolon : ℤ := 59

/-- `struct option` -/
structure LongOption where
  name : String
  hasArg : HasArg
  val : ℤ

/-- The sorted copy of the flags. -/
def sortFlags (flags : List (Flag Var D)) : Array (Flag Var D) :=
  exchangeSort Flag.shortName flags.toArray

/-- `longopts`, without the element that ends it. -/
def longopts (flags : Array (Flag Var D)) : List LongOption :=
  flags.toList.mapIdx fun i flag => ⟨flag.longName, flag.hasArg, longOptionStart + i⟩

/-- `shortopts[j++] = c`, where `size` bytes were allocated. -/
def putChar (size : ℕ) (shortopts : List ℤ) (c : ℤ) : Except End (List ℤ) :=
  if shortopts.length < size then .ok (shortopts ++ [c]) else .error .crash

/-- What one flag adds to `shortopts`. -/
def shortoptsTurn (size : ℕ) (shortopts : List ℤ) (turn : Flag Var D × LongOption) :
    Except End (List ℤ) := do
  if isgraph turn.1.shortName = false then return shortopts
  let shortopts ← putChar size shortopts turn.1.shortName
  if turn.2.hasArg = .noArgument then return shortopts
  let shortopts ← putChar size shortopts colon
  if turn.2.hasArg = .requiredArgument then return shortopts
  putChar size shortopts colon

/-- `shortopts`, in the `num_flags*3 + 1` bytes allocated for it. -/
def shortopts (flags : Array (Flag Var D)) : Except End (List ℤ) :=
  (flags.toList.zip (longopts flags)).foldlM (shortoptsTurn (flags.size * 3 + 1)) []

/-! ### How `getopt_long` reads the short options -/

/-- An option is a visible character other than these three. -/
def isOption (c : ℤ) : Bool :=
  isgraph c && decide (c ≠ minus) && decide (c ≠ colon) && decide (c ≠ semicolon)

/-- One colon behind an option says that it requires an argument, and two
that it may have one. -/
def readHasArg (rest : List ℤ) : HasArg :=
  if [colon, colon].isPrefixOf rest then .optionalArgument
  else if [colon].isPrefixOf rest then .requiredArgument
  else .noArgument

/-- The options in a string, each with what stands behind it. -/
def readOptions : List ℤ → List (ℤ × HasArg)
  | [] => []
  | c :: rest => if isOption c then (c, readHasArg rest) :: readOptions rest else readOptions rest

/-- What `getopt_long` makes of the string: in front of it `'+'` says how
the arguments are ordered and is no option. -/
def readShortopts (shortopts : List ℤ) : List (ℤ × HasArg) :=
  readOptions (if shortopts.head? = some plus then shortopts.tail else shortopts)

/-! ## The options -/

/-- What `getopt_long` returns, with `optarg`. -/
structure Report where
  c : ℤ
  optarg : Option String

/-- `default_parser` -/
def defaultParser (libc : Libc D) (type : String) (arg : Option String) (out : Var)
    (st : State Var D) : Except End (State Var D) :=
  let store (v : Value D) : State Var D :=
    { st with vars := Function.update st.vars out (some v) }
  -- the conversions read what `arg` points to
  let convert (f : String → Value D) : Except End (State Var D) :=
    match arg with
    | some arg => .ok (store (f arg))
    | none => .error .crash
  if type = "bool" ∧ arg = none then .ok (store (.bool true))
  else if type = "int" then convert fun arg => .int (libc.atoi arg)
  else if type = "const char *" then .ok (store (.string arg))
  else if type = "unsigned long" then convert fun arg => .unsignedLong (libc.strtoul arg)
  else if type = "double" then convert fun arg => .double (libc.atof arg)
  else .ok { st with errors := st.errors ++
    ["Unknown type `" ++ type ++ "' for arg `" ++ arg.getD "(null)" ++ "'."] }

/-- What a flag does with its argument. -/
def Flag.apply (libc : Libc D) (flag : Flag Var D) (optarg : Option String) (st : State Var D) :
    Except End (State Var D) :=
  match flag.parser with
  | some parser => parser optarg flag.var st
  | none => defaultParser libc flag.type optarg flag.var st

/-- The index of the flag that an option stands for, which is past the
end where there is none. -/
def optionIndex (flags : Array (Flag Var D)) (c : ℤ) : Option ℕ :=
  if isgraph c then some (flags.toList.findIdx fun flag => flag.shortName = c)
  else if longOptionStart ≤ c then some (c - longOptionStart).toNat
  else none

/-- The body of the loop around `getopt_long`. -/
def applyOption (libc : Libc D) (flags : Array (Flag Var D)) (st : State Var D)
    (report : Report) : Except End (State Var D) :=
  if report.c = questionMark then .error (.exit 1)
  else
    match (optionIndex flags report.c).bind fun i => flags[i]? with
    | some flag => flag.apply libc report.optarg st
    | none => .error .crash

/-- The end of `flags_parser_run`. -/
def finish (help version : Var) (nonOptions : List String) (st : State Var D) :
    Except End (State Var D) :=
  if nonOptions ≠ [] then .error (.exit 1)
  else
    match st.vars help, st.vars version with
    | some (.bool true), _ => .error (.exit 0)
    | _, some (.bool true) => .error (.exit 0)
    | _, _ => .ok st

/-- `flags_parser_run`, where `getopt` is what `getopt_long` makes of the
arguments: the options and what is left. -/
def flagsParserRun (libc : Libc D) (getopt : List ℤ → List LongOption → List Report × List String)
    (help version : Var) (flags : List (Flag Var D)) (st : State Var D) :
    Except End (State Var D) :=
  if flags.length = 0 then .ok st
  else do
    let sorted := sortFlags flags
    let shortopts ← shortopts sorted
    let (reports, nonOptions) := getopt shortopts (longopts sorted)
    let st ← reports.foldlM (applyOption libc sorted) st
    finish help version nonOptions st

end

end Flags

end Rushit
