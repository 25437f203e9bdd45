import Mathlib.Data.Int.Notation
import Rushit.Common.CString
/-!
# What is logged of a message

`logging` of `logging.c` formats a message into a buffer of 4096, or into
one that it allocates where the message is longer. `vsnprintf` takes the
size of a buffer and returns the length of the message, which has no room
for the NUL in its count: a message that is as long as the buffer is cut
off, and so is each for which one is allocated (`complete_iff`).
-/

namespace Rushit

namespace Logging

open CString

inductive Level
  | fatal
  | error
  | warning
  | info
  deriving DecidableEq

/-- `level_char` -/
def Level.char : Level → Char
  | .fatal => 'F'
  | .error => 'E'
  | .warning => 'W'
  | .info => 'I'

/-- What `localtime_r` fills in. The month counts from 0. -/
structure Tm where
  mon : ℕ
  mday : ℕ
  hour : ℕ
  min : ℕ
  sec : ℕ
  deriving DecidableEq

/-- What the calls of `logging` return. -/
structure Env where
  openLog : Bool
  tm : Tm
  nsec : ℕ
  gettid : ℤ
  getpid : ℤ
  basename : String → String

/-- The global variables. -/
structure State where
  /-- `log_file` is not `NULL`. -/
  logFile : Bool
  logtostderr : Bool
  stdoutLines : ℕ
  deriving DecidableEq

/-- The arguments of a call; `message` is what the format and its
arguments make. -/
structure Call where
  file : String
  line : ℤ
  func : String
  level : Level
  message : List UInt8

/-- What a line of the log is made of. -/
structure Line where
  levelChar : Char
  mon : ℕ
  mday : ℕ
  hour : ℕ
  min : ℕ
  sec : ℕ
  usec : ℕ
  stdoutLines : ℕ
  threadId : ℤ
  file : String
  line : ℤ
  func : String
  msg : List UInt8

inductive Output
  /-- To the log, which may be `stderr`. -/
  | log (toStderr : Bool) (line : Line)
  /-- To `stderr`, with no more than the message. -/
  | stderr (msg : List UInt8)

/-- The text of the message. -/
def Output.msg : Output → List UInt8
  | .log _ line => line.msg
  | .stderr msg => msg

inductive Ending
  | returns
  | exits
  /-- `fclose` is given `NULL`. -/
  | closesNull
  deriving DecidableEq

/-- `sizeof(buf)` -/
def bufSize : ℕ := 4096

/-- The buffer that the message is printed from. -/
def msgBuffer (message : List UInt8) : List UInt8 :=
  -- the length that `vsnprintf` returns does not count the NUL
  if bufSize < message.length then bounded message.length message else bounded bufSize message

/-- The line of the log, of what `msg` points to. -/
def logLine (env : Env) (s : State) (c : Call) (msg : List UInt8) : Line where
  levelChar := c.level.char
  mon := env.tm.mon + 1
  mday := env.tm.mday
  hour := env.tm.hour
  min := env.tm.min
  sec := env.tm.sec
  usec := env.nsec / 1000
  stdoutLines := s.stdoutLines
  threadId := if env.gettid = -1 then env.getpid else env.gettid
  file := env.basename c.file
  line := c.line
  func := c.func
  msg := text msg

/-- `logging`: the state after it, what it prints, and how it ends. -/
def logging (env : Env) (s : State) (c : Call) : State × List Output × Ending :=
  let opens := !s.logFile && !s.logtostderr
  if opens && !env.openLog then (s, [], .returns)
  else
    let s := if opens then { s with logFile := true } else s
    let msg := msgBuffer c.message
    let log := Output.log s.logtostderr (logLine env s c msg)
    match c.level with
    | .fatal =>
      (s, [log, .stderr (text msg)], if s.logFile then .exits else .closesNull)
    | .error => (s, [log, .stderr (text msg)], .returns)
    | .warning => (s, [log], .returns)
    | .info => (s, [log], .returns)

variable {env : Env} {s : State} {c : Call} {message : List UInt8}

/-- Nothing is logged where the log is to be opened and can not be. -/
def Silent (env : Env) (s : State) : Prop :=
  s.logFile = false ∧ s.logtostderr = false ∧ env.openLog = false

/-- **Everything that is printed** has what the buffer has of the message,
and something is printed where the log is open. -/
theorem logging_outputs (env : Env) (s : State) (c : Call) :
    (Silent env s → (logging env s c).2.1 = []) ∧
      (¬ Silent env s → (logging env s c).2.1 ≠ [] ∧
        ∀ o ∈ (logging env s c).2.1, o.msg = text (msgBuffer c.message)) := by
  have hsilent : Silent env s ↔ (!s.logFile && !s.logtostderr && !env.openLog) = true := by
    simp [Silent, and_assoc]
  constructor
  · intro h
    unfold logging
    dsimp only
    rw [if_pos (hsilent.mp h)]
  · intro h
    unfold logging
    dsimp only
    rw [if_neg (fun hc => h (hsilent.mpr hc))]
    cases c.level <;> simp [Output.msg, logLine]

/-- **What the buffer has** is the message exactly where it is shorter
than `buf`. -/
theorem text_msgBuffer_iff :
    text (msgBuffer message) = message ↔ 0 ∉ message ∧ message.length < bufSize := by
  have hsize : 0 < bufSize := by decide
  unfold msgBuffer
  split_ifs with hlong
  · rw [text_bounded_iff (by omega)]
    exact ⟨fun h => absurd h.2 (Nat.lt_irrefl _), fun h => absurd h.2 (by omega)⟩
  · exact text_bounded_iff hsize

/-- **Messages are logged complete** exactly where they have less than
4096 characters and no NUL, or are not logged at all. -/
theorem complete_iff (env : Env) (s : State) (c : Call) :
    (∀ o ∈ (logging env s c).2.1, o.msg = c.message) ↔
      (0 ∉ c.message ∧ c.message.length < bufSize) ∨ Silent env s := by
  obtain ⟨hsilent, hlogged⟩ := logging_outputs env s c
  by_cases h : Silent env s
  · rw [hsilent h]
    exact ⟨fun _ => .inr h, fun _ => nofun⟩
  · obtain ⟨hne, hmsg⟩ := hlogged h
    rw [or_iff_left h, ← text_msgBuffer_iff]
    constructor
    · intro hall
      obtain ⟨o, ho⟩ := List.exists_mem_of_ne_nil _ hne
      exact (hmsg o ho).symm.trans (hall o ho)
    · intro hbuffer o ho
      exact (hmsg o ho).trans hbuffer

/-- A message of 4096 characters loses its last. -/
theorem last_character_dropped :
    ¬ ∀ o ∈ (logging ⟨false, ⟨0, 1, 0, 0, 0⟩, 0, 1, 1, id⟩ ⟨false, true, 0⟩
        ⟨"main.c", 1, "main", .warning, List.replicate 4096 97⟩).2.1,
      o.msg = List.replicate 4096 97 := by
  intro h
  obtain ⟨hne, hmsg⟩ := (logging_outputs ⟨false, ⟨0, 1, 0, 0, 0⟩, 0, 1, 1, id⟩ ⟨false, true, 0⟩
    ⟨"main.c", 1, "main", .warning, List.replicate 4096 97⟩).2 fun hsilent => nomatch hsilent.2.1
  obtain ⟨o, ho⟩ := List.exists_mem_of_ne_nil _ hne
  have hshort := (text_msgBuffer_iff.mp ((hmsg o ho).symm.trans (h o ho))).2
  rw [List.length_replicate] at hshort
  exact Nat.lt_irrefl _ hshort

end Logging

end Rushit
