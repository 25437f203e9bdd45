import Rushit.Script.Model
import Rushit.Script.PacketHook
import Rushit.Serialize.Stack
/-!
# Hook invocations

`push_hook`, `push_cpointer`, `call_hook` and what calls them in
`script.c`, on the stack of a slave's Lua state. The Lua code that an
invocation runs, the `ffi` library and the hook, is a parameter
(`Env`); it sees the heap and the registry, not the C code's stack.

Log lines are left out.
-/

namespace Rushit

namespace Script

open Lua Serialize

/-- The statuses of a failed `lua_pcall`. -/
inductive LuaError
  | errRun
  | errSyntax
  | errMem
  | errErr
  deriving DecidableEq

def LuaError.status : LuaError → ℤ
  | .errRun => 2
  | .errSyntax => 3
  | .errMem => 4
  | .errErr => 5

/-- `SCRIPT_HOOK_ERROR_BASE` -/
def scriptHookErrorBase : ℤ := 256

/-- `errno_lua` -/
def errnoLua (e : LuaError) : ℤ := scriptHookErrorBase + e.status

/-- A string literal of the C code. -/
def literal (s : String) : LuaString := s.toUTF8.data.toList

/-- What comes of a call in protected mode: its result, or its status
and an error message, and the heap and the registry after it. -/
structure Called where
  result : Except (LuaError × Value) Value
  heap : Heap
  objectTbl : List (Addr × Value)

/-- What one invocation meets in the Lua state. -/
structure Env where
  getglobal : Target → LuaString → Value
  /-- A field of a value; indexing may fail. -/
  getfield : Target → Value → LuaString → Option Value
  call : Target → Value → List Value → Called
  /-- What `lua_isnumber` and `lua_tointeger` make of a value. -/
  tointeger : Value → LuaResult

/-- A slave with the stack of its Lua state. -/
structure SlaveState where
  L : Machine
  hookKeys : HookId → Option Addr

/-! ## Calls -/

section Calls

variable (env : Env) (M : Machine)

/-- `lua_pushinteger` -/
def pushinteger (n : ℤ) : Machine := M.push (.number (.finite n))

/-- `lua_getfield(L, -i, name)`; an error outside of a protected call
ends the program. -/
def getfield (i : ℕ) (name : LuaString) : Except Fault Machine := do
  let v ← M.index i
  let w ← orFault .fatal (env.getfield M.target v name)
  pure (M.push w)

/-- `lua_pcall(L, nargs, 1, 0)`: the function and its arguments are
replaced by the result or the error message. -/
def pcall (nargs : ℕ) : Except Fault (Option LuaError × Machine) :=
  match M.stack.drop nargs with
  | [] => .error .api
  | f :: s =>
    let r := env.call M.target f (M.stack.take nargs).reverse
    let σ := { M.target with heap := r.heap, objectTbl := r.objectTbl }
    match r.result with
    | .ok v => pure (none, ⟨σ, v :: s⟩)
    | .error (e, msg) => pure (some e, ⟨σ, msg :: s⟩)

/-- `push_cpointer`: `ffi.cast(ffi.typeof(proto), ptr)`. -/
def pushCpointer (proto : LuaString) (ptr : Addr) : Except Fault (ℤ × Machine) := do
  let M := M.push (env.getglobal M.target (literal "require"))
  let M := M.push (.string (literal "ffi"))
  let (err, M) ← pcall env M 1
  match err with
  | some e => pure (-errnoLua e, M)
  | none =>
    let M ← getfield env M 1 (literal "cast")
    let M ← getfield env M 2 (literal "typeof")
    let M := M.push (.string proto)
    let (err, M) ← pcall env M 1
    match err with
    | some e =>
      let M ← M.pop 3
      pure (-errnoLua e, M)
    | none =>
      let M := M.push (.lightuserdata ptr)
      let (err, M) ← pcall env M 2
      match err with
      | some e =>
        let M ← M.pop 2
        pure (-errnoLua e, M)
      | none =>
        -- the module is still under the result
        let M ← M.remove 2
        pure (0, M)

end Calls

/-! ## Hooks -/

section Hooks

variable (al : Allocator) (se : Engine) (env : Env)

/-- `load_hook`: the key of the hook, which is left on top; none where
there is no hook (`EHOOKEMPTY`). -/
def loadHook (hook : Option SFunction) (M : Machine) : Except Fault (Option (Addr × Machine)) :=
  match hook with
  | none => pure none
  | some f => do
    let r ← M.deserializeFunction al f
    pure (some r)

namespace SlaveState

variable (ss : SlaveState) (hid : HookId)

/-- `push_hook` before its push: the hook is loaded where it has no
key. -/
def hookKey : Except Fault (Option (Addr × SlaveState)) :=
  match ss.hookKeys hid with
  | some key => pure (some (key, ss))
  | none => do
    match ← loadHook al (se.hooks hid) ss.L with
    | none => pure none
    | some (key, M) => pure (some (key, ⟨M, fun i => if i = hid then some key else ss.hookKeys i⟩))

/-- `push_hook`; the registry has no metatable, so that `lua_gettable`
reads it raw. -/
def pushHook : Except Fault (ℤ × SlaveState) := do
  match ← hookKey al se ss hid with
  | none => pure (-ehookempty, ss)
  | some (key, ss) =>
    let M ← (ss.L.push (.lightuserdata key)).rawgetTbl
    pure (0, ⟨M, ss.hookKeys⟩)

/-- `call_hook` -/
def callHook (nargs : ℕ) : Except Fault (ℤ × SlaveState) := do
  let (err, M) ← pcall env ss.L nargs
  match err with
  | some _ => .error .fatal
  | none =>
    let v ← M.index 1
    let M ← M.pop 1
    pure (Script.callHook (env.tointeger v), ⟨M, ss.hookKeys⟩)

/-- What `run_socket_hook` and `run_packet_hook` share: `args` pushes
the arguments, and whether it could is not looked at. -/
def runHook (nargs : ℕ) (args : Machine → Except Fault (ℤ × Machine)) :
    Except Fault (ℤ × SlaveState) := do
  let (err, ss) ← pushHook al se ss hid
  if err ≠ 0 then pure (err, ss)
  else
    let (_, M) ← args ss.L
    callHook env ⟨M, ss.hookKeys⟩ nargs

end SlaveState

/-- The arguments of `run_socket_hook`. -/
def pushSocketArgs (sockfd : ℤ) (ai : Addr) (M : Machine) : Except Fault (ℤ × Machine) :=
  pushCpointer env (pushinteger M sockfd) (literal "struct addrinfo *") ai

/-- The arguments of `run_packet_hook`. -/
def pushPacketArgs (sockfd : ℤ) (msg : Addr) (flags : ℤ) (M : Machine) :
    Except Fault (ℤ × Machine) := do
  let (err, M) ← pushCpointer env (pushinteger M sockfd) (literal "struct msghdr *") msg
  pure (err, pushinteger M flags)

namespace SlaveState

variable (ss : SlaveState) (hid : HookId)

/-- `run_socket_hook` -/
def runSocketHook (sockfd : ℤ) (ai : Addr) : Except Fault (ℤ × SlaveState) :=
  runHook al se env ss hid 2 (pushSocketArgs env sockfd ai)

/-- `run_packet_hook` -/
def runPacketHook (sockfd : ℤ) (msg : Addr) (flags : ℤ) : Except Fault (ℤ × SlaveState) :=
  runHook al se env ss hid 3 (pushPacketArgs env sockfd msg flags)

end SlaveState

/-- The calls of `script_slave_socket_hook` and its four siblings, with
their arguments. -/
inductive Invocation
  | socket (sockfd : ℤ) (ai : Addr)
  | close (sockfd : ℤ) (ai : Addr)
  | sendmsg (sockfd : ℤ) (msg : Addr) (flags : ℤ)
  | recvmsg (sockfd : ℤ) (msg : Addr) (flags : ℤ)
  | recverr (sockfd : ℤ) (msg : Addr) (flags : ℤ)

namespace Invocation

/-- The invocation, on a slave. -/
def run : Invocation → SlaveState → Except Fault (ℤ × SlaveState)
  | .socket sockfd ai, ss => ss.runSocketHook al se env .socket sockfd ai
  | .close sockfd ai, ss => ss.runSocketHook al se env .close sockfd ai
  | .sendmsg sockfd msg flags, ss => ss.runPacketHook al se env .sendmsg sockfd msg flags
  | .recvmsg sockfd msg flags, ss => ss.runPacketHook al se env .recvmsg sockfd msg flags
  | .recverr sockfd msg flags, ss => ss.runPacketHook al se env .recverr sockfd msg flags

/-- The hook it is for. -/
def hid : Invocation → HookId
  | .socket .. => .socket
  | .close .. => .close
  | .sendmsg .. => .sendmsg
  | .recvmsg .. => .recvmsg
  | .recverr .. => .recverr

def nargs : Invocation → ℕ
  | .socket .. | .close .. => 2
  | .sendmsg .. | .recvmsg .. | .recverr .. => 3

def pushArgs : Invocation → Machine → Except Fault (ℤ × Machine)
  | .socket sockfd ai | .close sockfd ai => pushSocketArgs env sockfd ai
  | .sendmsg sockfd msg flags | .recvmsg sockfd msg flags | .recverr sockfd msg flags =>
    pushPacketArgs env sockfd msg flags

theorem run_eq (i : Invocation) (ss : SlaveState) :
    i.run al se env ss = ss.runHook al se env i.hid i.nargs (i.pushArgs env) := by
  cases i <;> rfl

/-- The calls into the `ffi` library succeed: where the hook is pushed,
`push_cpointer` returns 0. -/
def FfiSucceeds (i : Invocation) (ss : SlaveState) : Prop :=
  ∀ ss', ss.pushHook al se i.hid = .ok (0, ss') → ∃ M, i.pushArgs env ss'.L = .ok (0, M)

end Invocation

/-- A slave goes through a sequence of invocations, each with what it
meets, and the calls into the `ffi` library succeed. A hook body that
fails ends the program, so these are the runs in which none does. -/
inductive Invoked : SlaveState → List (Env × Invocation) → SlaveState → Prop
  | nil (ss : SlaveState) : Invoked ss [] ss
  | cons {ss ss₁ ss' : SlaveState} {env : Env} {i : Invocation} {is : List (Env × Invocation)}
      {r : ℤ} (ffi : i.FfiSucceeds al se env ss) (run : i.run al se env ss = .ok (r, ss₁))
      (rest : Invoked ss₁ is ss') : Invoked ss ((env, i) :: is) ss'

end Hooks

end Script

end Rushit
