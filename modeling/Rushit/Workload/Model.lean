import Mathlib.Data.Nat.Notation
/-!
# The descriptors of a worker

`run_client` and `run_server` of `workload.c`, as far as they open and
close descriptors, with `delflow` of `flow.c` and `do_close` of
`common.c`. The descriptor of a connected socket is recorded twice, in
its flow and in `client_fds`, and that of the listening socket in
`listen_fl` and `fd_listen`.

What the system calls and the script's hooks do is an argument of each
step: the descriptor that a call returns, how often a `close` is
interrupted, whether a hook fails. A descriptor that a call returns is
not one that the worker has open. `process_events` may delete any flow
at any time, and a server's may accept. Where there is a local host,
`set_local_host` of `common.c` may fail to bind the socket to any number
of addresses, and then bind it or not: a socket that it has closed can
only be bound where another thread was given the number. A worker may
stop at any point (`exit`), which is `LOG_FATAL`.
-/

namespace Rushit

namespace Workload

/-- A system call that a worker has made. -/
inductive Call
  /-- A call that returned the new descriptor `fd`. -/
  | opened (fd : ℕ)
  /-- `close(fd)` -/
  | close (fd : ℕ)
  deriving DecidableEq

/-- The worker has opened `fd`, and not passed it to `close` since; the
calls stand with the last one first. -/
def owns : List Call → ℕ → Bool
  | [], _ => false
  | .opened f :: calls, fd => f == fd || owns calls fd
  | .close f :: calls, fd => f != fd && owns calls fd

/-- `do_close`: `close` is called again each time it is interrupted. -/
def doClose (fd interrupts : ℕ) : List Call := List.replicate (interrupts + 1) (.close fd)

/-- `struct socket_ops`, of which only `close` touches descriptors that
exist. -/
structure SocketOps where
  close : Option (ℕ → ℕ → List Call)

def tcpSocketOps : SocketOps := ⟨some doClose⟩

def udpSocketOps : SocketOps := ⟨none⟩

def socketClose (ops : SocketOps) (fd interrupts : ℕ) : List Call :=
  match ops.close with
  | some close => close fd interrupts
  | none => []

/-- `do_socket_close`: a close hook that fails leaves the socket open. -/
def doSocketClose (ops : SocketOps) (hookFails : Bool) (fd interrupts : ℕ) : List Call :=
  if hookFails then [] else socketClose ops fd interrupts

/-! ## `run_client` -/

namespace Client

inductive Phase
  /-- The epoll descriptor and the sockets are being opened. -/
  | setup
  /-- `client_connect` has opened the socket `fd`, and `set_local_host` has
  closed it for `failures` addresses. -/
  | connecting (fd failures : ℕ)
  /-- The loop around `process_events`. -/
  | running
  /-- `client_fds[i]` is to be closed next. -/
  | closing (i : ℕ)
  | done
  deriving DecidableEq

/-- For how many addresses the socket that is being connected was closed. -/
def Phase.failures : Phase → ℕ
  | .connecting _ failures => failures
  | _ => 0

end Client

structure Client where
  phase : Client.Phase
  epfd : Option ℕ
  clientFds : List ℕ
  /-- The descriptors of the flows there are. -/
  flows : List ℕ
  /-- What was called so far, the last call first. -/
  calls : List Call

def Client.start : Client := ⟨.setup, none, [], [], []⟩

namespace Client

inductive Label
  /-- `epoll_create1` -/
  | epollCreate (fd : ℕ)
  /-- `do_socket_open` of `client_connect` -/
  | socketOpen (fd : ℕ)
  /-- `do_socket_open` where the socket hook fails. -/
  | hookFails (fd interrupts : ℕ)
  /-- `set_local_host` cannot bind the socket to an address. -/
  | bindFails (interrupts : ℕ)
  /-- The end of `client_connect`, and `addflow`. -/
  | connect
  | ready
  /-- `process_events` deletes a flow. -/
  | delflow (fd interrupts : ℕ)
  | stop
  /-- `do_socket_close` of `client_fds[i]` -/
  | closeSocket (hookFails : Bool) (interrupts : ℕ)
  /-- `do_close(epfd)` -/
  | closeEpoll (interrupts : ℕ)
  | exit
  deriving DecidableEq

/-- A step of `run_client` for `flows` flows. -/
def step (flows : ℕ) (ops : SocketOps) (s : Client) (l : Label) (s' : Client) : Prop :=
  match l with
  | .epollCreate fd => s.phase = .setup ∧ s.epfd = none ∧ owns s.calls fd = false ∧
      s' = { s with epfd := some fd, calls := .opened fd :: s.calls }
  | .socketOpen fd => s.phase = .setup ∧ s.epfd.isSome ∧ s.clientFds.length < flows ∧
      owns s.calls fd = false ∧ s' = { s with
        phase := .connecting fd 0, calls := .opened fd :: s.calls }
  | .hookFails fd interrupts => s.phase = .setup ∧ s.epfd.isSome ∧ s.clientFds.length < flows ∧
      owns s.calls fd = false ∧ s' = { s with
        phase := .done, calls := socketClose ops fd interrupts ++ .opened fd :: s.calls }
  -- `do_close`, whatever the table of operations is, and on to the next address
  | .bindFails interrupts => ∃ fd failures, s.phase = .connecting fd failures ∧ s' = { s with
      phase := .connecting fd (failures + 1), calls := doClose fd interrupts ++ s.calls }
  | .connect => ∃ fd failures, s.phase = .connecting fd failures ∧ s' = { s with
      phase := .setup, clientFds := s.clientFds ++ [fd], flows := fd :: s.flows }
  | .ready => s.phase = .setup ∧ s.epfd.isSome ∧ s.clientFds.length = flows ∧
      s' = { s with phase := .running }
  -- `client_fds` keeps the number
  | .delflow fd interrupts => s.phase = .running ∧ fd ∈ s.flows ∧
      s' = { s with flows := s.flows.erase fd, calls := doClose fd interrupts ++ s.calls }
  | .stop => s.phase = .running ∧ s' = { s with phase := .closing 0 }
  -- from 0 on, whatever flows there still are
  | .closeSocket hookFails interrupts => ∃ i fd, s.phase = .closing i ∧
      s.clientFds[i]? = some fd ∧ s' = { s with
        phase := .closing (i + 1)
        calls := doSocketClose ops hookFails fd interrupts ++ s.calls }
  | .closeEpoll interrupts => ∃ epfd, s.phase = .closing flows ∧ s.epfd = some epfd ∧
      s' = { s with phase := .done, calls := doClose epfd interrupts ++ s.calls }
  | .exit => s' = { s with phase := .done }

end Client

/-! ## `run_server` -/

namespace Server

inductive Phase
  | setup
  | running
  /-- `do_socket_close(fd_listen)` is next. -/
  | closing
  /-- `delflow(listen_fl)` is next. -/
  | delListen
  /-- `do_close(epfd)` is next. -/
  | closeEpoll
  | done
  deriving DecidableEq

end Server

structure Server where
  phase : Server.Phase
  fdListen : Option ℕ
  epfd : Option ℕ
  /-- The descriptors of the flows of accepted connections. -/
  flows : List ℕ
  /-- What was called so far, the last call first. -/
  calls : List Call

def Server.start : Server := ⟨.setup, none, none, [], []⟩

namespace Server

inductive Label
  /-- `do_socket_open` -/
  | listen (fd : ℕ)
  | hookFails (fd interrupts : ℕ)
  | epollCreate (fd : ℕ)
  | ready
  /-- `server_accept` -/
  | accept (fd : ℕ)
  | delflow (fd interrupts : ℕ)
  | stop
  /-- `do_socket_close(fd_listen)` -/
  | closeSocket (hookFails : Bool) (interrupts : ℕ)
  /-- `delflow(listen_fl)` -/
  | delListen (interrupts : ℕ)
  | closeEpoll (interrupts : ℕ)
  | exit
  deriving DecidableEq

/-- A step of `run_server`. The flows of accepted connections stay when
it ends. -/
def step (ops : SocketOps) (s : Server) (l : Label) (s' : Server) : Prop :=
  match l with
  | .listen fd => s.phase = .setup ∧ s.fdListen = none ∧ owns s.calls fd = false ∧
      s' = { s with fdListen := some fd, calls := .opened fd :: s.calls }
  | .hookFails fd interrupts => s.phase = .setup ∧ s.fdListen = none ∧ owns s.calls fd = false ∧
      s' = { s with
        phase := .done, calls := socketClose ops fd interrupts ++ .opened fd :: s.calls }
  | .epollCreate fd => s.phase = .setup ∧ s.fdListen.isSome ∧ s.epfd = none ∧
      owns s.calls fd = false ∧ s' = { s with epfd := some fd, calls := .opened fd :: s.calls }
  | .ready => s.phase = .setup ∧ s.epfd.isSome ∧ s' = { s with phase := .running }
  | .accept fd => s.phase = .running ∧ owns s.calls fd = false ∧
      s' = { s with flows := fd :: s.flows, calls := .opened fd :: s.calls }
  | .delflow fd interrupts => s.phase = .running ∧ fd ∈ s.flows ∧
      s' = { s with flows := s.flows.erase fd, calls := doClose fd interrupts ++ s.calls }
  | .stop => s.phase = .running ∧ s' = { s with phase := .closing }
  -- a hook that fails ends the thread: `LOG_FATAL`
  | .closeSocket hookFails interrupts => ∃ fd, s.phase = .closing ∧ s.fdListen = some fd ∧
      s' = { s with
        phase := if hookFails then .done else .delListen
        calls := doSocketClose ops hookFails fd interrupts ++ s.calls }
  | .delListen interrupts => ∃ fd, s.phase = .delListen ∧ s.fdListen = some fd ∧
      s' = { s with phase := .closeEpoll, calls := doClose fd interrupts ++ s.calls }
  | .closeEpoll interrupts => ∃ fd, s.phase = .closeEpoll ∧ s.epfd = some fd ∧
      s' = { s with phase := .done, calls := doClose fd interrupts ++ s.calls }
  | .exit => s' = { s with phase := .done }

end Server

end Workload

end Rushit
