import Mathlib.Algebra.Group.Nat.Defs
import Mathlib.Data.Nat.Notation
import Mathlib.Logic.Function.Basic
/-!
# The control plane

`control_plane.c`, and what `run_main_thread` of `thread.c` does around
it: the server admits `num_clients` connections that open with the
secret, waits for the magic on each of them and then stops its workers;
a client presents the secret, runs its workers for the length of the
test, joins them and sends the magic.

The server, the clients and any other peers run concurrently; a step is
one call of one of them. A call that fails with `EINTR` or `EAGAIN` is
made again and is no step. `LOG_FATAL` ends the process (`exit`), which
may happen to any of them at any time. Each message is delivered in one
read, as far as the buffer goes.
-/

namespace Rushit

namespace Control

/-- What one `write` puts on a connection. -/
abbrev Message := List UInt8

/-- `control_port_secret`, with its terminating zero. -/
def controlPortSecret : Message :=
  ['n', 'e', 'p', 'e', 'r', ' ', 'c', 'o', 'n', 't', 'r', 'o', 'l', ' ', 'p', 'o', 'r', 't', ' ',
    's', 'e', 'c', 'r', 'e', 't'].map (fun c => UInt8.ofNat c.toNat) ++ [0]

/-- `SECRET_SIZE` -/
def secretSize : ℕ := 26

/-- The size of the buffer of `ctrl_accept`. -/
def bufSize : ℕ := 1024

/-- The `memcmp` of `ctrl_accept`, from what `read` returned. The buffer
was zeroed before, and how much was read is not looked at. -/
def matchesSecret (bytes : Message) : Bool :=
  (bytes ++ List.replicate (bufSize - bytes.length) 0).take secretSize == controlPortSecret

/-- The bytes `send_magic` writes: the 32 bits of the `int` in network
byte order. -/
def sendMagic (magic : UInt32) : Message :=
  [UInt8.ofNat (magic.toNat / 2 ^ 24), UInt8.ofNat (magic.toNat / 2 ^ 16),
    UInt8.ofNat (magic.toNat / 2 ^ 8), UInt8.ofNat magic.toNat]

/-- What `recv_magic` makes of the bytes it read; none is its
`LOG_FATAL` on an incomplete read. -/
def recvMagic : Message → Option UInt32
  | [a, b, c, d] =>
    some (UInt32.ofNat (a.toNat * 2 ^ 24 + b.toNat * 2 ^ 16 + c.toNat * 2 ^ 8 + d.toNat))
  | _ => none

/-! ## Connections -/

inductive Stage
  | unconnected
  /-- In the backlog of the control port. -/
  | queued
  | accepted
  /-- Closed by the server, or dropped from the backlog. -/
  | closed
  deriving DecidableEq

/-- A connection to the control port and what is under way on it, the
message to be read next first. -/
structure Conn where
  stage : Stage
  toServer : List Message
  toPeer : List Message
  /-- The peer has shut down its side, or is gone. -/
  peerDone : Bool

def Conn.start : Conn := ⟨.unconnected, [], [], false⟩

/-- A `read` of up to `size` bytes: what it returns and what is left. It
blocks on an empty connection, unless the other side is done. -/
def readMessage (size : ℕ) (done : Bool) : List Message → Option (Message × List Message)
  | m :: ms => some (m.take size, if m.length ≤ size then ms else m.drop size :: ms)
  | [] => if done then some ([], []) else none

/-! ## The main thread -/

/-- How far `run_main_thread` is. -/
inductive Phase
  /-- Up to the return of `control_plane_start`. -/
  | start
  /-- `start_worker_threads` -/
  | create
  /-- `control_plane_wait_until_done` -/
  | wait
  /-- `stop_worker_threads` -/
  | stop
  /-- `run_worker_threads` is over. -/
  | stopped
  | exited
  deriving DecidableEq

/-- A main thread and its workers, which are numbered. With a script,
`run_worker_threads` is called by `run_cb`, which runs it only once. -/
structure Main where
  phase : Phase
  created : ℕ
  told : ℕ
  ended : List ℕ
  joined : ℕ

def Main.start : Main := ⟨.start, 0, 0, [], 0⟩

inductive Main.Label
  /-- `pthread_create` -/
  | create (w : ℕ)
  /-- `pthread_barrier_wait` returns. -/
  | ready
  /-- `eventfd_write` -/
  | tell (w : ℕ)
  /-- The worker returns. -/
  | ends (w : ℕ)
  /-- `pthread_join` returns. -/
  | join (w : ℕ)
  | stopped
  deriving DecidableEq

/-- `start_worker_threads` and `stop_worker_threads` for `n` workers: all
are told to stop before the first is joined. -/
def Main.step (n : ℕ) (m : Main) (l : Main.Label) (m' : Main) : Prop :=
  match l with
  | .create w => m.phase = .create ∧ w = m.created ∧ w < n ∧ m' = { m with created := w + 1 }
  | .ready => m.phase = .create ∧ m.created = n ∧ m' = { m with phase := .wait }
  | .tell w => m.phase = .stop ∧ w = m.told ∧ w < n ∧ m' = { m with told := w + 1 }
  | .ends w => m.phase ≠ .exited ∧ w < m.told ∧ w ∉ m.ended ∧ m' = { m with ended := w :: m.ended }
  | .join w => m.phase = .stop ∧ m.told = n ∧ w = m.joined ∧ w < n ∧ w ∈ m.ended ∧
      m' = { m with joined := w + 1 }
  | .stopped => m.phase = .stop ∧ m.told = n ∧ m.joined = n ∧ m' = { m with phase := .stopped }

/-! ## A client -/

/-- The options of a client that the control plane reads. -/
structure ClientOptions where
  magic : UInt32
  numThreads : ℕ

/-- How far a client is with its control connection. -/
inductive Client.Ctrl
  | unconnected
  /-- `try_connect` has returned. -/
  | connected
  /-- The secret is written. -/
  | awaiting
  /-- The magic came back: `ctrl_connect` has returned. -/
  | established
  /-- `ctrl_notify_server` has sent the magic. -/
  | notified
  | closed
  deriving DecidableEq

structure Client where
  main : Main
  ctrl : Client.Ctrl

def Client.start : Client := ⟨.start, .unconnected⟩

inductive Client.Label
  | connect
  | writeSecret
  | recvMagic
  | main (l : Main.Label)
  /-- The `sleep` of `control_plane_wait_until_done` is over. -/
  | wake
  | notify
  /-- The `shutdown` of `ctrl_notify_server` and `do_close`. -/
  | close
  | exit
  deriving DecidableEq

/-- A step of a client on its connection. -/
def Client.step (opts : ClientOptions) (listening : Bool) (cl : Client) (conn : Conn)
    (l : Client.Label) (cl' : Client) (conn' : Conn) : Prop :=
  match l with
  | .connect => cl.main.phase = .start ∧ cl.ctrl = .unconnected ∧ listening = true ∧
      conn.stage = .unconnected ∧ cl' = { cl with ctrl := .connected } ∧
      conn' = { conn with stage := .queued }
  | .writeSecret => cl.main.phase = .start ∧ cl.ctrl = .connected ∧
      cl' = { cl with ctrl := .awaiting } ∧
      conn' = { conn with toServer := conn.toServer ++ [controlPortSecret] }
  | .recvMagic => cl.main.phase = .start ∧ cl.ctrl = .awaiting ∧
      ∃ bytes rest magic, readMessage 4 false conn.toPeer = some (bytes, rest) ∧
        Control.recvMagic bytes = some magic ∧
        cl' = (if magic = opts.magic then
            ⟨{ cl.main with phase := .create }, .established⟩
          else { cl with main := { cl.main with phase := .exited } }) ∧
        conn' = { conn with
          toPeer := rest, peerDone := conn.peerDone || (magic ≠ opts.magic) }
  | .main l => conn' = conn ∧ ∃ m', cl.main.step opts.numThreads l m' ∧
      cl' = { cl with main := m' }
  -- `sleep` is over, and the workers are to be stopped
  | .wake => cl.main.phase = .wait ∧ conn' = conn ∧
      cl' = { cl with main := { cl.main with phase := .stop } }
  | .notify => cl.main.phase = .stopped ∧ cl.ctrl = .established ∧
      cl' = { cl with ctrl := .notified } ∧
      conn' = { conn with toServer := conn.toServer ++ [sendMagic opts.magic] }
  | .close => cl.main.phase = .stopped ∧ cl.ctrl = .notified ∧
      cl' = { cl with ctrl := .closed } ∧ conn' = { conn with peerDone := true }
  | .exit => cl' = { cl with main := { cl.main with phase := .exited } } ∧
      conn' = { conn with peerDone := true }

/-! ## The server -/

/-- The options of the server that the control plane reads. -/
structure ServerOptions where
  magic : UInt32
  numClients : ℕ
  numThreads : ℕ

/-- Where the server is in `control_plane_wait_until_done`. -/
inductive Server.Ctrl
  /-- `accept` of `ctrl_accept` -/
  | accept
  /-- `read` of `ctrl_accept` -/
  | read (c : ℕ)
  /-- `send_magic` of `ctrl_accept` -/
  | greet (c : ℕ)
  /-- `ctrl_wait_client` for `client_fds[i]` -/
  | waitClient (i : ℕ)
  deriving DecidableEq

structure Server where
  main : Main
  ctrl : Server.Ctrl
  /-- The control port is open. -/
  listening : Bool
  clientFds : List ℕ
  numIncidents : ℕ

def Server.start : Server := ⟨.start, .accept, false, [], 0⟩

inductive Server.Label
  /-- `ctrl_listen` -/
  | listen
  | accept (c : ℕ)
  /-- `accept` fails with `ECONNABORTED`. -/
  | aborted (c : ℕ)
  /-- The first `read` from a connection fails. -/
  | readError (c : ℕ)
  /-- The first `read` from a connection returns these bytes. -/
  | firstRead (c : ℕ) (bytes : Message)
  | greet (c : ℕ)
  | closePort
  | recvMagic (c : ℕ) (magic : UInt32)
  /-- `control_plane_wait_until_done` returns. -/
  | waitReturns
  | main (l : Main.Label)
  | exit
  deriving DecidableEq

/-- A connection after `do_close` by the server. -/
def Conn.close (conn : Conn) : Conn := { conn with stage := .closed }

/-- `ctrl_accept` after the first read from `c`. -/
def Server.ctrlAccept (srv : Server) (c : ℕ) (bytes : Message) : Server :=
  if matchesSecret bytes then { srv with ctrl := .greet c }
  else { srv with numIncidents := srv.numIncidents + 1, ctrl := .accept }

/-- `ctrl_wait_client` after a magic was received on `client_fds[i]`. -/
def Server.ctrlWaitClient (expect : UInt32) (srv : Server) (i : ℕ) (magic : UInt32) : Server :=
  if magic = expect then { srv with ctrl := .waitClient (i + 1) } else srv

/-- A step of the server; `conn` are the connections. -/
def Server.step (opts : ServerOptions) (srv : Server) (conn : ℕ → Conn) (l : Server.Label)
    (srv' : Server) (conn' : ℕ → Conn) : Prop :=
  match l with
  | .listen => srv.main.phase = .start ∧ conn' = conn ∧
      srv' = { srv with main := { srv.main with phase := .create }, listening := true }
  | .accept c => srv.main.phase = .wait ∧ srv.ctrl = .accept ∧
      srv.clientFds.length < opts.numClients ∧ (conn c).stage = .queued ∧
      srv' = { srv with ctrl := .read c } ∧
      conn' = Function.update conn c { conn c with stage := .accepted }
  | .aborted c => srv.main.phase = .wait ∧ srv.ctrl = .accept ∧ (conn c).stage = .queued ∧
      srv' = srv ∧ conn' = Function.update conn c (conn c).close
  | .readError c => srv.main.phase = .wait ∧ srv.ctrl = .read c ∧
      srv' = { srv with ctrl := .accept } ∧ conn' = Function.update conn c (conn c).close
  | .firstRead c bytes => srv.main.phase = .wait ∧ srv.ctrl = .read c ∧
      ∃ rest, readMessage bufSize (conn c).peerDone (conn c).toServer = some (bytes, rest) ∧
        srv' = srv.ctrlAccept c bytes ∧
        conn' = Function.update conn c { conn c with
          toServer := rest, stage := if matchesSecret bytes then .accepted else .closed }
  | .greet c => srv.main.phase = .wait ∧ srv.ctrl = .greet c ∧
      srv' = { srv with clientFds := srv.clientFds ++ [c], ctrl := .accept } ∧
      conn' = Function.update conn c { conn c with
        toPeer := (conn c).toPeer ++ [sendMagic opts.magic] }
  -- all clients are there: `do_close(fd_listen)`
  | .closePort => srv.main.phase = .wait ∧ srv.ctrl = .accept ∧
      srv.clientFds.length = opts.numClients ∧ conn' = conn ∧
      srv' = { srv with listening := false, ctrl := .waitClient 0 }
  | .recvMagic c magic => srv.main.phase = .wait ∧
      ∃ i bytes rest, srv.ctrl = .waitClient i ∧ srv.clientFds[i]? = some c ∧
        readMessage 4 (conn c).peerDone (conn c).toServer = some (bytes, rest) ∧
        recvMagic bytes = some magic ∧ srv' = srv.ctrlWaitClient opts.magic i magic ∧
        conn' = Function.update conn c { conn c with toServer := rest }
  -- the connections are closed when all have been waited for
  | .waitReturns => srv.main.phase = .wait ∧ srv.ctrl = .waitClient opts.numClients ∧
      srv' = { srv with main := { srv.main with phase := .stop } } ∧
      conn' = fun c => if c ∈ srv.clientFds then (conn c).close else conn c
  | .main l => conn' = conn ∧ ∃ m', srv.main.step opts.numThreads l m' ∧
      srv' = { srv with main := m' }
  | .exit => conn' = conn ∧
      srv' = { srv with main := { srv.main with phase := .exited }, listening := false }

/-! ## All of them together -/

/-- Who takes part: connection `c` is made by a client with these
options, or by some other peer. -/
structure Config where
  server : ServerOptions
  client : ℕ → Option ClientOptions

structure System where
  server : Server
  client : ℕ → Client
  conn : ℕ → Conn

def System.start : System := ⟨.start, fun _ => .start, fun _ => .start⟩

inductive Label
  | server (l : Server.Label)
  | client (c : ℕ) (l : Client.Label)
  /-- Some other peer connects. -/
  | connect (c : ℕ)
  /-- Some other peer writes. -/
  | send (c : ℕ) (m : Message)
  /-- Some other peer shuts down its side. -/
  | hangUp (c : ℕ)
  deriving DecidableEq

/-- **One step** of the server, of a client or of another peer. -/
def step (cfg : Config) (s : System) (l : Label) (s' : System) : Prop :=
  match l with
  | .server l => s.server.step cfg.server s.conn l s'.server s'.conn ∧ s'.client = s.client
  | .client c l => ∃ opts cl' conn', cfg.client c = some opts ∧
      (s.client c).step opts s.server.listening (s.conn c) l cl' conn' ∧
      s' = { s with
        client := Function.update s.client c cl', conn := Function.update s.conn c conn' }
  | .connect c => cfg.client c = none ∧ s.server.listening = true ∧
      (s.conn c).stage = .unconnected ∧
      s' = { s with conn := Function.update s.conn c { s.conn c with stage := .queued } }
  | .send c m => cfg.client c = none ∧ m ≠ [] ∧ (s.conn c).stage ≠ .unconnected ∧
      (s.conn c).peerDone = false ∧
      s' = { s with conn := Function.update s.conn c { s.conn c with
        toServer := (s.conn c).toServer ++ [m] } }
  | .hangUp c => cfg.client c = none ∧
      s' = { s with conn := Function.update s.conn c { s.conn c with peerDone := true } }

/-! ## What a run has seen -/

/-- The connection of a step that is the first read from it, and what
was read. -/
def Label.firstRead? : Label → Option (ℕ × Message)
  | .server (.firstRead c bytes) => some (c, bytes)
  | _ => none

/-- The first reads of a run. -/
def firstReads (ls : List Label) : List (ℕ × Message) := ls.filterMap Label.firstRead?

/-- The connections whose first read matched the secret. -/
def authenticated (ls : List Label) : List ℕ :=
  ((firstReads ls).filter fun r => matchesSecret r.2).map Prod.fst

/-- The connections whose first read did not match it. -/
def rejected (ls : List Label) : List ℕ :=
  ((firstReads ls).filter fun r => !matchesSecret r.2).map Prod.fst

end Control

end Rushit
