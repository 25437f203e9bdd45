import Mathlib.Data.Nat.Notation
/-!
# Binding to one of several addresses

`set_local_host` of `common.c`, as `client_connect` calls it, and
`ctrl_listen` of `control_plane.c`. Both go through the addresses that
`getaddrinfo` returned until one can be bound. `ctrl_listen` opens a
socket for each of them; `set_local_host` closes the only one it was
given when the first address fails, and so the later ones fail as well
(`setLocalHost_meets_iff`).

What `bind` answers for an address on an open socket is part of the
candidate. Where the process ends the run ends.
-/

namespace Rushit

namespace LocalHost

variable {Addr : Type}

/-- A member of the list that `getaddrinfo` returns, with what `bind`
answers for it on an open socket: 0, or the error number. -/
structure Candidate (Addr : Type) where
  addr : Addr
  errno : ℕ
  deriving DecidableEq

/-- The candidate can be bound on an open socket. -/
def Candidate.Bindable (c : Candidate Addr) : Prop := c.errno = 0

instance (c : Candidate Addr) : Decidable c.Bindable := inferInstanceAs (Decidable (c.errno = 0))

/-- What a descriptor stands for. -/
inductive Socket (Addr : Type)
  | unbound
  | bound (addr : Addr)
  | closed
  deriving DecidableEq

/-- `EBADF` -/
def ebadf : ℕ := 9

/-- `EINVAL` -/
def einval : ℕ := 22

/-- `bind`: the error number, and the socket afterwards. -/
def bind (s : Socket Addr) (c : Candidate Addr) : ℕ × Socket Addr :=
  match s with
  | .unbound => (c.errno, if c.errno = 0 then .bound c.addr else .unbound)
  | .bound addr => (einval, .bound addr)
  | .closed => (ebadf, .closed)

/-- `do_close`, after which the descriptor is no socket. -/
def doClose (_ : Socket Addr) : Socket Addr := .closed

/-- How a function ends. -/
inductive Exit
  | returned
  | fatal (msg : String)
  deriving DecidableEq

/-- What a function leaves. -/
structure Outcome (Addr : Type) where
  exit : Exit
  socket : Socket Addr
  /-- The error numbers logged with "bind". -/
  errors : List ℕ
  deriving DecidableEq

/-- The loop of `set_local_host`. -/
def bindFirst (s : Socket Addr) (errors : List ℕ) : List (Candidate Addr) → Outcome Addr
  | [] => ⟨.fatal "Could not bind", s, errors⟩
  | rp :: rest =>
    let (errno, s) := bind s rp
    if errno = 0 then ⟨.returned, s, errors⟩
    else bindFirst (doClose s) (errors ++ [errno]) rest

/-- `set_local_host`, given what `do_getaddrinfo` returns or its fatal
error. -/
def setLocalHost (result : Except String (List (Candidate Addr))) (s : Socket Addr) :
    Outcome Addr :=
  match result with
  | .error msg => ⟨.fatal msg, s, []⟩
  | .ok result => bindFirst s [] result

/-- `client_connect`, where the socket could be opened: `localHost` is
what `set_local_host` finds where there is a local host, and
`connectErrno` what `connect` answers. -/
def clientConnect (localHost : Option (Except String (List (Candidate Addr))))
    (connectErrno : ℕ) : Outcome Addr :=
  let bound := match localHost with
    | some result => setLocalHost result .unbound
    | none => ⟨.returned, .unbound, []⟩
  match bound.exit with
  | .fatal _ => bound
  | .returned => if connectErrno ≠ 0 then { bound with exit := .fatal "socket_connect" } else bound

/-- The loop of `ctrl_listen`, where `socket` succeeds: `s` is the socket
of the previous turn. -/
def listenFirst (s : Socket Addr) (errors : List ℕ) : List (Candidate Addr) → Outcome Addr
  | [] => ⟨.fatal "Could not bind", s, errors⟩
  | rp :: rest =>
    let (errno, s) := bind .unbound rp
    if errno = 0 then ⟨.returned, s, errors⟩
    else listenFirst (doClose s) (errors ++ [errno]) rest

/-- **What binding to one of the candidates should do**: where some
candidate can be bound, return with the socket bound to the first such
one, and fail only where none can. -/
structure Meets (result : List (Candidate Addr)) (o : Outcome Addr) : Prop where
  binds : ∀ c, result.find? (fun c => decide c.Bindable) = some c →
    o.exit = .returned ∧ o.socket = .bound c.addr
  fatal : (∃ msg, o.exit = .fatal msg) → ∀ c ∈ result, ¬ c.Bindable

variable {c : Candidate Addr} {result rest : List (Candidate Addr)} {errors : List ℕ}
  {s : Socket Addr}

theorem bindFirst_nil : bindFirst s errors [] = ⟨.fatal "Could not bind", s, errors⟩ := rfl

theorem bindFirst_of_bindable (h : c.Bindable) :
    bindFirst .unbound errors (c :: rest) = ⟨.returned, .bound c.addr, errors⟩ := by
  have h0 : c.errno = 0 := h
  simp [bindFirst, bind, h0]

theorem bindFirst_of_not_bindable (h : ¬ c.Bindable) :
    bindFirst .unbound errors (c :: rest) = bindFirst .closed (errors ++ [c.errno]) rest := by
  have h0 : c.errno ≠ 0 := h
  simp [bindFirst, bind, h0, doClose]

/-- **Nothing can be bound once the socket is closed.** -/
theorem bindFirst_closed :
    bindFirst .closed errors rest = ⟨.fatal "Could not bind", .closed,
      errors ++ List.replicate rest.length ebadf⟩ := by
  induction rest generalizing errors with
  | nil => simp [bindFirst]
  | cons c rest ih =>
    have hstep : bindFirst .closed errors (c :: rest) =
        bindFirst .closed (errors ++ [ebadf]) rest := by
      simp [bindFirst, bind, ebadf, doClose]
    rw [hstep, ih, List.append_assoc]
    simp [List.replicate_succ]

/-- A function that ends with a fatal error meets its purpose only where
no candidate can be bound. -/
theorem meets_iff_of_fatal {o : Outcome Addr} {msg : String} (h : o.exit = .fatal msg) :
    Meets result o ↔ ∀ c ∈ result, ¬ c.Bindable := by
  constructor
  · exact fun hm => hm.fatal ⟨msg, h⟩
  · intro hnone
    refine ⟨fun c hc => ?_, fun _ => hnone⟩
    have hbind := List.find?_some hc
    rw [decide_eq_true_eq] at hbind
    exact absurd hbind (hnone c (List.mem_of_find?_eq_some hc))

/-- **`set_local_host` does what it is for exactly where the first
candidate can be bound, or none can.** -/
theorem setLocalHost_meets_iff (result : List (Candidate Addr)) :
    Meets result (setLocalHost (.ok result) .unbound) ↔
      (∃ c, result.head? = some c ∧ c.Bindable) ∨ ∀ c ∈ result, ¬ c.Bindable := by
  rw [setLocalHost]
  cases result with
  | nil => simp [meets_iff_of_fatal, bindFirst_nil]
  | cons c rest =>
    by_cases hc : c.Bindable
    · rw [bindFirst_of_bindable hc]
      have hhead : ∃ c', (c :: rest).head? = some c' ∧ c'.Bindable := ⟨c, rfl, hc⟩
      refine iff_of_true ⟨?_, ?_⟩ (.inl hhead)
      · intro c' hc'
        rw [List.find?_cons_of_pos (by simpa using hc)] at hc'
        rw [Option.some.inj hc']
        exact ⟨rfl, rfl⟩
      · rintro ⟨msg, hmsg⟩
        cases hmsg
    · -- the socket is closed before the second candidate
      rw [bindFirst_of_not_bindable hc, bindFirst_closed, meets_iff_of_fatal rfl]
      refine ⟨.inr, ?_⟩
      rintro (⟨c', hc', hbind⟩ | hnone)
      · cases hc'
        exact absurd hbind hc
      · exact hnone

/-- **The second of two addresses is not bound**, although it can be. -/
theorem setLocalHost_fails :
    ¬ Meets [(⟨"::1", 99⟩ : Candidate String), ⟨"127.0.0.1", 0⟩]
      (setLocalHost (.ok [⟨"::1", 99⟩, ⟨"127.0.0.1", 0⟩]) .unbound) := by
  intro h
  have hret := (h.binds ⟨"127.0.0.1", 0⟩ (by decide)).1
  exact absurd hret (by decide)

/-- So a client with such a local host does not start. -/
theorem clientConnect_fatal {connectErrno : ℕ} (hc : ¬ c.Bindable) :
    (clientConnect (some (.ok (c :: rest))) connectErrno).exit = .fatal "Could not bind" := by
  simp [clientConnect, setLocalHost, bindFirst_of_not_bindable hc, bindFirst_closed]

/-- **With a socket for each candidate the purpose is met**, on every list. -/
theorem listenFirst_meets (result : List (Candidate Addr)) (s : Socket Addr) (errors : List ℕ) :
    Meets result (listenFirst s errors result) := by
  induction result generalizing s errors with
  | nil => exact (meets_iff_of_fatal rfl).mpr fun _ hc => nomatch hc
  | cons c rest ih =>
    by_cases hc : c.Bindable
    · have h0 : c.errno = 0 := hc
      have heq : listenFirst s errors (c :: rest) = ⟨.returned, .bound c.addr, errors⟩ := by
        simp [listenFirst, bind, h0]
      rw [heq]
      refine ⟨fun c' hc' => ?_, ?_⟩
      · rw [List.find?_cons_of_pos (by simpa using hc)] at hc'
        rw [Option.some.inj hc']
        exact ⟨rfl, rfl⟩
      · rintro ⟨msg, hmsg⟩
        cases hmsg
    · have h0 : c.errno ≠ 0 := hc
      have heq : listenFirst s errors (c :: rest) =
          listenFirst .closed (errors ++ [c.errno]) rest := by
        simp [listenFirst, bind, h0, doClose]
      have hrest := ih .closed (errors ++ [c.errno])
      rw [heq]
      refine ⟨fun c' hc' => ?_, fun hf c' hc' => ?_⟩
      · rw [List.find?_cons_of_neg (by simpa using hc)] at hc'
        exact hrest.binds c' hc'
      · rcases List.mem_cons.mp hc' with rfl | hc'
        · exact hc
        · exact hrest.fatal hf c' hc'

end LocalHost

end Rushit
