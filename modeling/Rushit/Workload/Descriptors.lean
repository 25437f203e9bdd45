import Rushit.Common.Run
import Rushit.Workload.Model
import Mathlib.Data.List.Basic
/-!
# Who closes what

A worker that passes a descriptor to `close` twice without opening it in
between may hit a descriptor that another thread was given since. With
`tcp_socket_ops` the shutdown does that: a client closes the sockets in
`client_fds` of flows that `delflow` has closed, and a server closes the
listening socket and then deletes its flow. With `udp_socket_ops` only
`delflow` closes. With both, `set_local_host` closes the one socket it has
for every address that it cannot bind, and `do_close` repeats a `close`
that was interrupted. Short of these a descriptor is closed by whoever
owns it (`closed_once_iff`).
-/

namespace Rushit

namespace Workload

variable {ops : SocketOps} {fd f k : ℕ} {held held' : List ℕ} {calls cs : List Call}

/-! ## What a worker holds -/

/-- **The property.** Between two `close` of a descriptor it is opened. -/
def ClosedOnce (calls : List Call) : Prop :=
  ∀ fd later between earlier,
    calls = later ++ .close fd :: between ++ .close fd :: earlier → .opened fd ∈ between

/-- Some descriptor was closed that the worker had opened, and did not
own any more. -/
def Repeats (calls : List Call) : Prop :=
  ∃ fd later earlier, calls = later ++ .close fd :: earlier ∧
    owns earlier fd = false ∧ Call.opened fd ∈ earlier

/-- The descriptors `held` are owned, and so far only what was owned was
closed. -/
structure Holds (held : List ℕ) (calls : List Call) : Prop where
  nodup : held.Nodup
  owned : ∀ fd ∈ held, owns calls fd = true
  closedOnce : ClosedOnce calls

/-- What is owned, and was not before `cs`, was opened in `cs`. -/
theorem opened_of_owns_append (h : owns (cs ++ calls) fd = true) (hnot : owns calls fd = false) :
    Call.opened fd ∈ cs := by
  induction cs with
  | nil => exact absurd (hnot.symm.trans h) Bool.false_ne_true
  | cons c cs ih =>
    cases c with
    | opened f =>
      rcases Bool.or_eq_true_iff.mp h with heq | h
      · rw [eq_of_beq heq]
        exact List.mem_cons_self
      · exact List.mem_cons_of_mem _ (ih h)
    | close f => exact List.mem_cons_of_mem _ (ih (Bool.and_eq_true_iff.mp h).2)

theorem opened_of_owns (h : owns calls fd = true) : Call.opened fd ∈ calls :=
  opened_of_owns_append (by rwa [List.append_nil]) rfl

/-- What was opened and is not owned was closed since. -/
theorem closed_of_not_owns (hopened : Call.opened fd ∈ calls) (h : owns calls fd = false) :
    ∃ between earlier, calls = between ++ .close fd :: earlier ∧ Call.opened fd ∉ between := by
  induction calls with
  | nil => cases hopened
  | cons c calls ih =>
    cases c with
    | opened f =>
      obtain ⟨hne, h⟩ := Bool.or_eq_false_iff.mp h
      have hne : f ≠ fd := by simpa using hne
      obtain ⟨between, earlier, rfl, hnot⟩ := ih (by simpa [hne.symm] using hopened) h
      exact ⟨.opened f :: between, earlier, rfl, by simp [hnot, hne.symm]⟩
    | close f =>
      by_cases hf : f = fd
      · subst hf
        exact ⟨[], calls, rfl, List.not_mem_nil⟩
      · have howns : owns calls fd = false := by simpa [owns, hf] using h
        obtain ⟨between, earlier, rfl, hnot⟩ := ih (by simpa using hopened) howns
        exact ⟨.close f :: between, earlier, rfl, by simp [hnot]⟩

/-- Closing what is not owned any more is closing it twice. -/
theorem Repeats.not_closedOnce (h : Repeats calls) : ¬ ClosedOnce calls := by
  obtain ⟨fd, later, earlier, rfl, howns, hopened⟩ := h
  obtain ⟨between, earlier, rfl, hnot⟩ := closed_of_not_owns hopened howns
  intro hclosed
  exact hnot (hclosed fd later between earlier (by simp))

theorem Holds.start : Holds [] [] where
  nodup := .nil
  owned := by simp
  closedOnce := by
    intro fd later between earlier h
    simp at h

theorem Holds.sublist (h : Holds held calls) (hsub : held'.Sublist held) : Holds held' calls :=
  ⟨h.nodup.sublist hsub, fun fd hfd => h.owned fd (hsub.subset hfd), h.closedOnce⟩

theorem Holds.perm (h : Holds held calls) (hperm : held.Perm held') : Holds held' calls :=
  ⟨hperm.nodup_iff.mp h.nodup, fun fd hfd => h.owned fd (hperm.mem_iff.mpr hfd), h.closedOnce⟩

theorem ClosedOnce.opened (h : ClosedOnce calls) : ClosedOnce (.opened f :: calls) := by
  intro fd later between earlier heq
  cases later with
  | nil => simp at heq
  | cons c later => exact h fd later between earlier (List.cons.inj heq).2

/-- A call that returns a descriptor adds it to what the worker holds. -/
theorem Holds.open (h : Holds held calls) (hfd : owns calls fd = false) :
    Holds (fd :: held) (.opened fd :: calls) where
  nodup := by
    refine List.nodup_cons.mpr ⟨fun hmem => ?_, h.nodup⟩
    rw [h.owned fd hmem] at hfd
    cases hfd
  owned e he := by
    rcases List.mem_cons.mp he with rfl | he
    · simp [owns]
    · simp [owns, h.owned e he]
  closedOnce := h.closedOnce.opened

/-- A `close` of what the worker holds. -/
theorem Holds.close (h : Holds held calls) (hfd : fd ∈ held) :
    Holds (held.erase fd) (.close fd :: calls) where
  nodup := h.nodup.erase fd
  owned e he := by
    obtain ⟨hne, he⟩ := (List.Nodup.mem_erase_iff h.nodup).mp he
    simp [owns, h.owned e he, hne.symm]
  closedOnce := by
    intro e later between earlier heq
    cases later with
    | nil =>
      obtain ⟨hcall, hcalls⟩ := List.cons.inj heq
      obtain rfl := Call.close.inj hcall
      have howns := h.owned fd hfd
      rw [hcalls] at howns
      exact opened_of_owns_append howns (by simp [owns])
    | cons c later => exact h.closedOnce e later between earlier (List.cons.inj heq).2

@[simp] theorem doClose_zero (fd : ℕ) : doClose fd 0 = [.close fd] := rfl

/-- `do_close` of what is not owned any more. -/
theorem Repeats.of_not_owns (howns : owns calls fd = false) (hopened : Call.opened fd ∈ calls) :
    Repeats (doClose fd k ++ calls) :=
  ⟨fd, List.replicate k (.close fd), calls, by simp [doClose, List.replicate_succ'],
    howns, hopened⟩

/-- An interrupted `close` is repeated. -/
theorem Repeats.of_interrupted (howns : owns calls fd = true) (hk : k ≠ 0) :
    Repeats (doClose fd k ++ calls) := by
  obtain ⟨k, rfl⟩ := Nat.exists_eq_succ_of_ne_zero hk
  have hclosed : owns (.close fd :: calls) fd = false := by simp [owns]
  have hopened := List.mem_cons_of_mem (.close fd) (opened_of_owns howns)
  simpa [doClose, List.replicate_succ'] using Repeats.of_not_owns (k := k) hclosed hopened

/-- A `close` makes nothing owned. -/
theorem owns_close_of_not (h : owns calls fd = false) : owns (.close f :: calls) fd = false := by
  simp [owns, h]

theorem tcp_or_udp_close (hops : ops = tcpSocketOps ∨ ops = udpSocketOps) :
    socketClose ops = doClose ∧ ops.close ≠ none ∨
      (socketClose ops = fun _ _ => []) ∧ ops.close = none := by
  rcases hops with rfl | rfl
  · exact .inl ⟨rfl, by simp [tcpSocketOps]⟩
  · exact .inr ⟨rfl, rfl⟩

/-- `do_socket_close` closes the socket where its hook succeeds and the
table has a `close`, and makes no call elsewhere. -/
theorem closes_or_not (hops : ops = tcpSocketOps ∨ ops = udpSocketOps) (hookFails : Bool)
    (fd k : ℕ) :
    hookFails = false ∧ ops.close ≠ none ∧ doSocketClose ops hookFails fd k = doClose fd k ∨
      (hookFails = true ∨ ops.close = none) ∧ doSocketClose ops hookFails fd k = [] := by
  cases hookFails with
  | true => exact .inr ⟨.inl rfl, rfl⟩
  | false =>
    rcases tcp_or_udp_close hops with ⟨hclose, hsome⟩ | ⟨hclose, hnone⟩
    · exact .inl ⟨rfl, hsome, by simp [doSocketClose, hclose]⟩
    · exact .inr ⟨.inr hnone, by simp [doSocketClose, hclose]⟩

/-- A socket whose hook fails is closed where the table has a `close`. -/
theorem Holds.hookFails (hops : ops = tcpSocketOps ∨ ops = udpSocketOps) (h : Holds held calls)
    (hfree : owns calls fd = false) (hok : ops.close = none ∨ k = 0) :
    Holds [] (socketClose ops fd k ++ .opened fd :: calls) := by
  have hopen := h.open hfree
  rcases tcp_or_udp_close hops with ⟨hclose, hsome⟩ | ⟨hclose, -⟩
  · obtain rfl : k = 0 := hok.resolve_left hsome
    rw [hclose]
    exact (hopen.close List.mem_cons_self).sublist (List.nil_sublist _)
  · rw [hclose]
    exact hopen.sublist (List.nil_sublist _)

theorem Repeats.hookFails (hops : ops = tcpSocketOps ∨ ops = udpSocketOps)
    (hok : ¬ (ops.close = none ∨ k = 0)) :
    Repeats (socketClose ops fd k ++ .opened fd :: calls) := by
  obtain ⟨hsome, hk⟩ := not_or.mp hok
  rcases tcp_or_udp_close hops with ⟨hclose, -⟩ | ⟨-, hnone⟩
  · rw [hclose]
    exact .of_interrupted (by simp [owns]) hk
  · exact absurd hnone hsome

/-! ## `run_client` -/

namespace Client

variable {n : ℕ} {s s' t : Client} {l : Label} {ls : List Label}

/-- The condition on a step of `run_client`: it interrupts no `close`,
`set_local_host` closes the socket for one address at most, after which
it cannot be connected, and a socket of `client_fds` is closed only while
its flow is there. -/
def NoRepeat (ops : SocketOps) (s : Client) : Label → Prop
  | .hookFails _ interrupts => ops.close = none ∨ interrupts = 0
  | .bindFails interrupts => interrupts = 0 ∧ s.phase.failures = 0
  | .connect => s.phase.failures = 0
  | .delflow _ interrupts | .closeEpoll interrupts => interrupts = 0
  | .closeSocket hookFails interrupts => hookFails = true ∨ ops.close = none ∨
      interrupts = 0 ∧ ∀ i fd, s.phase = .closing i → s.clientFds[i]? = some fd → fd ∈ s.flows
  | _ => True

/-- A socket that `set_local_host` has closed is not bound, which takes
another thread that was given its number. -/
def BindsOwn (s : Client) : Label → Prop
  | .connect => s.phase.failures = 0
  | _ => True

/-- No flow has been deleted yet. -/
def Phase.settingUp : Phase → Bool
  | .setup | .connecting _ _ => true
  | _ => false

/-- The sockets that are still to be closed at the end. -/
def toClose (s : Client) : List ℕ :=
  match s.phase with
  | .setup | .connecting _ _ | .running => s.clientFds
  | .closing i => s.clientFds.drop i
  | .done => []

/-- What the worker owns and may still close. -/
def live (s : Client) : List ℕ :=
  match s.phase with
  | .setup | .connecting _ (_ + 1) | .running => s.epfd.toList ++ s.flows
  | .connecting fd 0 => s.epfd.toList ++ fd :: s.flows
  | .closing _ => s.epfd.toList ++ s.flows.filter (· ∈ s.toClose)
  | .done => []

/-- What holds of a client as long as it has closed nothing twice. -/
structure Inv (s : Client) : Prop where
  nodup : s.clientFds.Nodup
  opened : ∀ fd ∈ s.clientFds, Call.opened fd ∈ s.calls
  setup : s.phase.settingUp = true → ∀ fd ∈ s.clientFds, fd ∈ s.flows
  holds : Holds s.live s.calls
  /-- A socket that could not be bound is closed. -/
  unbound : ∀ fd k, s.phase = .connecting fd (k + 1) →
    Call.opened fd ∈ s.calls ∧ owns s.calls fd = false
  /-- A flow that was deleted is closed. -/
  gone : ∀ fd ∈ s.toClose, fd ∉ s.flows → owns s.calls fd = false

theorem Inv.start : Inv .start where
  nodup := .nil
  opened := by simp [Client.start]
  setup := by simp [Client.start]
  holds := .start
  unbound := nofun
  gone := by simp [Client.start, toClose]

/-- A socket that could not be bound is closed. -/
theorem Inv.bindFails (h : Inv s) (hphase : s.phase = .connecting fd 0) :
    Inv { s with phase := .connecting fd 1, calls := doClose fd 0 ++ s.calls } := by
  have hholds := h.holds
  simp only [live, hphase] at hholds
  have hmem : fd ∈ s.epfd.toList ++ fd :: s.flows :=
    List.mem_append_right _ List.mem_cons_self
  have hclose := hholds.close hmem
  have hnot : fd ∉ s.epfd.toList := fun hin =>
    (List.nodup_append.mp hholds.nodup).2.2 fd hin fd List.mem_cons_self rfl
  rw [List.erase_append_right _ hnot, List.erase_cons_head] at hclose
  have hsetup := h.setup (by rw [hphase]; rfl)
  refine ⟨h.nodup, fun e he => List.mem_cons_of_mem _ (h.opened e he), fun _ => hsetup,
    hclose, fun e k heq => ?_, fun e he hne => absurd (hsetup e he) hne⟩
  obtain ⟨rfl, -⟩ := Phase.connecting.inj heq
  exact ⟨List.mem_cons_of_mem _ (opened_of_owns (hholds.owned fd hmem)), by simp [owns]⟩

/-- A connection is new, and has a flow. -/
theorem Inv.connect (h : Inv s) (hphase : s.phase = .connecting fd 0) :
    Inv { s with phase := .setup, clientFds := s.clientFds ++ [fd], flows := fd :: s.flows } := by
  have hholds := h.holds
  have hsetup := h.setup (by rw [hphase]; rfl)
  simp only [live, hphase] at hholds
  have hnodup := (List.nodup_append.mp hholds.nodup).2.1
  have hnew : fd ∉ s.clientFds := fun hmem => (List.nodup_cons.mp hnodup).1 (hsetup fd hmem)
  have hopened : Call.opened fd ∈ s.calls :=
    opened_of_owns (hholds.owned fd (List.mem_append_right _ List.mem_cons_self))
  have hflow : ∀ e ∈ s.clientFds ++ [fd], e ∈ fd :: s.flows := by
    intro e he
    rcases List.mem_append.mp he with he | he
    · exact List.mem_cons_of_mem _ (hsetup e he)
    · rw [List.mem_singleton.mp he]
      exact List.mem_cons_self
  refine ⟨?_, fun e he => ?_, fun _ => hflow, hholds, nofun,
    fun e he hne => absurd (hflow e he) hne⟩
  · exact List.nodup_append.mpr ⟨h.nodup, by simp, fun a ha b hb heq => by
      rw [heq, List.mem_singleton.mp hb] at ha; exact hnew ha⟩
  · rcases List.mem_append.mp he with he | he
    · exact h.opened e he
    · rwa [List.mem_singleton.mp he]

/-- A flow that is deleted is closed. -/
theorem Inv.delflow (h : Inv s) (hphase : s.phase = .running) (hfd : fd ∈ s.flows) :
    Inv { s with flows := s.flows.erase fd, calls := doClose fd 0 ++ s.calls } := by
  have hholds := h.holds
  have hgone := h.gone
  simp only [live, toClose, hphase] at hholds hgone
  have hclose := hholds.close (List.mem_append_right s.epfd.toList hfd)
  have hnot : fd ∉ s.epfd.toList := fun hmem =>
    (List.nodup_append.mp hholds.nodup).2.2 fd hmem fd hfd rfl
  rw [List.erase_append_right _ hnot] at hclose
  refine ⟨h.nodup, fun e he => List.mem_cons_of_mem _ (h.opened e he),
    fun hp => absurd (hphase ▸ hp) nofun, by simpa [live, hphase] using hclose,
    fun e k heq => absurd (hphase.symm.trans heq) nofun, ?_⟩
  simp only [toClose, hphase, doClose_zero]
  intro e he hne
  by_cases hef : e = fd
  · subst hef
    simp [owns]
  · exact owns_close_of_not (hgone e he fun hmem => hne ((List.mem_erase_of_ne hef).mpr hmem))

/-- A socket of `client_fds` is closed while its flow is there, or not
at all. -/
theorem Inv.closeSocket {i : ℕ} {hookFails : Bool} (hops : ops = tcpSocketOps ∨ ops = udpSocketOps)
    (h : Inv s) (hphase : s.phase = .closing i) (hfd : s.clientFds[i]? = some fd)
    (hok : NoRepeat ops s (.closeSocket hookFails k)) :
    Inv { s with
      phase := .closing (i + 1), calls := doSocketClose ops hookFails fd k ++ s.calls } := by
  have hholds := h.holds
  have hgone := h.gone
  simp only [live, toClose, hphase] at hholds hgone
  -- `fd` is the first of those still to be closed
  have hdrop : s.clientFds.drop i = fd :: s.clientFds.drop (i + 1) := by
    obtain ⟨hi, rfl⟩ := List.getElem?_eq_some_iff.mp hfd
    exact List.drop_eq_getElem_cons hi
  rw [hdrop] at hholds hgone
  have hfdrop : fd ∉ s.clientFds.drop (i + 1) := by
    have hnodup := h.nodup.sublist (List.drop_sublist i _)
    rw [hdrop] at hnodup
    exact (List.nodup_cons.mp hnodup).1
  have hsub : (s.epfd.toList ++ s.flows.filter (· ∈ s.clientFds.drop (i + 1))).Sublist
      (s.epfd.toList ++ s.flows.filter (· ∈ fd :: s.clientFds.drop (i + 1))) :=
    (List.Sublist.refl _).append (List.monotone_filter_right _ fun e he => by
      simpa using Or.inr (of_decide_eq_true he))
  have hopened := fun e he => List.mem_append_right (doSocketClose ops hookFails fd k)
    (h.opened e he)
  rcases closes_or_not hops hookFails fd k with ⟨hhook, hsome, hcalls⟩ | ⟨-, hcalls⟩
  · -- the socket is closed, and its flow had not been deleted
    obtain ⟨rfl, hlive⟩ := (hok.resolve_left (by simp [hhook])).resolve_left hsome
    have hmem : fd ∈ s.flows.filter (· ∈ fd :: s.clientFds.drop (i + 1)) :=
      List.mem_filter.mpr ⟨hlive i fd hphase hfd, by simp⟩
    have hnot : fd ∉ s.epfd.toList ++ s.flows.filter (· ∈ s.clientFds.drop (i + 1)) := by
      intro hin
      rcases List.mem_append.mp hin with hin | hin
      · exact (List.nodup_append.mp hholds.nodup).2.2 fd hin fd hmem rfl
      · exact hfdrop (by simpa using (List.mem_filter.mp hin).2)
    have hclose := hholds.close (List.mem_append_right s.epfd.toList hmem)
    refine ⟨h.nodup, hopened, nofun, ?_, nofun, fun e he hne => ?_⟩
    · show Holds _ (doSocketClose ops hookFails fd 0 ++ s.calls)
      rw [hcalls]
      have hsub := hsub.erase fd
      rw [List.erase_of_not_mem hnot] at hsub
      exact hclose.sublist hsub
    · show owns (doSocketClose ops hookFails fd 0 ++ s.calls) e = false
      rw [hcalls]
      exact owns_close_of_not (hgone e (List.mem_cons_of_mem _ he) hne)
  · -- it stays open: the hook failed, or there is no `close`
    refine ⟨h.nodup, hopened, nofun, ?_, nofun, fun e he hne => ?_⟩
    · show Holds _ (doSocketClose ops hookFails fd k ++ s.calls)
      rw [hcalls]
      exact hholds.sublist hsub
    · show owns (doSocketClose ops hookFails fd k ++ s.calls) e = false
      rw [hcalls]
      exact hgone e (List.mem_cons_of_mem _ he) hne

/-- **Every step that meets the condition keeps the invariant.** -/
theorem Inv.step (hops : ops = tcpSocketOps ∨ ops = udpSocketOps) (h : Inv s)
    (hs : step n ops s l s') (hok : NoRepeat ops s l) : Inv s' := by
  have hholds := h.holds
  have hgone := h.gone
  cases l with
  | epollCreate fd =>
    obtain ⟨hphase, hepfd, hfree, rfl⟩ := hs
    simp only [live, hphase, hepfd] at hholds
    refine ⟨h.nodup, fun e he => List.mem_cons_of_mem _ (h.opened e he), h.setup, ?_,
      fun e k heq => absurd (hphase.symm.trans heq) nofun, ?_⟩
    · simpa [live, hphase] using hholds.open hfree
    · simp only [toClose, hphase]
      exact fun e he hne => absurd (h.setup (by rw [hphase]; rfl) e he) hne
  | socketOpen fd =>
    obtain ⟨hphase, -, -, hfree, rfl⟩ := hs
    have hsetup := h.setup (by rw [hphase]; rfl)
    simp only [live, hphase] at hholds
    refine ⟨h.nodup, fun e he => List.mem_cons_of_mem _ (h.opened e he), fun _ => hsetup,
      (hholds.open hfree).perm List.perm_middle.symm, nofun,
      fun e he hne => absurd (hsetup e he) hne⟩
  | hookFails fd k =>
    obtain ⟨-, -, -, hfree, rfl⟩ := hs
    exact ⟨h.nodup, fun e he => List.mem_append_right _ (List.mem_cons_of_mem _ (h.opened e he)),
      nofun, hholds.hookFails hops hfree hok, nofun, fun e he => by cases he⟩
  | bindFails k =>
    obtain ⟨fd, failures, hphase, rfl⟩ := hs
    obtain ⟨rfl, hfirst⟩ := hok
    obtain rfl : failures = 0 := by rwa [hphase] at hfirst
    exact h.bindFails hphase
  | connect =>
    obtain ⟨fd, failures, hphase, rfl⟩ := hs
    have hfirst : s.phase.failures = 0 := hok
    obtain rfl : failures = 0 := by rwa [hphase] at hfirst
    exact h.connect hphase
  | ready =>
    obtain ⟨hphase, -, -, rfl⟩ := hs
    simp only [live, toClose, hphase] at hholds hgone
    exact ⟨h.nodup, h.opened, nofun, hholds, nofun, hgone⟩
  | delflow fd k =>
    obtain ⟨hphase, hfd, rfl⟩ := hs
    obtain rfl : k = 0 := hok
    exact h.delflow hphase hfd
  | stop =>
    obtain ⟨hphase, rfl⟩ := hs
    simp only [live, toClose, hphase] at hholds hgone
    refine ⟨h.nodup, h.opened, nofun, ?_, nofun, ?_⟩
    · exact hholds.sublist ((List.Sublist.refl _).append List.filter_sublist)
    · simpa [toClose] using hgone
  | closeSocket hookFails k =>
    obtain ⟨i, fd, hphase, hfd, rfl⟩ := hs
    exact h.closeSocket hops hphase hfd hok
  | closeEpoll k =>
    obtain ⟨epfd, hphase, hepfd, rfl⟩ := hs
    obtain rfl : k = 0 := hok
    simp only [live, hphase, hepfd] at hholds
    exact ⟨h.nodup, fun e he => List.mem_cons_of_mem _ (h.opened e he), nofun,
      (hholds.close List.mem_cons_self).sublist (List.nil_sublist _), nofun,
      fun e he => by cases he⟩
  | exit =>
    obtain rfl := hs
    exact ⟨h.nodup, h.opened, nofun, hholds.sublist (List.nil_sublist _), nofun,
      fun e he => by cases he⟩

/-- A step that does not meet the condition closes something twice, where
a socket that is closed is not bound. -/
theorem Inv.repeats (hops : ops = tcpSocketOps ∨ ops = udpSocketOps) (h : Inv s)
    (hs : Client.step n ops s l s') (hown : BindsOwn s l) (hok : ¬ NoRepeat ops s l) :
    Repeats s'.calls := by
  have hholds := h.holds
  cases l with
  | hookFails fd k =>
    obtain ⟨-, -, -, -, rfl⟩ := hs
    exact .hookFails hops hok
  | bindFails k =>
    obtain ⟨fd, failures, hphase, rfl⟩ := hs
    cases failures with
    | zero =>
      simp only [live, hphase] at hholds
      have howned := hholds.owned fd (List.mem_append_right _ List.mem_cons_self)
      exact .of_interrupted howned fun hk => hok ⟨hk, by rw [hphase]; rfl⟩
    | succ failures =>
      -- the socket was closed for the address before
      obtain ⟨hopened, howns⟩ := h.unbound fd failures hphase
      exact .of_not_owns howns hopened
  | delflow fd k =>
    obtain ⟨hphase, hfd, rfl⟩ := hs
    simp only [live, hphase] at hholds
    exact .of_interrupted (hholds.owned fd (List.mem_append_right _ hfd)) hok
  | closeSocket hookFails k =>
    obtain ⟨i, fd, hphase, hfd, rfl⟩ := hs
    simp only [live, hphase] at hholds
    obtain ⟨hhook, hok⟩ := not_or.mp hok
    obtain ⟨hsome, hok⟩ := not_or.mp hok
    -- otherwise nothing is closed, and nothing repeated
    have hcalls : doSocketClose ops hookFails fd k = doClose fd k := by
      rcases closes_or_not hops hookFails fd k with ⟨-, -, hcalls⟩ | ⟨hwhy, -⟩
      · exact hcalls
      · exact (hwhy.elim hhook hsome).elim
    have hdrop : fd ∈ s.toClose := by
      simp only [toClose, hphase]
      obtain ⟨hi, rfl⟩ := List.getElem?_eq_some_iff.mp hfd
      rw [List.drop_eq_getElem_cons hi]
      exact List.mem_cons_self
    show Repeats (doSocketClose ops hookFails fd k ++ s.calls)
    rw [hcalls]
    -- either the call is interrupted, or the flow has been deleted
    by_cases hlive : fd ∈ s.flows
    · refine .of_interrupted (hholds.owned fd ?_) fun hk => hok ⟨hk, fun j e hj he => ?_⟩
      · exact List.mem_append_right _ (List.mem_filter.mpr ⟨hlive, by simpa using hdrop⟩)
      · obtain rfl := Phase.closing.inj (hphase.symm.trans hj)
        obtain rfl := Option.some.inj (hfd.symm.trans he)
        exact hlive
    · -- the flow was deleted, and its descriptor closed with it
      exact .of_not_owns (h.gone fd hdrop hlive) (h.opened fd (List.mem_of_getElem? hfd))
  | closeEpoll k =>
    obtain ⟨epfd, hphase, hepfd, rfl⟩ := hs
    simp only [live, hphase, hepfd] at hholds
    exact .of_interrupted (hholds.owned epfd List.mem_cons_self) hok
  | connect => exact absurd hown hok
  | epollCreate | socketOpen | ready | stop | exit => exact absurd trivial hok

/-- What was called stays called. -/
theorem calls_suffix (hs : step n ops s l s') : s.calls <:+ s'.calls := by
  cases l with
  | epollCreate => obtain ⟨-, -, -, rfl⟩ := hs; exact List.suffix_cons ..
  | socketOpen => obtain ⟨-, -, -, -, rfl⟩ := hs; exact List.suffix_cons ..
  | bindFails => obtain ⟨_, _, -, rfl⟩ := hs; exact List.suffix_append ..
  | connect => obtain ⟨_, _, -, rfl⟩ := hs; exact List.suffix_refl _
  | hookFails fd k =>
    obtain ⟨-, -, -, -, rfl⟩ := hs
    exact (List.suffix_cons ..).trans (List.suffix_append ..)
  | ready => obtain ⟨-, -, -, rfl⟩ := hs; exact List.suffix_refl _
  | delflow => obtain ⟨-, -, rfl⟩ := hs; exact List.suffix_append ..
  | stop => obtain ⟨-, rfl⟩ := hs; exact List.suffix_refl _
  | closeSocket => obtain ⟨_, _, -, -, rfl⟩ := hs; exact List.suffix_append ..
  | closeEpoll => obtain ⟨_, -, -, rfl⟩ := hs; exact List.suffix_append ..
  | exit => obtain rfl := hs; exact List.suffix_refl _

end Client

/-! ## `run_server` -/

namespace Server

variable {s s' t : Server} {l : Label} {ls : List Label}

/-- The condition on a step of `run_server`: it interrupts no `close`,
and deletes the flow of the listening socket only where
`do_socket_close` has left the socket open. -/
def NoRepeat (ops : SocketOps) (_ : Server) : Label → Prop
  | .hookFails _ interrupts => ops.close = none ∨ interrupts = 0
  | .delflow _ interrupts | .closeEpoll interrupts => interrupts = 0
  | .closeSocket hookFails interrupts => hookFails = true ∨ ops.close = none ∨ interrupts = 0
  | .delListen interrupts => ops.close = none ∧ interrupts = 0
  | _ => True

/-- What the worker owns. -/
def live (ops : SocketOps) (s : Server) : List ℕ :=
  match s.phase with
  | .setup | .running | .closing => s.fdListen.toList ++ (s.epfd.toList ++ s.flows)
  | .delListen => (if ops.close = none then s.fdListen.toList else []) ++ s.epfd.toList
  | .closeEpoll => s.epfd.toList
  | .done => []

/-- What holds of a server as long as it has closed nothing twice. -/
structure Inv (ops : SocketOps) (s : Server) : Prop where
  holds : Holds (s.live ops) s.calls
  /-- The listening socket was closed before its flow is deleted. -/
  gone : s.phase = .delListen → ops.close ≠ none → ∀ fd, s.fdListen = some fd →
    Call.opened fd ∈ s.calls ∧ owns s.calls fd = false

theorem Inv.start : Inv ops .start where
  holds := .start
  gone := nofun

/-- A flow that is deleted is closed. -/
theorem Inv.delflow (h : Inv ops s) (hphase : s.phase = .running) (hfd : fd ∈ s.flows) :
    Inv ops { s with flows := s.flows.erase fd, calls := doClose fd 0 ++ s.calls } := by
  have hholds := h.holds
  simp only [live, hphase] at hholds
  refine ⟨?_, fun hp => absurd (hp.symm.trans hphase) nofun⟩
  have hmem : fd ∈ s.epfd.toList ++ s.flows := List.mem_append_right _ hfd
  have hclose := hholds.close (List.mem_append_right s.fdListen.toList hmem)
  have hnodup := List.nodup_append.mp hholds.nodup
  have hnot : fd ∉ s.fdListen.toList := fun hin => hnodup.2.2 fd hin fd hmem rfl
  have hnot' : fd ∉ s.epfd.toList := fun hin =>
    (List.nodup_append.mp hnodup.2.1).2.2 fd hin fd hfd rfl
  rw [List.erase_append_right _ hnot, List.erase_append_right _ hnot'] at hclose
  simpa [live, hphase] using hclose

/-- The listening socket is closed, or stays for its flow to close. -/
theorem Inv.closeSocket {hookFails : Bool} (hops : ops = tcpSocketOps ∨ ops = udpSocketOps)
    (h : Inv ops s) (hphase : s.phase = .closing) (hfd : s.fdListen = some fd)
    (hok : NoRepeat ops s (.closeSocket hookFails k)) :
    Inv ops { s with
      phase := if hookFails then .done else .delListen
      calls := doSocketClose ops hookFails fd k ++ s.calls } := by
  have hholds := h.holds
  simp only [live, hphase, hfd, Option.toList_some, List.singleton_append] at hholds
  have hepfd : (s.epfd.toList).Sublist (s.epfd.toList ++ s.flows) := List.sublist_append_left ..
  have hopened := opened_of_owns (hholds.owned fd List.mem_cons_self)
  rcases closes_or_not hops hookFails fd k with ⟨rfl, hsome, hcalls⟩ | ⟨hwhy, hcalls⟩
  · -- the listening socket is closed here, and again by `delflow`
    obtain rfl : k = 0 := (hok.resolve_left (by simp)).resolve_left hsome
    have hclose := hholds.close List.mem_cons_self
    rw [List.erase_cons_head] at hclose
    refine ⟨?_, fun _ _ e he => ?_⟩
    · show Holds ((if ops.close = none then _ else _) ++ _) (doSocketClose ops false fd 0 ++ _)
      rw [hcalls, if_neg hsome]
      exact hclose.sublist hepfd
    · obtain rfl := Option.some.inj (hfd.symm.trans he)
      show Call.opened fd ∈ doSocketClose ops false fd 0 ++ _ ∧
        owns (doSocketClose ops false fd 0 ++ _) fd = false
      rw [hcalls]
      exact ⟨List.mem_cons_of_mem _ hopened, by simp [owns]⟩
  · cases hookFails with
    | true => exact ⟨hholds.sublist (List.nil_sublist _), nofun⟩
    | false =>
      have hnone : ops.close = none := hwhy.resolve_left (by simp)
      refine ⟨?_, fun _ hsome => absurd hnone hsome⟩
      show Holds ((if ops.close = none then s.fdListen.toList else []) ++ _)
        (doSocketClose ops false fd k ++ _)
      rw [hcalls, if_pos hnone, hfd]
      exact hholds.sublist ((List.Sublist.refl [fd]).append hepfd)

/-- **Every step that meets the condition keeps the invariant.** -/
theorem Inv.step (hops : ops = tcpSocketOps ∨ ops = udpSocketOps) (h : Inv ops s)
    (hs : step ops s l s') (hok : NoRepeat ops s l) : Inv ops s' := by
  have hholds := h.holds
  cases l with
  | listen fd =>
    obtain ⟨hphase, hnone, hfree, rfl⟩ := hs
    simp only [live, hphase, hnone] at hholds
    refine ⟨?_, fun hp => absurd (hp.symm.trans hphase) nofun⟩
    simpa [live, hphase] using hholds.open hfree
  | hookFails fd k =>
    obtain ⟨-, -, hfree, rfl⟩ := hs
    exact ⟨hholds.hookFails hops hfree hok, nofun⟩
  | epollCreate fd =>
    obtain ⟨hphase, -, hnone, hfree, rfl⟩ := hs
    simp only [live, hphase, hnone] at hholds
    refine ⟨?_, fun hp => absurd (hp.symm.trans hphase) nofun⟩
    simpa [live, hphase] using (hholds.open hfree).perm List.perm_middle.symm
  | ready =>
    obtain ⟨hphase, -, rfl⟩ := hs
    simp only [live, hphase] at hholds
    exact ⟨hholds, nofun⟩
  | accept fd =>
    obtain ⟨hphase, hfree, rfl⟩ := hs
    simp only [live, hphase] at hholds
    refine ⟨?_, fun hp => absurd (hp.symm.trans hphase) nofun⟩
    have hopen := (hholds.open hfree).perm (List.perm_middle.symm.trans
      (List.perm_middle.symm.append_left s.fdListen.toList))
    simpa [live, hphase] using hopen
  | delflow fd k =>
    obtain ⟨hphase, hfd, rfl⟩ := hs
    obtain rfl : k = 0 := hok
    exact h.delflow hphase hfd
  | stop =>
    obtain ⟨hphase, rfl⟩ := hs
    simp only [live, hphase] at hholds
    exact ⟨hholds, nofun⟩
  | closeSocket hookFails k =>
    obtain ⟨fd, hphase, hfd, rfl⟩ := hs
    exact h.closeSocket hops hphase hfd hok
  | delListen k =>
    obtain ⟨fd, hphase, hfd, rfl⟩ := hs
    obtain ⟨hnone, rfl⟩ := hok
    simp only [live, hphase, hfd, hnone, if_pos, Option.toList_some, List.singleton_append]
      at hholds
    have hclose := hholds.close List.mem_cons_self
    rw [List.erase_cons_head] at hclose
    exact ⟨hclose, nofun⟩
  | closeEpoll k =>
    obtain ⟨fd, hphase, hfd, rfl⟩ := hs
    obtain rfl : k = 0 := hok
    simp only [live, hphase, hfd] at hholds
    exact ⟨(hholds.close List.mem_cons_self).sublist (List.nil_sublist _), nofun⟩
  | exit =>
    obtain rfl := hs
    exact ⟨hholds.sublist (List.nil_sublist _), nofun⟩

/-- A step that does not meet the condition closes something twice. -/
theorem Inv.repeats (hops : ops = tcpSocketOps ∨ ops = udpSocketOps) (h : Inv ops s)
    (hs : Server.step ops s l s') (hok : ¬ NoRepeat ops s l) : Repeats s'.calls := by
  have hholds := h.holds
  cases l with
  | hookFails fd k =>
    obtain ⟨-, -, -, rfl⟩ := hs
    exact .hookFails hops hok
  | delflow fd k =>
    obtain ⟨hphase, hfd, rfl⟩ := hs
    simp only [live, hphase] at hholds
    have hmem : fd ∈ s.epfd.toList ++ s.flows := List.mem_append_right _ hfd
    exact .of_interrupted (hholds.owned fd (List.mem_append_right _ hmem)) hok
  | closeSocket hookFails k =>
    obtain ⟨fd, hphase, hfd, rfl⟩ := hs
    simp only [live, hphase, hfd] at hholds
    obtain ⟨hhook, hok⟩ := not_or.mp hok
    obtain ⟨hsome, hk⟩ := not_or.mp hok
    rcases closes_or_not hops hookFails fd k with ⟨-, -, hcalls⟩ | ⟨hwhy, -⟩
    · show Repeats (doSocketClose ops hookFails fd k ++ s.calls)
      rw [hcalls]
      exact .of_interrupted (hholds.owned fd List.mem_cons_self) hk
    · exact (hwhy.elim hhook hsome).elim
  | delListen k =>
    obtain ⟨fd, hphase, hfd, rfl⟩ := hs
    by_cases hnone : ops.close = none
    · simp only [live, hphase, hfd, hnone, if_pos] at hholds
      exact .of_interrupted (hholds.owned fd List.mem_cons_self) fun hk => hok ⟨hnone, hk⟩
    · -- `do_socket_close` has closed the descriptor of the flow
      obtain ⟨hopened, howns⟩ := h.gone hphase hnone fd hfd
      exact .of_not_owns howns hopened
  | closeEpoll k =>
    obtain ⟨fd, hphase, hfd, rfl⟩ := hs
    simp only [live, hphase, hfd] at hholds
    exact .of_interrupted (hholds.owned fd List.mem_cons_self) hok
  | listen | epollCreate | ready | accept | stop | exit => exact absurd trivial hok

/-- What was called stays called. -/
theorem calls_suffix (hs : step ops s l s') : s.calls <:+ s'.calls := by
  cases l with
  | listen => obtain ⟨-, -, -, rfl⟩ := hs; exact List.suffix_cons ..
  | hookFails fd k =>
    obtain ⟨-, -, -, rfl⟩ := hs
    exact (List.suffix_cons ..).trans (List.suffix_append ..)
  | epollCreate => obtain ⟨-, -, -, -, rfl⟩ := hs; exact List.suffix_cons ..
  | ready => obtain ⟨-, -, rfl⟩ := hs; exact List.suffix_refl _
  | accept => obtain ⟨-, -, rfl⟩ := hs; exact List.suffix_cons ..
  | delflow => obtain ⟨-, -, rfl⟩ := hs; exact List.suffix_append ..
  | stop => obtain ⟨-, rfl⟩ := hs; exact List.suffix_refl _
  | closeSocket => obtain ⟨_, -, -, rfl⟩ := hs; exact List.suffix_append ..
  | delListen => obtain ⟨_, -, -, rfl⟩ := hs; exact List.suffix_append ..
  | closeEpoll => obtain ⟨_, -, -, rfl⟩ := hs; exact List.suffix_append ..
  | exit => obtain rfl := hs; exact List.suffix_refl _

end Server

/-! ## Runs -/

theorem ClosedOnce.of_suffix (h : ClosedOnce cs) (hsuf : calls <:+ cs) : ClosedOnce calls := by
  obtain ⟨more, rfl⟩ := hsuf
  intro fd later between earlier heq
  exact h fd (more ++ later) between earlier (by simp [heq])

/-- **A client closes a descriptor once** in every run that meets the
condition; and it closes one twice in every other run, where a socket that
is closed is not bound. -/
theorem Client.closed_once (hops : ops = tcpSocketOps ∨ ops = udpSocketOps) {flows : ℕ}
    {ls : List Client.Label} {s : Client} :
    (Run (Guarded (Client.step flows ops) (Client.NoRepeat ops)) .start ls s →
      ClosedOnce s.calls) ∧
    (Run (Guarded (Client.step flows ops) Client.BindsOwn) .start ls s → ClosedOnce s.calls →
      Run (Guarded (Client.step flows ops) (Client.NoRepeat ops)) .start ls s) := by
  constructor
  · intro hrun
    have h : Client.Inv s := by
      refine hrun.preserves_of_guarded ?_ .start
      exact fun s l s' h hok hs => h.step hops hs hok
    exact h.holds.closedOnce
  · intro hrun hclosed
    have hstep : ∀ s l s', Client.Inv s → Client.NoRepeat ops s l →
        Guarded (Client.step flows ops) Client.BindsOwn s l s' → Client.Inv s' :=
      fun s l s' h hok hs => h.step hops hs.2 hok
    refine ((hrun.good_iff_guarded (fun s => ClosedOnce s.calls) hstep ?_ ?_ ?_ .start).mp
      hclosed).mono ?_
    · exact fun s h => h.holds.closedOnce
    · exact fun s l s' h hok hs => (h.repeats hops hs.2 hs.1 hok).not_closedOnce
    · exact fun s l s' hs h => h.of_suffix (Client.calls_suffix hs.2)
    · exact fun s l s' hs => ⟨hs.1, hs.2.2⟩

/-- **A server closes a descriptor once** in exactly the runs that meet the
condition. -/
theorem Server.closed_once (hops : ops = tcpSocketOps ∨ ops = udpSocketOps)
    {ls : List Server.Label} {s : Server} (hrun : Run (Server.step ops) .start ls s) :
    ClosedOnce s.calls ↔
      Run (Guarded (Server.step ops) (Server.NoRepeat ops)) .start ls s := by
  refine hrun.good_iff_guarded (fun s => ClosedOnce s.calls) (I := Server.Inv ops)
    ?_ ?_ ?_ ?_ .start
  · exact fun s l s' h hok hs => h.step hops hs hok
  · exact fun s h => h.holds.closedOnce
  · exact fun s l s' h hok hs => (h.repeats hops hs hok).not_closedOnce
  · exact fun s l s' hs h => h.of_suffix (Server.calls_suffix hs)

/-- **When every descriptor is closed once**: in the runs of a client that
interrupt no `close`, whose `set_local_host` closes the socket for one
address at most and then does not bind it, and which, with
`tcp_socket_ops`, close no socket at the end whose flow was deleted; and
in the runs of a server that interrupt no `close` and, with
`tcp_socket_ops`, do not come to delete the flow of the listening socket.
These are all such runs, where no client binds a socket that it has
closed. -/
theorem closed_once_iff (hops : ops = tcpSocketOps ∨ ops = udpSocketOps) :
    (∀ flows ls s, Run (Guarded (Client.step flows ops) (Client.NoRepeat ops)) .start ls s →
      ClosedOnce s.calls) ∧
    (∀ flows ls s, Run (Guarded (Client.step flows ops) Client.BindsOwn) .start ls s →
      (ClosedOnce s.calls ↔
        Run (Guarded (Client.step flows ops) (Client.NoRepeat ops)) .start ls s)) ∧
    ∀ ls s, Run (Server.step ops) .start ls s → (ClosedOnce s.calls ↔
      Run (Guarded (Server.step ops) (Server.NoRepeat ops)) .start ls s) :=
  ⟨fun _ _ _ => (Client.closed_once hops).1,
    fun _ _ _ hrun => ⟨(Client.closed_once hops).2 hrun, (Client.closed_once hops).1⟩,
    fun _ _ hrun => Server.closed_once hops hrun⟩

/-- A client whose one flow stays until the end. -/
def keptFlow : List Client.Label :=
  [.epollCreate 4, .socketOpen 5, .connect, .ready, .stop, .closeSocket false 0, .closeEpoll 0]

theorem guarded_keptFlow :
    Run (Guarded (Client.step 1 tcpSocketOps) (Client.NoRepeat tcpSocketOps)) .start keptFlow
      ⟨.done, some 4, [5], [5], [.close 4, .close 5, .opened 5, .opened 4]⟩ := by
  have hlive : ∀ i fd, Client.Phase.closing 0 = .closing i → [5][i]? = some fd → fd ∈ [5] :=
    fun i fd _ hfd => List.mem_of_getElem? hfd
  exact .cons ⟨trivial, rfl, rfl, rfl, rfl⟩ <|
    .cons ⟨trivial, rfl, rfl, by decide, rfl, rfl⟩ <| .cons ⟨rfl, 5, 0, rfl, rfl⟩ <|
    .cons ⟨trivial, rfl, rfl, rfl, rfl⟩ <| .cons ⟨trivial, rfl, rfl⟩ <|
    .cons ⟨.inr (.inr ⟨rfl, hlive⟩), 0, 5, rfl, rfl, rfl⟩ <|
    .cons ⟨rfl, 4, rfl, rfl, rfl⟩ <| .refl _

theorem closed_once_iff_kept : ClosedOnce [.close 4, .close 5, .opened 5, .opened 4] :=
  (closed_once_iff (.inl rfl)).1 1 _ _ guarded_keptFlow

/-- The peer of a client's flow hangs up; a local host has two addresses
that cannot be bound; and any server that stops. -/
theorem closed_twice :
    (¬ ∀ flows ls s, Run (Client.step flows tcpSocketOps) .start ls s → ClosedOnce s.calls) ∧
    (¬ ∀ flows ls s, Run (Client.step flows udpSocketOps) .start ls s → ClosedOnce s.calls) ∧
    ¬ ∀ ls s, Run (Server.step tcpSocketOps) .start ls s → ClosedOnce s.calls := by
  refine ⟨fun hall => ?_, fun hall => ?_, fun hall => ?_⟩
  · have hrun : Run (Client.step 1 tcpSocketOps) .start
        [.epollCreate 4, .socketOpen 5, .connect, .ready, .delflow 5 0, .stop,
          .closeSocket false 0]
        ⟨.closing 1, some 4, [5], [], [.close 5, .close 5, .opened 5, .opened 4]⟩ :=
      .cons ⟨rfl, rfl, rfl, rfl⟩ <| .cons ⟨rfl, rfl, by decide, rfl, rfl⟩ <|
        .cons ⟨5, 0, rfl, rfl⟩ <| .cons ⟨rfl, rfl, rfl, rfl⟩ <|
        .cons ⟨rfl, by decide, rfl⟩ <| .cons ⟨rfl, rfl⟩ <| .cons ⟨0, 5, rfl, rfl, rfl⟩ <| .refl _
    simpa using hall 1 _ _ hrun 5 [] [] _ rfl
  · have hrun : Run (Client.step 1 udpSocketOps) .start
        [.epollCreate 4, .socketOpen 5, .bindFails 0, .bindFails 0]
        ⟨.connecting 5 2, some 4, [], [], [.close 5, .close 5, .opened 5, .opened 4]⟩ :=
      .cons ⟨rfl, rfl, rfl, rfl⟩ <| .cons ⟨rfl, rfl, by decide, rfl, rfl⟩ <|
        .cons ⟨5, 0, rfl, rfl⟩ <| .cons ⟨5, 1, rfl, rfl⟩ <| .refl _
    simpa using hall 1 _ _ hrun 5 [] [] _ rfl
  · have hrun : Run (Server.step tcpSocketOps) .start
        [.listen 4, .epollCreate 5, .ready, .stop, .closeSocket false 0, .delListen 0]
        ⟨.closeEpoll, some 4, some 5, [], [.close 4, .close 4, .opened 5, .opened 4]⟩ :=
      .cons ⟨rfl, rfl, rfl, rfl⟩ <| .cons ⟨rfl, rfl, rfl, rfl, rfl⟩ <| .cons ⟨rfl, rfl, rfl⟩ <|
        .cons ⟨rfl, rfl⟩ <| .cons ⟨4, rfl, rfl, rfl⟩ <| .cons ⟨4, rfl, rfl, rfl⟩ <| .refl _
    simpa using hall _ _ hrun 4 [] [] _ rfl

end Workload

end Rushit
