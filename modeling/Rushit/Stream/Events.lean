import Mathlib.Data.Int.Notation
import Mathlib.Data.List.Basic
/-!
# Events of the stream workloads

`process_events` of `tcp_stream.c` and of `udp_stream.c` looks at one
event of a flow at a time and serves up to three directions: it reads,
writes, and reads the error queue. With edge-triggered epoll a direction
is to be served until its call fails, since the edge is not reported
again. Each direction loops for that, but a call that fails ends the
whole event, and `tcp_stream` reads the error queue once
(`drained_iff`).

What the calls return is an argument: the results of the calls made for
an event, in the order in which they are made.
-/

namespace Rushit

namespace Stream

/-- The options the handlers read. -/
structure Options where
  enableRead : Bool
  enableWrite : Bool
  edgeTrigger : Bool
  bufferSize : ℤ

/-- A set of `EPOLLIN`, `EPOLLOUT`, `EPOLLERR` and `EPOLLRDHUP`. -/
structure Mask where
  epollin : Bool
  epollout : Bool
  epollerr : Bool
  epollrdhup : Bool
  deriving DecidableEq

inductive Workload
  | tcp
  | udp
  deriving DecidableEq

/-- `do_read`, `do_write` and `do_readerr`. -/
inductive Direction
  | read
  | write
  | readerr
  deriving DecidableEq

/-- The directions an event has the handler serve. -/
def wanted (opts : Options) (mask : Mask) : Direction → Bool
  | .read => opts.enableRead && mask.epollin
  | .write => opts.enableWrite && mask.epollout
  | .readerr => mask.epollerr

/-- A call of a handler. -/
structure Call where
  dir : Direction
  /-- The length it passes. -/
  len : ℤ
  /-- What it returns. -/
  ret : ℤ
  deriving DecidableEq

/-- What was done for an event. -/
structure Handled where
  deleted : Bool
  calls : List Call
  deriving DecidableEq

/-- How the calls for a direction end. -/
inductive Exit
  /-- A call returned -1. -/
  | failed
  /-- A read returned 0. -/
  | closed
  /-- The handler goes on to the next direction. -/
  | done
  deriving DecidableEq

/-- The calls for one direction: `again` is whether the handler jumps
back after each call, `eof` whether a 0 deletes the flow. None where the
results run out before it is done. -/
def drive (again eof : Bool) : List ℤ → Option (Exit × List ℤ × List ℤ)
  | [] => none
  | r :: results =>
    if r = -1 then some (.failed, [r], results)
    else if eof ∧ r = 0 then some (.closed, [r], results)
    else if again then
      (drive again eof results).map fun (exit, used, rest) => (exit, r :: used, rest)
    else some (.done, [r], results)

/-- One direction of a handler, whose calls pass `len`; `next` are those
that follow. -/
def serve (dir : Direction) (len : ℤ) (wanted again eof : Bool)
    (next : List ℤ → Option Handled) (results : List ℤ) : Option Handled :=
  if wanted then
    match drive again eof results with
    | none => none
    | some (exit, used, rest) =>
      match exit with
      | .failed => some ⟨false, used.map (Call.mk dir len)⟩
      | .closed => some ⟨true, used.map (Call.mk dir len)⟩
      | .done => (next rest).map fun h => ⟨h.deleted, used.map (Call.mk dir len) ++ h.calls⟩
  else next results

/-- The end of the loop body. -/
def finish (_ : List ℤ) : Option Handled := some ⟨false, []⟩

/-- The loop body of `process_events` of `tcp_stream.c` for the event of
a connection. -/
def tcpEvent (opts : Options) (mask : Mask) (results : List ℤ) : Option Handled :=
  if mask.epollrdhup then some ⟨true, []⟩
  else
    serve .read opts.bufferSize (wanted opts mask .read) opts.edgeTrigger true
      (serve .write opts.bufferSize (wanted opts mask .write) opts.edgeTrigger false
        -- `do_readerr` is not repeated
        (serve .readerr opts.bufferSize (wanted opts mask .readerr) false false finish)) results

/-- The loop body of `process_events` of `udp_stream.c`, which keeps the
length in `to_read` and `to_write`. -/
def udpEvent (opts : Options) (mask : Mask) (results : List ℤ) : Option Handled :=
  serve .read opts.bufferSize (wanted opts mask .read) opts.edgeTrigger false
    (serve .write opts.bufferSize (wanted opts mask .write) opts.edgeTrigger false
      (serve .readerr opts.bufferSize (wanted opts mask .readerr) opts.edgeTrigger false finish))
    results

def handleEvent : Workload → Options → Mask → List ℤ → Option Handled
  | .tcp => tcpEvent
  | .udp => udpEvent

/-- The descriptor an event is of. -/
inductive Source
  | stop
  | listen
  | flow
  deriving DecidableEq

structure Event where
  source : Source
  mask : Mask
  /-- What the calls made for it return. -/
  results : List ℤ

/-- `process_events` over the events of one `epoll_wait`: the stop event
ends it, and `tcp_stream` accepts on the listening socket, which
`udp_stream` does not tell apart. -/
def processEvents (w : Workload) (opts : Options) : List Event → Option (List Handled)
  | [] => some []
  | ev :: events =>
    match ev.source, w with
    | .stop, _ => some []
    -- `server_accept`, which makes no call for a flow
    | .listen, .tcp => (processEvents w opts events).map (⟨false, []⟩ :: ·)
    | _, _ => do
      let h ← handleEvent w opts ev.mask ev.results
      let hs ← processEvents w opts events
      some (h :: hs)

/-! ## One direction -/

section Drive

variable {again eof : Bool} {results used rest : List ℤ} {exit : Exit}

/-- An end of file comes before any failure. -/
def EofFirst (results : List ℤ) : Prop :=
  ∃ before after, results = before ++ 0 :: after ∧ -1 ∉ before

/-- A direction that is driven ends with a failure, or with the end of
file where it looks for that. -/
theorem drive_again (h : drive true eof results = some (exit, used, rest)) :
    (exit = .failed ∧ -1 ∈ used ∧ ¬ (eof = true ∧ EofFirst results)) ∨
      (exit = .closed ∧ eof = true ∧ EofFirst results) := by
  induction results generalizing used with
  | nil => cases h
  | cons r results ih =>
    unfold drive at h
    split at h
    · rename_i hr
      subst hr
      simp only [Option.some.injEq, Prod.mk.injEq] at h
      obtain ⟨rfl, rfl, rfl⟩ := h
      refine .inl ⟨rfl, List.mem_cons_self, ?_⟩
      rintro ⟨-, before, after, heq, hnot⟩
      cases before with
      | nil => simp at heq
      | cons b before =>
        rw [← (List.cons.inj heq).1] at hnot
        exact hnot List.mem_cons_self
    · rename_i hr
      split at h
      · rename_i heof
        obtain ⟨heof, rfl⟩ := heof
        simp only [Option.some.injEq, Prod.mk.injEq] at h
        exact .inr ⟨h.1.symm, heof, [], results, rfl, List.not_mem_nil⟩
      · rename_i heof
        simp only [if_pos, Option.map_eq_some_iff, Prod.exists, Prod.mk.injEq] at h
        obtain ⟨exit, used, rest, hdrive, rfl, rfl, rfl⟩ := h
        -- what follows the first result decides
        have hfirst : EofFirst (r :: results) ∧ eof = true ↔ EofFirst results ∧ eof = true := by
          constructor
          · rintro ⟨⟨before, after, heq, hnot⟩, he⟩
            cases before with
            | nil => exact absurd ⟨he, (List.cons.inj heq).1⟩ heof
            | cons b before =>
              exact ⟨⟨before, after, (List.cons.inj heq).2,
                fun hmem => hnot (List.mem_cons_of_mem _ hmem)⟩, he⟩
          · rintro ⟨⟨before, after, rfl, hnot⟩, he⟩
            exact ⟨⟨r :: before, after, rfl, by simpa [Ne.symm hr] using hnot⟩, he⟩
        rcases ih hdrive with ⟨hexit, hmem, hnot⟩ | ⟨hexit, he, hfirst'⟩
        · exact .inl ⟨hexit, List.mem_cons_of_mem _ hmem,
            fun hh => hnot (hfirst.mp hh.symm).symm⟩
        · exact .inr ⟨hexit, he, (hfirst.mpr ⟨hfirst', he⟩).1⟩

/-- A direction that is tried once. -/
theorem drive_once (h : drive false false results = some (exit, used, rest)) :
    ∃ r, results.head? = some r ∧ used = [r] ∧ exit = if r = -1 then .failed else .done := by
  cases results with
  | nil => cases h
  | cons r results =>
    by_cases hr : r = -1 <;> simp only [drive, hr, if_true, if_false, Bool.false_eq_true,
      false_and, Option.some.injEq, Prod.mk.injEq] at h
    · obtain ⟨rfl, rfl, rfl⟩ := h
      exact ⟨r, rfl, by rw [hr], by simp [hr]⟩
    · obtain ⟨rfl, rfl, rfl⟩ := h
      exact ⟨r, rfl, rfl, by simp [hr]⟩

end Drive

/-! ## One event -/

section Event

variable {opts : Options} {mask : Mask} {results used : List ℤ} {h : Handled} {dir : Direction}
variable {next : List ℤ → Option Handled} {eof : Bool} {len : ℤ}

/-- **The property**: the flow is deleted, or each direction that the
event asks for was driven until its call failed. -/
def Drained (opts : Options) (mask : Mask) (h : Handled) : Prop :=
  h.deleted = true ∨ ∀ dir, wanted opts mask dir = true → ∃ len, ⟨dir, len, -1⟩ ∈ h.calls

/-- At most one direction is asked for. -/
def AtMostOne (opts : Options) (mask : Mask) : Prop :=
  ∀ dir dir', wanted opts mask dir = true → wanted opts mask dir' = true → dir = dir'

/-- **The condition**: the event deletes the flow, or asks for one
direction at most, which is not the error queue of a `tcp_stream` flow,
or is and the first read from it fails. -/
def Drains (w : Workload) (opts : Options) (mask : Mask) (results : List ℤ) : Prop :=
  (w = .tcp ∧ (mask.epollrdhup = true ∨ wanted opts mask .read = true ∧ EofFirst results)) ∨
    AtMostOne opts mask ∧
      (w = .tcp → wanted opts mask .readerr = true → results.head? = some (-1))

/-- After a direction that was driven to a failure the others must not
be asked for. -/
theorem drained_iff_atMostOne (hdir : wanted opts mask dir = true) (hused : -1 ∈ used) :
    Drained opts mask ⟨false, used.map (Call.mk dir len)⟩ ↔ AtMostOne opts mask := by
  constructor
  · rintro (hdel | hall) d d' hd hd'
    · cases hdel
    · -- every call was for this direction
      have honly : ∀ e, wanted opts mask e = true → e = dir := by
        intro e he
        obtain ⟨_, hcall⟩ := hall e he
        obtain ⟨r, -, heq⟩ := List.mem_map.mp hcall
        exact (Call.mk.inj heq).1.symm
      rw [honly d hd, honly d' hd']
  · intro hone
    refine .inr fun d hd => ?_
    rw [hone d dir hd hdir]
    exact ⟨len, List.mem_map_of_mem hused⟩

/-- A direction that is asked for and driven. -/
theorem serve_again (h' : serve dir len true true eof next results = some h) :
    (∃ used : List ℤ, -1 ∈ used ∧ h = ⟨false, used.map (Call.mk dir len)⟩ ∧
        ¬ (eof = true ∧ EofFirst results)) ∨
      (h.deleted = true ∧ eof = true ∧ EofFirst results) := by
  rw [serve, if_pos rfl] at h'
  cases hdrive : drive true eof results with
  | none => simp [hdrive] at h'
  | some x =>
    obtain ⟨exit, used, rest⟩ := x
    rcases drive_again hdrive with ⟨rfl, hused, hnot⟩ | ⟨rfl, heof, hfirst⟩
    · simp only [hdrive, Option.some.injEq] at h'
      exact .inl ⟨used, hused, h'.symm, hnot⟩
    · simp only [hdrive, Option.some.injEq] at h'
      exact .inr ⟨by rw [← h'], heof, hfirst⟩

theorem serve_unwanted (dir : Direction) (len : ℤ) (again eof : Bool)
    (next : List ℤ → Option Handled) : serve dir len false again eof next = next := by
  funext results
  simp [serve]

/-- The error queue of `tcp_stream` is read once. -/
theorem serve_once (h' : serve dir len true false false finish results = some h) :
    ∃ r, results.head? = some r ∧ h = ⟨false, [⟨dir, len, r⟩]⟩ := by
  rw [serve, if_pos rfl] at h'
  cases hdrive : drive false false results with
  | none => simp [hdrive] at h'
  | some x =>
    obtain ⟨exit, used, rest⟩ := x
    obtain ⟨r, hr, rfl, rfl⟩ := drive_once hdrive
    refine ⟨r, hr, ?_⟩
    by_cases hfail : r = -1 <;> simp [hdrive, hfail, finish] at h' <;> simp [← h', hfail]

/-- Nothing is asked for. -/
theorem drained_of_none (hnone : ∀ dir, wanted opts mask dir = false) :
    Drained opts mask h ∧ AtMostOne opts mask := by
  constructor
  · exact .inr fun d hd => by rw [hnone d] at hd; cases hd
  · intro d d' hd
    rw [hnone d] at hd
    cases hd

/-- The direction that is driven first is drained, and no other is. -/
theorem serve_drained (hdir : wanted opts mask dir = true)
    (hh : serve dir len true true false next results = some h) :
    Drained opts mask h ↔ AtMostOne opts mask := by
  rcases serve_again hh with ⟨used, hused, rfl, -⟩ | ⟨-, heof, -⟩
  · exact drained_iff_atMostOne hdir hused
  · cases heof

/-- The error queue of `tcp_stream`, where nothing else is asked for. -/
theorem serve_readerr_drained (hr : wanted opts mask .read = false)
    (hw : wanted opts mask .write = false) (he : wanted opts mask .readerr = true)
    (hh : serve .readerr len true false false finish results = some h) :
    Drained opts mask h ↔ AtMostOne opts mask ∧ results.head? = some (-1) := by
  obtain ⟨r, hhead, rfl⟩ := serve_once hh
  have hone : AtMostOne opts mask := by
    intro d d' hd hd'
    cases d <;> cases d' <;> simp_all
  by_cases hfail : r = -1
  · subst hfail
    have hmem : (-1 : ℤ) ∈ [-1] := List.mem_cons_self
    exact iff_of_true ((drained_iff_atMostOne he hmem).mpr hone) ⟨hone, hhead⟩
  · refine iff_of_false ?_ fun hd => hfail (Option.some.inj (hhead.symm.trans hd.2))
    rintro (hdel | hall)
    · cases hdel
    · obtain ⟨_, hcall⟩ := hall _ he
      exact hfail (congrArg Call.ret (List.mem_singleton.mp hcall)).symm

/-- `udp_stream`: the first direction that is asked for is the last. -/
theorem udpEvent_drained (hedge : opts.edgeTrigger = true)
    (hh : udpEvent opts mask results = some h) : Drained opts mask h ↔ AtMostOne opts mask := by
  rw [udpEvent, hedge] at hh
  cases hr : wanted opts mask .read with
  | true =>
    rw [hr] at hh
    exact serve_drained hr hh
  | false =>
    rw [hr, serve_unwanted] at hh
    cases hw : wanted opts mask .write with
    | true =>
      rw [hw] at hh
      exact serve_drained hw hh
    | false =>
      rw [hw, serve_unwanted] at hh
      cases he : wanted opts mask .readerr with
      | true =>
        rw [he] at hh
        exact serve_drained he hh
      | false =>
        have hnone : ∀ dir, wanted opts mask dir = false := by
          intro dir; cases dir <;> assumption
        obtain ⟨hd, hone⟩ := drained_of_none hnone (h := h)
        exact iff_of_true hd hone

/-- `tcp_stream`, where it reads: an end of file deletes the flow. -/
theorem tcpEvent_read_drained (hup : mask.epollrdhup = false) (hr : wanted opts mask .read = true)
    (hh : serve .read len true true true next results = some h) :
    Drained opts mask h ↔ Drains .tcp opts mask results := by
  rcases serve_again hh with ⟨used, hused, rfl, hnot⟩ | ⟨hdel, -, hfirst⟩
  · -- a read has failed, and that is the end of the event
    rw [drained_iff_atMostOne hr hused]
    constructor
    · refine fun hone => .inr ⟨hone, fun _ he => ?_⟩
      cases hone _ _ hr he
    · rintro (⟨-, hdel | hdel⟩ | ⟨hone, -⟩)
      · rw [hup] at hdel; cases hdel
      · exact absurd ⟨rfl, hdel.2⟩ hnot
      · exact hone
  · -- a read has returned 0, and the flow is deleted
    exact iff_of_true (.inl hdel) (.inl ⟨rfl, .inr ⟨hr, hfirst⟩⟩)

/-- `tcp_stream`, where the peer has not hung up. -/
theorem tcpEvent_drained (hedge : opts.edgeTrigger = true) (hup : mask.epollrdhup = false)
    (hh : tcpEvent opts mask results = some h) :
    Drained opts mask h ↔ Drains .tcp opts mask results := by
  simp only [tcpEvent, hup, Bool.false_eq_true, if_false, hedge] at hh
  cases hr : wanted opts mask .read with
  | true =>
    rw [hr] at hh
    exact tcpEvent_read_drained hup hr hh
  | false =>
    rw [hr, serve_unwanted] at hh
    have hdrains : Drains .tcp opts mask results ↔ AtMostOne opts mask ∧
        (wanted opts mask .readerr = true → results.head? = some (-1)) := by
      simp [Drains, hup, hr]
    rw [hdrains]
    cases hw : wanted opts mask .write with
    | true =>
      rw [hw] at hh
      rw [serve_drained hw hh]
      refine ⟨fun hone => ⟨hone, fun he => ?_⟩, And.left⟩
      cases hone _ _ hw he
    | false =>
      rw [hw, serve_unwanted] at hh
      cases he : wanted opts mask .readerr with
      | true =>
        rw [he] at hh
        rw [serve_readerr_drained hr hw he hh]
        exact and_congr_right fun _ => ⟨fun hhead _ => hhead, fun hhead => hhead rfl⟩
      | false =>
        have hnone : ∀ dir, wanted opts mask dir = false := by
          intro dir; cases dir <;> assumption
        obtain ⟨hd, hone⟩ := drained_of_none hnone (h := h)
        exact iff_of_true hd ⟨hone, fun ht => by cases ht⟩

/-- **One event**: in edge-triggered mode every direction that is asked
for is driven until its call fails just if the condition is met. -/
theorem handleEvent_drained_iff {w : Workload} (hedge : opts.edgeTrigger = true)
    (hh : handleEvent w opts mask results = some h) :
    Drained opts mask h ↔ Drains w opts mask results := by
  cases w with
  | tcp =>
    cases hup : mask.epollrdhup with
    | true =>
      simp only [handleEvent, tcpEvent, hup, if_true, Option.some.injEq] at hh
      exact iff_of_true (.inl (by rw [← hh])) (.inl ⟨rfl, .inl hup⟩)
    | false => exact tcpEvent_drained hedge hup hh
  | udp =>
    rw [udpEvent_drained hedge hh]
    simp [Drains]

end Event

/-! ## The calls -/

section Calls

variable {opts : Options} {mask : Mask} {results : List ℤ} {h : Handled} {c : Call}

/-- The calls of a direction return what was to be returned. -/
theorem drive_results {again eof : Bool} {used rest : List ℤ} {exit : Exit}
    (h : drive again eof results = some (exit, used, rest)) : results = used ++ rest := by
  induction results generalizing used with
  | nil => cases h
  | cons r results ih =>
    unfold drive at h
    split_ifs at h
    · obtain ⟨-, rfl, rfl⟩ := h
      rfl
    · obtain ⟨-, rfl, rfl⟩ := h
      rfl
    · obtain ⟨⟨exit', used', rest'⟩, hd, heq⟩ := Option.map_eq_some_iff.mp h
      obtain ⟨-, rfl, rfl⟩ := heq
      rw [ih hd]
      rfl
    · obtain ⟨-, rfl, rfl⟩ := h
      rfl

/-- A call passes the length of the buffer, and returns what was to be
returned. -/
def Call.Of (opts : Options) (results : List ℤ) (c : Call) : Prop :=
  c.len = opts.bufferSize ∧ c.ret ∈ results

/-- **The calls of a direction**, and of those that follow. -/
theorem serve_calls {dir : Direction} {wanted again eof : Bool} {next : List ℤ → Option Handled}
    (hnext : ∀ rest h, next rest = some h → ∀ c ∈ h.calls, c.Of opts rest)
    (results : List ℤ) (h : Handled)
    (hs : serve dir opts.bufferSize wanted again eof next results = some h) :
    ∀ c ∈ h.calls, c.Of opts results := by
  unfold serve at hs
  split at hs
  · cases hd : drive again eof results with
    | none => simp [hd] at hs
    | some r =>
      obtain ⟨exit, used, rest⟩ := r
      have hres := drive_results hd
      have hused : ∀ c ∈ used.map (Call.mk dir opts.bufferSize), c.Of opts results := by
        intro c hc
        obtain ⟨m, hm, rfl⟩ := List.mem_map.mp hc
        rw [hres]
        exact ⟨rfl, List.mem_append_left _ hm⟩
      cases exit with
      | failed =>
        simp only [hd, Option.some.injEq] at hs
        subst hs
        exact hused
      | closed =>
        simp only [hd, Option.some.injEq] at hs
        subst hs
        exact hused
      | done =>
        simp only [hd, Option.map_eq_some_iff] at hs
        obtain ⟨h', hh, rfl⟩ := hs
        intro c hc
        rcases List.mem_append.mp hc with hc | hc
        · exact hused c hc
        · obtain ⟨hlen, hret⟩ := hnext rest h' hh c hc
          rw [hres]
          exact ⟨hlen, List.mem_append_right _ hret⟩
  · exact hnext _ _ hs

/-- No call is made at the end. -/
theorem finish_calls (results : List ℤ) (h : Handled) (hh : finish results = some h) :
    ∀ c ∈ h.calls, c.Of opts results := by
  obtain rfl : ⟨false, []⟩ = h := Option.some.inj hh
  exact fun c hc => absurd hc List.not_mem_nil

/-- **The calls for one event.** -/
theorem handleEvent_calls {w : Workload} (hh : handleEvent w opts mask results = some h) :
    ∀ c ∈ h.calls, c.Of opts results := by
  cases w with
  | tcp =>
    by_cases hup : mask.epollrdhup = true
    · simp only [handleEvent, tcpEvent, if_pos hup, Option.some.injEq] at hh
      subst hh
      exact fun c hc => absurd hc List.not_mem_nil
    · simp only [handleEvent, tcpEvent, if_neg hup] at hh
      exact serve_calls (serve_calls (serve_calls finish_calls)) results h hh
  | udp => exact serve_calls (serve_calls (serve_calls finish_calls)) results h hh

end Calls

/-! ## A batch of events -/

section Batch

variable {w : Workload} {opts : Options} {events : List Event} {hs : List Handled} {i : ℕ}
variable {e ev : Event} {h : Handled}

/-- The events are handled one after the other. -/
theorem processEvents_cons (hstop : e.source ≠ .stop) (hflow : e.source = .listen → w = .udp)
    (hp : processEvents w opts (e :: events) = some hs) :
    ∃ h' hs', handleEvent w opts e.mask e.results = some h' ∧
      processEvents w opts events = some hs' ∧ hs = h' :: hs' := by
  have hbind : processEvents w opts (e :: events) =
      (handleEvent w opts e.mask e.results).bind fun h =>
        (processEvents w opts events).bind fun hs => some (h :: hs) := by
    cases hsrc : e.source with
    | stop => exact absurd hsrc hstop
    | listen =>
      obtain rfl := hflow hsrc
      simp [processEvents, hsrc, bind]
    | flow => simp [processEvents, hsrc, bind]
  rw [hbind] at hp
  obtain ⟨h', hh', hp⟩ := Option.bind_eq_some_iff.mp hp
  obtain ⟨hs', hhs', hp⟩ := Option.bind_eq_some_iff.mp hp
  exact ⟨h', hs', hh', hhs', (Option.some.inj hp).symm⟩

/-- What is left where the event is not one that `server_accept` is for. -/
theorem udp_of_listen (hlisten : ¬ (e.source = .listen ∧ w = .tcp)) :
    e.source = .listen → w = .udp := by
  intro hsrc
  cases w with
  | tcp => exact absurd ⟨hsrc, rfl⟩ hlisten
  | udp => rfl

/-- What `process_events` has done for an event before the stop event is
what the loop body does for it. -/
theorem handled_eq (hp : processEvents w opts events = some hs)
    (hev : events[i]? = some ev) (hh : hs[i]? = some h)
    (hflow : ev.source = .listen → w = .udp) :
    handleEvent w opts ev.mask ev.results = some h := by
  induction events generalizing hs i with
  | nil => simp at hev
  | cons e events ih =>
    by_cases hstop : e.source = .stop
    · simp only [processEvents, hstop, Option.some.injEq] at hp
      simp [← hp] at hh
    by_cases hlisten : e.source = .listen ∧ w = .tcp
    · -- `server_accept`
      obtain ⟨hsrc, rfl⟩ := hlisten
      simp only [processEvents, hsrc, Option.map_eq_some_iff] at hp
      obtain ⟨hs', hp', rfl⟩ := hp
      cases i with
      | zero =>
        obtain rfl : e = ev := by simpa using hev
        cases hflow hsrc
      | succ i => exact ih hp' hev hh
    · obtain ⟨h', hs', hh', hp', rfl⟩ := processEvents_cons hstop (udp_of_listen hlisten) hp
      cases i with
      | zero =>
        obtain rfl : e = ev := by simpa using hev
        obtain rfl : h' = h := by simpa using hh
        exact hh'
      | succ i => exact ih hp' hev hh

/-- **No call passes another length** than that of the buffer. -/
theorem processEvents_len (hp : processEvents w opts events = some hs) :
    ∀ h ∈ hs, ∀ c ∈ h.calls, c.len = opts.bufferSize := by
  induction events generalizing hs with
  | nil =>
    obtain rfl : [] = hs := Option.some.inj hp
    exact fun h hh => absurd hh List.not_mem_nil
  | cons e events ih =>
    by_cases hstop : e.source = .stop
    · simp only [processEvents, hstop, Option.some.injEq] at hp
      subst hp
      exact fun h hh => absurd hh List.not_mem_nil
    by_cases hlisten : e.source = .listen ∧ w = .tcp
    · obtain ⟨hsrc, rfl⟩ := hlisten
      simp only [processEvents, hsrc, Option.map_eq_some_iff] at hp
      obtain ⟨hs', hp', rfl⟩ := hp
      intro h hh c hc
      rcases List.mem_cons.mp hh with rfl | hh
      · exact absurd hc List.not_mem_nil
      · exact ih hp' h hh c hc
    · obtain ⟨h', hs', hh', hp', rfl⟩ := processEvents_cons hstop (udp_of_listen hlisten) hp
      intro h hh c hc
      rcases List.mem_cons.mp hh with rfl | hh
      · exact (handleEvent_calls hh' c hc).1
      · exact ih hp' h hh c hc

/-- **When no edge is lost.** After `process_events` has handled an event
of a flow in edge-triggered mode, the flow is deleted or every direction
asked for was driven until its call failed, just if the event asks for
one direction at most, which is not the error queue of a `tcp_stream`
flow unless the first read from it fails, or deletes the flow. -/
theorem drained_iff (hedge : opts.edgeTrigger = true)
    (hp : processEvents w opts events = some hs) (hev : events[i]? = some ev)
    (hh : hs[i]? = some h) (hflow : ev.source = .listen → w = .udp) :
    Drained opts ev.mask h ↔ Drains w opts ev.mask ev.results :=
  handleEvent_drained_iff hedge (handled_eq hp hev hh hflow)

/-- A flow that only reads, until it would block. -/
theorem drained_iff_reading :
    let reader : Options := ⟨true, false, true, 8⟩
    let mask : Mask := ⟨true, false, false, false⟩
    Drained reader mask ⟨false, [⟨.read, 8, 5⟩, ⟨.read, 8, -1⟩]⟩ ↔
      Drains .tcp reader mask [5, -1] := by
  intro reader mask
  have hp : processEvents .tcp reader [⟨.flow, mask, [5, -1]⟩] =
      some [⟨false, [⟨.read, 8, 5⟩, ⟨.read, 8, -1⟩]⟩] := rfl
  have hev : [Event.mk .flow mask [5, -1]][0]? = some ⟨.flow, mask, [5, -1]⟩ := rfl
  exact drained_iff rfl hp hev rfl (by simp)

end Batch

/-- A flow that both reads and writes is left unwritten, in either
workload, and the error queue of a `tcp_stream` flow is read once. -/
theorem edge_lost :
    let both : Options := ⟨true, true, true, 8⟩
    (∀ w, ∃ h, processEvents w both [⟨.flow, ⟨true, true, false, false⟩, [-1]⟩] = some [h] ∧
      ¬ Drained both ⟨true, true, false, false⟩ h) ∧
    ∃ h, processEvents .tcp both [⟨.flow, ⟨false, false, true, false⟩, [5]⟩] = some [h] ∧
      ¬ Drained both ⟨false, false, true, false⟩ h := by
  refine ⟨fun w => ⟨⟨false, [⟨.read, 8, -1⟩]⟩, ?_, ?_⟩, ⟨false, [⟨.readerr, 8, 5⟩]⟩, rfl, ?_⟩
  · cases w <;> rfl
  · rintro (hdel | hall)
    · cases hdel
    · simpa using hall .write rfl
  · rintro (hdel | hall)
    · cases hdel
    · simpa using hall .readerr rfl

end Stream

end Rushit
