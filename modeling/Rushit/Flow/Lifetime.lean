import Rushit.Flow.System
/-!
# How long a flow lives

Whatever epoll reports, in whatever order the threads go on, and
whatever addresses and descriptors are handed out again: no function
follows a pointer to what is not there, none frees anything twice, and
each event is handled by the flow it was reported for.

`Traced` is a thread with what its pointers stand for, and `Ok` what
keeps each of them good for as long as epoll or the batch of events may
hand it back. What the threads do on memory is then what they do on
values (`refines`), and what is allocated when they have ended is known
(`left_over`).
-/

namespace Rushit

namespace Flow

open Ram (Fault Malloc deref Returns)
open TcpRr (Events FlowState Turn Worker Workers)

variable {W : Workload}

/-- A thread, its flows and where they are, and its samples and where
they are. -/
structure Traced (W : Workload) where
  thread : Thread W
  flows : List (Place × FlowState)
  samples : List ((ℕ × ℕ) × Sample)

namespace Traced

/-- The thread on values. -/
def worker (x : Traced W) : Worker where
  index := x.thread.index
  nextFlowId := x.thread.nextFlowId
  transactions := x.thread.transactions
  samples := x.samples.map Prod.snd
  flows := x.flows.map Prod.snd

/-- What is allocated for the flow of the stop event. -/
def stopCells (t : Thread W) : Cells :=
  t.stopFl.toList.map fun p => ⟨p, .flow (State.blank t.stopEfd)⟩

/-- What is allocated for the flows. -/
def flowsCells (flows : List (Place × FlowState)) : Cells :=
  flows.flatMap fun y => flowCells y.1 y.2

/-- What is allocated for the samples. -/
def samplesCells (x : Traced W) : Cells :=
  if x.thread.phase = .freed then []
  else sampleCells (x.samples.map Prod.fst) (x.samples.map Prod.snd)

/-- What is allocated for the thread. -/
def cells (x : Traced W) : Cells := flowsCells x.flows ++ (samplesCells x ++ stopCells x.thread)

/-- The flow of `y` is there. -/
def Live (x : Traced W) (y : Place × FlowState) : Prop := y ∈ x.flows ∧ y.2.deleted = false

/-- **What keeps the pointers of a thread good.** -/
structure Ok (x : Traced W) : Prop where
  samples : x.thread.phase ≠ .freed → x.thread.samples = head (x.samples.map Prod.fst)
  /-- epoll watches for the stop event and for flows that are there. -/
  epoll : ∀ e ∈ x.thread.epoll, (x.thread.stopFl = some e.ptr ∧ e.fd = x.thread.stopEfd) ∨
    ∃ y, x.Live y ∧ e = ⟨y.1.fd, y.1.flow, y.2.flow.events⟩
  fds : (x.thread.epoll.map Interest.fd).Nodup
  /-- Events that are still to be handled are of flows that are there. -/
  batch : ∀ b ∈ x.thread.batch, x.thread.stopFl = some b.1 ∨
    ∃ y, x.Live y ∧ y.1.flow = b.1 ∧ W.registered y.2.flow.events b.2
  batch_nodup : (x.thread.batch.map Prod.fst).Nodup
  connected : ∀ y ∈ x.flows, y.1.fd ≠ x.thread.stopEfd
  made : W.client → x.thread.made = x.flows.length ∧ x.thread.fdListen = none
  /-- The first flow of a server is that of the listening socket. -/
  listens : ∀ p, x.thread.listenFl = some p → W.client = false ∧ ∃ y ys, x.flows = y :: ys ∧
    y.1.flow = p ∧ y.2.deleted = false ∧ x.thread.fdListen = some y.1.fd ∧
    ∀ y' ∈ ys, y'.1.fd ≠ y.1.fd
  unheard : W.client = false → x.thread.listenFl = none → x.thread.phase = .setup →
    x.flows = [] ∧ x.thread.stopFl = none
  opened : x.thread.phase = .ready ∨ x.thread.phase = .running → x.thread.stopFl.isSome ∧
    (W.client = false → x.thread.listenFl.isSome)
  idle : x.thread.phase = .setup ∨ x.thread.phase = .ready → x.thread.batch = []
  complete : x.thread.phase = .ready → W.client → x.flows.length = W.connections x.thread.index
  ended : x.thread.phase = .done ∨ x.thread.phase = .freed → x.thread.stopFl = none ∧
    (W.client = false → ∃ y ys, x.flows = y :: ys ∧ y.2.deleted = true)

end Traced

open Traced (flowsCells samplesCells stopCells)

variable {x x' : Traced W} {st st' : State} {rest : Cells} {fd id p j : ℕ} {al : Malloc Object}
variable {timeStart : ℚ} {ram : Ram Object} {y y' : Place × FlowState}

/-! ## New flows -/

/-- **A new flow** beside what there is; epoll watches it. -/
theorem newFlow_returns (st : State) {l : Cells} (h : st.ram.Holds l) (al : Malloc Object)
    (fd id : ℕ)
    (bytesToRead bytesToWrite : ℤ) (events : Events) :
    Returns (Thread.newFlow al fd id bytesToRead bytesToWrite events st) fun r =>
      ∃ pl ram, pl.fd = fd ∧
        r = (pl.flow, { st with
          ram := ram
          epoll := ⟨fd, pl.flow, { events with epollrdhup := true }⟩ :: st.epoll }) ∧
        ram.Holds (flowCells pl (TcpRr.addflow id
          ⟨0, bytesToRead, bytesToWrite, 0, { events with epollrdhup := true }⟩) ++ l) := by
  obtain ⟨p, ram₁, hp, hram₁⟩ := malloc_eq h al (.flow (State.blank fd))
  obtain ⟨q, ram₂, hq, hram₂⟩ := malloc_eq (s := { st with ram := ram₁ }) hram₁ al
    (.numlist .create)
  unfold Thread.newFlow
  refine .bind (P := fun r => ∃ ram, r = (p, { st with
        ram := ram, epoll := ⟨fd, p, { events with epollrdhup := true }⟩ :: st.epoll }) ∧
      ram.Holds (⟨q, .numlist .create⟩ :: ⟨p, .flow { State.blank fd with
        id := id, latency := some q }⟩ :: l)) ?_ ?_
  · simp only [State.addflow, hp, hq]
    refine (update_returns (l := [_]) hram₂ _).bind ?_
    rintro _ ⟨ram, rfl, hram⟩
    exact .pure ⟨ram, rfl, hram⟩
  · rintro _ ⟨ram, rfl, hram⟩
    obtain ⟨r, ram₃, hr, hram₃⟩ := malloc_eq (s := { st with
      ram := ram, epoll := ⟨fd, p, { events with epollrdhup := true }⟩ :: st.epoll })
      hram al (.interval 0)
    simp only [hr]
    refine (update_returns (l := [_, _]) hram₃ _).bind ?_
    rintro _ ⟨ram₄, rfl, hram₄⟩
    refine .pure ⟨⟨fd, p, q, r⟩, ram₄, rfl, rfl, ?_⟩
    rw [flowCells_of_live rfl]
    -- the flow stands before its latencies and its interval
    exact hram₄.perm <| (@List.perm_middle _ _ [_, _] _).trans <| .cons _ <| .swap _ _ _

/-! ## What is there -/

/-- Cells of one owner come to the front. -/
theorem perm_front {F A O S T R : Cells} (h : F.Perm (A ++ O)) :
    ((F ++ (S ++ T)) ++ R).Perm (A ++ (S ++ (O ++ (T ++ R)))) := by
  rw [List.append_assoc, List.append_assoc S]
  refine (h.append_right _).trans ?_
  rw [List.append_assoc]
  exact (List.perm_append_comm_assoc _ _ _).append_left _

theorem mem_flowCells (hy : y.2.deleted = false) :
    ⟨y.1.flow, .flow (object y.1 y.2)⟩ ∈ flowCells y.1 y.2 := by
  rw [flowCells_of_live hy]
  exact List.mem_cons_self

theorem mem_cells (hy : x.Live y) : ⟨y.1.flow, .flow (object y.1 y.2)⟩ ∈ x.cells := by
  exact List.mem_append_left _ (List.mem_flatMap.mpr ⟨y, hy.1, mem_flowCells hy.2⟩)

theorem mem_cells_of_stop (hp : x.thread.stopFl = some p) :
    ⟨p, .flow (State.blank x.thread.stopEfd)⟩ ∈ x.cells := by
  refine List.mem_append_right _ (List.mem_append_right _ ?_)
  rw [Traced.stopCells, hp]
  exact List.mem_cons_self

/-- **At the address of a flow there is the flow.** -/
theorem flow_of_live (h : ram.Holds (x.cells ++ rest)) (hy : x.Live y) :
    ram.read Object.flow? y.1.flow = .ok (object y.1 y.2) :=
  h.read (List.mem_append_left _ (mem_cells hy)) rfl

theorem flow_of_stop (h : ram.Holds (x.cells ++ rest)) (hp : x.thread.stopFl = some p) :
    ram.read Object.flow? p = .ok (State.blank x.thread.stopEfd) :=
  h.read (List.mem_append_left _ (mem_cells_of_stop hp)) rfl

/-- Flows that are there have addresses of their own. -/
theorem eq_of_flow (h : ram.Holds (x.cells ++ rest)) (hy : x.Live y) (hy' : x.Live y')
    (heq : y.1.flow = y'.1.flow) : y = y' := by
  have hflows :
      ram.Holds (flowsCells x.flows ++ ((samplesCells x ++ stopCells x.thread) ++ rest)) :=
    h.perm (by rw [Traced.cells, List.append_assoc])
  refine hflows.owner_eq (d := .flow (object y'.1 y'.2)) hy.1 hy'.1 (mem_flowCells hy.2) ?_
  rw [heq]
  exact mem_flowCells hy'.2

/-- The stop event has an address of its own. -/
theorem flow_ne_stop (h : ram.Holds (x.cells ++ rest)) (hx : x.Ok) (hy : x.Live y)
    (hp : x.thread.stopFl = some p) : y.1.flow ≠ p := by
  rintro rfl
  have hobject := h.eq_of_mem (List.mem_append_left _ (mem_cells hy))
    (List.mem_append_left _ (mem_cells_of_stop hp))
  exact hx.connected y hy.1 (congrArg FlowObject.fd (Object.flow.inj hobject))

/-! ## What a thread does -/

/-- What the thread did keeps its pointers good, and is what a thread on
values does, or nothing. -/
def Advances (x : Traced W) (timeStart : ℚ) (rest : Cells) (r : Thread W × State) : Prop :=
  ∃ x' : Traced W, x'.thread = r.1.store r.2 ∧ x'.Ok ∧ r.2.ram.Holds (x'.cells ++ rest) ∧
    x'.thread.phase.early = x.thread.phase.early ∧
    ((x'.worker = x.worker ∧ r.2.timeStart = timeStart) ∨
      ∃ c, x.thread.phase = Workload.Change.phase c ∧
        W.change x.worker timeStart c (x'.worker, r.2.timeStart))

/-- Only the thread changes, and what it has is the same. -/
theorem Advances.same {t : Thread W} (hok : Traced.Ok ⟨t, x.flows, x.samples⟩)
    (h : ram.Holds (x.cells ++ rest)) (hphase : t.phase = .freed ↔ x.thread.phase = .freed)
    (hearly : t.phase.early = x.thread.phase.early)
    (hstop : stopCells t = stopCells x.thread)
    (hworker : t.index = x.thread.index ∧ t.nextFlowId = x.thread.nextFlowId ∧
      t.transactions = x.thread.transactions) :
    Advances x timeStart rest (t, t.state ram timeStart) := by
  refine ⟨⟨t, x.flows, x.samples⟩, rfl, hok, ?_, hearly, .inl ⟨?_, rfl⟩⟩
  · have hcells : Traced.cells ⟨t, x.flows, x.samples⟩ = x.cells := by
      simp only [Traced.cells, samplesCells, hphase, hstop]
    rw [hcells]
    exact h
  · simp [Traced.worker, hworker]

/-- **The flow of the stop event.** -/
theorem addStop_returns (hok : x.Ok) (h : ram.Holds (x.cells ++ rest))
    (hallow : x.thread.Allowed (x.thread.state ram timeStart) (.addStop al)) :
    Returns (x.thread.act (x.thread.state ram timeStart) (.addStop al))
      (Advances x timeStart rest) := by
  obtain ⟨hphase, hstop, hside⟩ := hallow
  obtain ⟨p, ram', hp, hram⟩ := malloc_eq (s := x.thread.state ram timeStart) h al
    (.flow (State.blank x.thread.stopEfd))
  simp only [Thread.act, State.addflowLite, hp]
  refine .pure ⟨⟨{ x.thread with
    stopFl := some p
    epoll := ⟨x.thread.stopEfd, p, ⟨true, false, false⟩⟩ :: x.thread.epoll }, x.flows, x.samples⟩,
    rfl, ?_, ?_, rfl, .inl ⟨rfl, rfl⟩⟩
  · -- until now epoll has watched for flows only
    have hepoll : ∀ e ∈ x.thread.epoll,
        ∃ y, x.Live y ∧ e = ⟨y.1.fd, y.1.flow, y.2.flow.events⟩ := by
      intro e he
      refine (hok.epoll e he).resolve_left fun hleft => ?_
      rw [hstop] at hleft
      exact absurd hleft.1 (by simp)
    have hidle := hok.idle (.inl hphase)
    exact {
      samples := hok.samples
      epoll := by
        intro e he
        rcases List.mem_cons.mp he with rfl | he
        · exact .inl ⟨rfl, rfl⟩
        · exact .inr (hepoll e he)
      fds := by
        refine List.nodup_cons.mpr ⟨fun hmem => ?_, hok.fds⟩
        obtain ⟨e, he, hfd⟩ := List.mem_map.mp hmem
        obtain ⟨y, hy, rfl⟩ := hepoll e he
        exact hok.connected y hy.1 hfd
      batch := by simp [hidle]
      batch_nodup := hok.batch_nodup
      connected := hok.connected
      made := hok.made
      listens := hok.listens
      unheard := by
        intro hserver hlisten
        have hnone : x.thread.listenFl = none := hlisten
        simp [hserver, hnone] at hside
      opened := by
        intro hopen
        simp [hphase] at hopen
      idle := hok.idle
      complete := by simp [hphase]
      ended := by simp [hphase] }
  · have hcells : x.cells = flowsCells x.flows ++ samplesCells x := by
      simp [Traced.cells, stopCells, hstop]
    rw [hcells] at hram
    refine hram.perm (List.perm_middle.symm.trans (.of_eq ?_))
    simp [Traced.cells, stopCells, samplesCells]

/-- What a new flow adds. -/
theorem perm_push (A F M R : Cells) : (A ++ ((F ++ M) ++ R)).Perm (((F ++ A) ++ M) ++ R) := by
  simpa using List.perm_append_comm_assoc A F (M ++ R)

/-- **A new flow keeps the pointers of the others good.** -/
theorem Traced.Ok.push (hok : x.Ok) (pl : Place) (f : FlowState) (made nextFlowId : ℕ)
    (hphase : x.thread.phase = .setup ∨ x.thread.phase = .running) (hfresh : x.thread.Fresh pl.fd)
    (hlive : f.deleted = false) (hmade : W.client → made = x.flows.length + 1)
    (hheard : W.client = false → x.thread.listenFl.isSome) :
    Traced.Ok ⟨{ x.thread with
        epoll := ⟨pl.fd, pl.flow, f.flow.events⟩ :: x.thread.epoll
        made := made
        nextFlowId := nextFlowId }, x.flows ++ [(pl, f)], x.samples⟩ where
  samples := hok.samples
  epoll := by
    intro e he
    rcases List.mem_cons.mp he with rfl | he
    · exact .inr ⟨(pl, f), ⟨List.mem_append_right _ List.mem_cons_self, hlive⟩, rfl⟩
    · refine (hok.epoll e he).imp_right ?_
      rintro ⟨y, hy, rfl⟩
      exact ⟨y, ⟨List.mem_append_left _ hy.1, hy.2⟩, rfl⟩
  fds := List.nodup_cons.mpr ⟨hfresh.2.2, hok.fds⟩
  batch := by
    intro b hb
    refine (hok.batch b hb).imp_right ?_
    rintro ⟨y, hy, hflow, hreg⟩
    exact ⟨y, ⟨List.mem_append_left _ hy.1, hy.2⟩, hflow, hreg⟩
  batch_nodup := hok.batch_nodup
  connected := by
    intro y hy
    rcases List.mem_append.mp hy with hy | hy
    · exact hok.connected y hy
    · rw [List.mem_singleton.mp hy]
      exact hfresh.1
  made hclient := ⟨by rw [List.length_append]; exact hmade hclient, (hok.made hclient).2⟩
  listens := by
    intro p hp
    obtain ⟨hserver, y, ys, hflows, hflow, hdel, hfd, hne⟩ := hok.listens p hp
    refine ⟨hserver, y, ys ++ [(pl, f)], by rw [hflows]; rfl, hflow, hdel, hfd, fun y' hy' => ?_⟩
    rcases List.mem_append.mp hy' with hy' | hy'
    · exact hne y' hy'
    · -- the listening socket is open
      rw [List.mem_singleton.mp hy']
      intro heq
      have heq : pl.fd = y.1.fd := heq
      exact hfresh.2.1 (by rw [heq]; exact hfd)
  unheard hserver hnone := by
    have hsome := hheard hserver
    rw [show x.thread.listenFl = none from hnone] at hsome
    cases hsome
  opened := hok.opened
  idle := hok.idle
  complete hready := by
    rw [show x.thread.phase = .ready from hready] at hphase
    simp at hphase
  ended hend := by
    have hend : x.thread.phase = .done ∨ x.thread.phase = .freed := hend
    rcases hphase with hphase | hphase <;> simp [hphase] at hend

/-- **The flow of the listening socket.** -/
theorem listen_returns (hok : x.Ok) (h : ram.Holds (x.cells ++ rest))
    (hallow : x.thread.Allowed (x.thread.state ram timeStart) (.listen fd al)) :
    Returns (x.thread.act (x.thread.state ram timeStart) (.listen fd al))
      (Advances x timeStart rest) := by
  obtain ⟨hphase, hserver, hnone, hfresh⟩ := hallow
  obtain ⟨hflows, hstop⟩ := hok.unheard hserver hnone hphase
  refine (newFlow_returns (x.thread.state ram timeStart) h al fd x.thread.nextFlowId 0 0
    ⟨true, false, false⟩).bind ?_
  rintro _ ⟨pl, ram', rfl, rfl, hram⟩
  refine .pure ⟨⟨{ x.thread with
      fdListen := some pl.fd
      listenFl := some pl.flow
      nextFlowId := x.thread.nextFlowId + 1
      epoll := ⟨pl.fd, pl.flow, ⟨true, false, true⟩⟩ :: x.thread.epoll },
    [(pl, Workload.listenFlow x.thread.nextFlowId)], x.samples⟩, rfl, ?_, ?_, rfl,
    .inr ⟨.listen, hphase, hserver, by simp [Traced.worker, hflows], ?_⟩⟩
  · -- until now there was nothing to watch
    have hepoll : x.thread.epoll = [] := by
      refine List.eq_nil_iff_forall_not_mem.mpr fun e he => ?_
      rcases hok.epoll e he with hleft | ⟨y, hy, -⟩
      · rw [hstop] at hleft
        exact absurd hleft.1 (by simp)
      · exact absurd hy.1 (by simp [hflows])
    have hidle := hok.idle (.inl hphase)
    exact {
      samples := hok.samples
      epoll := by
        intro e he
        rw [hepoll] at he
        rw [List.mem_singleton.mp he]
        exact .inr ⟨_, ⟨List.mem_singleton_self _, rfl⟩, rfl⟩
      fds := by simp [hepoll]
      batch := by simp [hidle]
      batch_nodup := hok.batch_nodup
      connected := by
        intro y hy
        rw [List.mem_singleton.mp hy]
        exact hfresh.1
      made := by simp [hserver]
      listens := by
        rintro p hp
        obtain rfl := Option.some.inj hp
        exact ⟨hserver, _, [], rfl, rfl, rfl, rfl, by simp⟩
      unheard := by simp
      opened := by
        intro hopen
        simp [hphase] at hopen
      idle := hok.idle
      complete := by simp [hphase]
      ended := by simp [hphase] }
  · have hcells : x.cells = samplesCells x ++ stopCells x.thread := by
      simp [Traced.cells, flowsCells, hflows]
    rw [hcells] at hram
    refine hram.perm (.of_eq ?_)
    simp [Traced.cells, stopCells, samplesCells, flowsCells, Workload.listenFlow]
  · simp [Traced.worker, Workload.number, Workload.push, hflows, Thread.state]

/-- **A connection of `run_client`.** -/
theorem connect_returns (hok : x.Ok) (h : ram.Holds (x.cells ++ rest))
    (hallow : x.thread.Allowed (x.thread.state ram timeStart) (.connect fd al)) :
    Returns (x.thread.act (x.thread.state ram timeStart) (.connect fd al))
      (Advances x timeStart rest) := by
  obtain ⟨hphase, hclient, hstop, hlt, hfresh⟩ := hallow
  obtain ⟨hmade, hnone⟩ := hok.made hclient
  refine (newFlow_returns (x.thread.state ram timeStart) h al fd x.thread.made
    W.bytesToRead W.bytesToWrite W.events).bind ?_
  rintro _ ⟨pl, ram', rfl, rfl, hram⟩
  have hpush := hok.push pl (W.newFlow x.thread.made) (x.thread.made + 1) x.thread.nextFlowId
    (.inl hphase) hfresh rfl (fun _ => by rw [hmade])
    (fun hserver => by rw [hclient] at hserver; cases hserver)
  refine .pure ⟨_, rfl, hpush, ?_, rfl, .inr ⟨.connect, hphase, hclient, ?_, ?_⟩⟩
  · refine hram.perm ((perm_push _ _ _ _).trans (.of_eq ?_))
    simp [Traced.cells, stopCells, samplesCells, flowsCells, Workload.newFlow]
  · simpa [Traced.worker, hmade] using hlt
  · simp [Traced.worker, Workload.push, hmade, Thread.state]

/-- **At the barrier.** -/
theorem ready_returns (hok : x.Ok) (h : ram.Holds (x.cells ++ rest))
    (hallow : x.thread.Allowed (x.thread.state ram timeStart) .ready) :
    Returns (x.thread.act (x.thread.state ram timeStart) .ready) (Advances x timeStart rest) := by
  obtain ⟨hphase, hstop, hmade⟩ := hallow
  refine .pure (Advances.same (t := { x.thread with phase := .ready }) ?_ h ?_ ?_ rfl
    ⟨rfl, rfl, rfl⟩)
  · exact {
      hok with
      samples := fun _ => hok.samples (by simp [hphase])
      unheard := by simp
      opened := by
        refine fun _ => ⟨hstop, fun hserver => ?_⟩
        by_contra hnone
        have hunheard := hok.unheard hserver (by simpa using hnone) hphase
        simp [hunheard.2] at hstop
      idle := fun _ => hok.idle (.inl hphase)
      complete := fun _ hclient => (hok.made hclient).1.symm.trans (hmade hclient)
      ended := by simp }
  · simp [hphase]
  · simp [hphase, Phase.early]

/-- What epoll watches is known by its address. -/
theorem eq_of_ptr {e e' : Interest} (hok : x.Ok) (h : ram.Holds (x.cells ++ rest))
    (he : e ∈ x.thread.epoll) (he' : e' ∈ x.thread.epoll) (hptr : e.ptr = e'.ptr) : e = e' := by
  rcases hok.epoll e he with ⟨hp, hfd⟩ | ⟨y, hy, rfl⟩ <;>
    rcases hok.epoll e' he' with ⟨hp', hfd'⟩ | ⟨y', hy', rfl⟩
  · exact List.inj_on_of_nodup_map hok.fds he he' (hfd.trans hfd'.symm)
  · exact absurd hptr.symm (flow_ne_stop h hok hy' hp)
  · exact absurd hptr (flow_ne_stop h hok hy hp')
  · rw [eq_of_flow h hy hy' hptr]

/-- **`epoll_wait`** hands back flows that are there. -/
theorem wait_returns {batch : List (ℕ × W.Mask)} (hok : x.Ok) (h : ram.Holds (x.cells ++ rest))
    (hallow : x.thread.Allowed (x.thread.state ram timeStart) (.wait batch)) :
    Returns (x.thread.act (x.thread.state ram timeStart) (.wait batch))
      (Advances x timeStart rest) := by
  obtain ⟨hphase, -, -, es, hnodup, hes, rfl⟩ := hallow
  refine .pure (Advances.same (t := { x.thread with batch := _ }) ?_ h .rfl rfl rfl
    ⟨rfl, rfl, rfl⟩)
  exact {
    hok with
    batch := by
      intro b hb
      obtain ⟨e, he, rfl⟩ := List.mem_map.mp hb
      obtain ⟨hmem, hreg⟩ := hes e he
      rcases hok.epoll e.1 hmem with ⟨hp, -⟩ | ⟨y, hy, heq⟩
      · exact .inl hp
      · rw [heq] at hreg ⊢
        exact .inr ⟨y, hy, rfl, hreg⟩
    batch_nodup := by
      have hptr : (es.map fun e => (e.1.ptr, e.2)).map Prod.fst =
          (es.map Prod.fst).map Interest.ptr := by
        simp
      show (List.map _ (List.map _ es)).Nodup
      rw [hptr]
      refine hnodup.map_on fun e he e' he' heq => ?_
      obtain ⟨⟨_, m⟩, hm, rfl⟩ := List.mem_map.mp he
      obtain ⟨⟨_, m'⟩, hm', rfl⟩ := List.mem_map.mp he'
      exact eq_of_ptr hok h (hes _ hm).1 (hes _ hm').1 heq
    idle := by simp [hphase] }

/-- **A descriptor that epoll forgets.** -/
theorem forget_returns (hok : x.Ok) (h : ram.Holds (x.cells ++ rest)) (fd : ℕ) :
    Returns (x.thread.act (x.thread.state ram timeStart) (.forget fd))
      (Advances x timeStart rest) := by
  refine .pure (Advances.same
    (t := { x.thread with epoll := x.thread.epoll.filter fun e => e.fd ≠ fd }) ?_ h .rfl rfl
    rfl ⟨rfl, rfl, rfl⟩)
  exact {
    hok with
    epoll := fun e he => hok.epoll e (List.mem_of_mem_filter he)
    fds := hok.fds.sublist (List.filter_sublist.map _) }

/-! ## Events -/

/-- Some events are off the batch. -/
theorem Traced.Ok.skip (hok : x.Ok) (batch : List (ℕ × W.Mask))
    (hsub : batch.Sublist x.thread.batch) :
    Traced.Ok ⟨{ x.thread with batch := batch }, x.flows, x.samples⟩ :=
  { hok with
    batch := fun b hb => hok.batch b (hsub.subset hb)
    batch_nodup := hok.batch_nodup.sublist (hsub.map _)
    idle := fun hphase => by
      have hnil := hok.idle hphase
      rw [hnil] at hsub
      exact List.sublist_nil.mp hsub }

/-- **`server_accept`** -/
theorem accept_returns {accepted : Option ℕ} (hok : x.Ok) (h : ram.Holds (x.cells ++ rest))
    (hphase : x.thread.phase = .running)
    (hfresh : ∀ fd, accepted = some fd → x.thread.Fresh fd) (hserver : W.client = false)
    (haccepts : W.accepts) (hheard : x.thread.listenFl.isSome) :
    Returns (x.thread.accept accepted al (x.thread.state ram timeStart))
      (Advances x timeStart rest) := by
  cases accepted with
  | none => exact .pure (Advances.same hok h .rfl rfl rfl ⟨rfl, rfl, rfl⟩)
  | some fd =>
    refine (newFlow_returns (x.thread.state ram timeStart) h al fd x.thread.nextFlowId
      W.bytesToRead W.bytesToWrite W.events).bind ?_
    rintro _ ⟨pl, ram', rfl, rfl, hram⟩
    have hpush := hok.push pl (W.newFlow x.thread.nextFlowId) x.thread.made
      (x.thread.nextFlowId + 1) (.inr hphase)
      (hfresh _ rfl) rfl
      (fun hclient => by rw [hclient] at hserver; cases hserver) (fun _ => hheard)
    refine .pure ⟨_, rfl, hpush, ?_, rfl, .inr ⟨.accept, hphase, hserver, haccepts, ?_, ?_⟩⟩
    · refine hram.perm ((perm_push _ _ _ _).trans (.of_eq ?_))
      simp [Traced.cells, stopCells, samplesCells, flowsCells, Workload.newFlow]
    · -- the flow of the listening socket is there
      obtain ⟨p, hp⟩ := Option.isSome_iff_exists.mp hheard
      obtain ⟨-, y, ys, hflows, -⟩ := hok.listens p hp
      simp [Traced.worker, hflows]
    · simp [Traced.worker, Workload.push, Workload.number, Thread.state]

/-- An element that is not the one replaced stays. -/
theorem mem_set_of_ne {α : Type} {l : List α} {a b c : α} (ha : a ∈ l) (hb : l[j]? = some b)
    (hne : a ≠ b) : a ∈ l.set j c := by
  obtain ⟨k, hk⟩ := List.mem_iff_getElem?.mp ha
  have hjk : j ≠ k := by
    rintro rfl
    exact hne (Option.some.inj (hk.symm.trans hb))
  exact List.mem_of_getElem? ((List.getElem?_set_ne hjk).trans hk)

/-- **The flow and the samples of a thread, taken out of its cells.** -/
theorem local_of_cells (hok : x.Ok) (h : ram.Holds (x.cells ++ rest)) (hy : x.flows[j]? = some y)
    (hlive : y.2.deleted = false) (hphase : x.thread.phase ≠ .freed) (timeStart : ℚ) :
    ∃ others, (∀ y', (flowsCells (x.flows.set j y')).Perm (flowCells y'.1 y'.2 ++ others)) ∧
      Local y.1.flow y.1.fd y.1.itv (others ++ (stopCells x.thread ++ rest)) x.thread.epoll
        (x.thread.state ram timeStart)
        ⟨y.2, x.thread.transactions, x.samples.map Prod.snd, timeStart⟩ := by
  have hmem : x.Live y := ⟨List.mem_of_getElem? hy, hlive⟩
  obtain ⟨others, hperm, hset⟩ := Ram.exists_perm_flatMap_set
    (fun y : Place × FlowState => flowCells y.1 y.2) hy
  refine ⟨others, hset, ⟨y.1.latency, x.samples.map Prod.fst, by simp, hok.samples hphase, ?_⟩,
    rfl, rfl, fun e he hp => ?_, fun e he _ => he, hok.fds⟩
  · have hcells : x.cells = flowsCells x.flows ++
        (sampleCells (x.samples.map Prod.fst) (x.samples.map Prod.snd) ++ stopCells x.thread) := by
      simp [Traced.cells, samplesCells, hphase]
    rw [hcells] at h
    exact h.perm (perm_front hperm)
  · rcases hok.epoll e he with ⟨hstop, -⟩ | ⟨y', hy', rfl⟩
    · exact absurd hp.symm (flow_ne_stop h hok hmem hstop)
    · obtain rfl := eq_of_flow h hy' hmem hp
      exact ⟨rfl, rfl, hlive⟩

/-- **After its event** the flow is where it was, or gone, and nothing
else has changed. -/
theorem Traced.Ok.turn {t : Turn} {places : List (ℕ × ℕ)} {cells : Cells}
    (hok : x.Ok) (latency : ℕ) (hy : x.flows[j]? = some y) (hphase : x.thread.phase = .running)
    (hgone : ∀ b ∈ x.thread.batch, b.1 ≠ y.1.flow)
    (hl : Local y.1.flow y.1.fd y.1.itv cells x.thread.epoll st t)
    (hlength : places.length = t.samples.length) (hsamples : st.samples = head places)
    (hkeep : ∀ p, x.thread.listenFl = some p → j = 0 → t.flow.deleted = false) :
    Traced.Ok ⟨x.thread.store st,
      x.flows.set j (⟨y.1.fd, y.1.flow, latency, y.1.itv⟩, t.flow), places.zip t.samples⟩ := by
  have hj := (List.getElem?_eq_some_iff.mp hy).1
  have hother : ∀ y', x.Live y' → y'.1.flow ≠ y.1.flow → Traced.Live ⟨x.thread.store st,
      x.flows.set j (⟨y.1.fd, y.1.flow, latency, y.1.itv⟩, t.flow), places.zip t.samples⟩ y' :=
    fun y' hy' hne => ⟨mem_set_of_ne hy'.1 hy (fun heq => hne (by rw [heq])), hy'.2⟩
  exact {
    samples := fun _ => by
      show st.samples = _
      rw [List.map_fst_zip hlength.le]
      exact hsamples
    epoll := by
      intro e he
      by_cases hp : e.ptr = y.1.flow
      · obtain ⟨hfd, hevents, hlive⟩ := hl.own e he hp
        refine .inr ⟨_, ⟨List.mem_set hj _, hlive⟩, ?_⟩
        rw [← hfd, ← hevents, ← hp]
      · refine (hok.epoll e (hl.others e he hp)).imp_right ?_
        rintro ⟨y', hy', rfl⟩
        exact ⟨y', hother y' hy' hp, rfl⟩
    fds := hl.fds
    batch := by
      intro b hb
      refine (hok.batch b hb).imp_right ?_
      rintro ⟨y', hy', hflow, hreg⟩
      exact ⟨y', hother y' hy' (by rw [hflow]; exact hgone b hb), hflow, hreg⟩
    batch_nodup := hok.batch_nodup
    connected := by
      intro y' hy'
      rcases List.mem_or_eq_of_mem_set hy' with hy' | rfl
      · exact hok.connected y' hy'
      · exact hok.connected y (List.mem_of_getElem? hy)
    made := fun hclient => by
      rw [List.length_set]
      exact hok.made hclient
    listens := by
      intro p hp
      obtain ⟨hserver, y₀, ys, hflows, hflow, hdel, hfd, hne⟩ := hok.listens p hp
      refine ⟨hserver, ?_⟩
      rw [hflows] at hy ⊢
      cases j with
      | zero =>
        obtain rfl := Option.some.inj hy
        exact ⟨_, ys, rfl, hflow, hkeep p hp rfl, hfd, hne⟩
      | succ j =>
        refine ⟨y₀, _, rfl, hflow, hdel, hfd, fun y' hy' => ?_⟩
        rcases List.mem_or_eq_of_mem_set hy' with hy' | rfl
        · exact hne y' hy'
        · exact hne y (List.mem_of_getElem? hy)
    unheard := fun _ _ hsetup => by
      rw [show x.thread.phase = .setup from hsetup] at hphase
      cases hphase
    opened := hok.opened
    idle := fun hidle => by
      have hidle : x.thread.phase = .setup ∨ x.thread.phase = .ready := hidle
      simp [hphase] at hidle
    complete := fun hready => by
      rw [show x.thread.phase = .ready from hready] at hphase
      cases hphase
    ended := fun hend => by
      have hend : x.thread.phase = .done ∨ x.thread.phase = .freed := hend
      simp [hphase] at hend }

/-- **The handler of the workload**, for a flow that is there. -/
theorem handle_returns {mask : W.Mask} {o : W.Outcome} (hok : x.Ok)
    (h : ram.Holds (x.cells ++ rest)) (hy : x.flows[j]? = some y) (hlive : y.2.deleted = false)
    (hphase : x.thread.phase = .running) (hgone : ∀ b ∈ x.thread.batch, b.1 ≠ y.1.flow)
    (hreg : W.registered y.2.flow.events mask)
    (hyields : W.yields y.2.flow.bytesToRead y.2.flow.bytesToWrite mask o)
    (hother : ¬ (W.accepts ∧ x.thread.fdListen = some y.1.fd)) :
    Returns (W.handle x.thread.index mask o al y.1.flow (x.thread.state ram timeStart))
      fun st => Advances x timeStart rest (x.thread, st) := by
  obtain ⟨others, hset, hl⟩ := local_of_cells hok h hy hlive (by simp [hphase]) timeStart
  refine (W.simulates x.thread.index mask o al _ _ _ _ _ _ _ hlive hl).mono fun st hl' => ?_
  -- the flow of the listening socket stays
  have hlistens : ∀ p, x.thread.listenFl = some p → j = 0 →
      W.client = false ∧ W.accepts = false := by
    rintro p hp rfl
    obtain ⟨hserver, y₀, ys, hflows, -, -, hfd, -⟩ := hok.listens p hp
    rw [hflows] at hy
    obtain rfl := Option.some.inj hy
    exact ⟨hserver, by simpa [hfd] using hother⟩
  have hkeep : ∀ p, x.thread.listenFl = some p → j = 0 →
      (W.turn x.thread.index mask o ⟨y.2, x.thread.transactions, x.samples.map Prod.snd,
        timeStart⟩).flow.deleted = false := fun p hp hj =>
    (W.keeps (hlistens p hp hj).1 (hlistens p hp hj).2 _ _ _ _).trans hlive
  obtain ⟨t, ht⟩ : ∃ t, t = W.turn x.thread.index mask o
    ⟨y.2, x.thread.transactions, x.samples.map Prod.snd, timeStart⟩ := ⟨_, rfl⟩
  rw [← ht] at hl' hkeep
  obtain ⟨latency, places, hlength, hsamples, hholds⟩ := hl'.holds
  refine ⟨_, rfl, hok.turn latency hy hphase hgone hl' hlength hsamples hkeep, ?_,
    rfl, .inr ⟨.event j mask o, hphase, y.2, ?_, hlive, fun hserver haccepts hj => ?_, hreg,
      hyields, t, ht, ?_⟩⟩
  · refine hholds.perm ((perm_front (S := sampleCells places t.samples)
      (T := stopCells x.thread) (R := rest)
      (hset (⟨y.1.fd, y.1.flow, latency, y.1.itv⟩, t.flow))).symm.trans (.of_eq ?_))
    simp [Traced.cells, samplesCells, stopCells, Thread.store, hphase,
      List.map_fst_zip hlength.le, List.map_snd_zip hlength.ge]
  · simp [Traced.worker, hy]
  · obtain ⟨p, hp⟩ := Option.isSome_iff_exists.mp ((hok.opened (.inr hphase)).2 hserver)
    rw [(hlistens p hp hj).2] at haccepts
    cases haccepts
  · simp [Traced.worker, Worker.put, Thread.store, hl'.transactions, hl'.timeStart,
      List.map_snd_zip hlength.ge, List.map_set]

/-- The batch does not matter to what the thread has. -/
theorem Advances.of_skip {batch : List (ℕ × W.Mask)} {r : Thread W × State}
    (h : Advances ⟨{ x.thread with batch := batch }, x.flows, x.samples⟩ timeStart rest r) :
    Advances x timeStart rest r := h

/-- **The next event**, which is handled by the flow it was reported
for. -/
theorem event_returns {accepted : Option ℕ} {o : W.Outcome} (hok : x.Ok)
    (h : ram.Holds (x.cells ++ rest))
    (hallow : x.thread.Allowed (x.thread.state ram timeStart) (.event accepted o al)) :
    Returns (x.thread.act (x.thread.state ram timeStart) (.event accepted o al))
      (Advances x timeStart rest) := by
  obtain ⟨hphase, p, mask, batch, hbatch, hfresh, hyields⟩ := hallow
  have hskip := hok.skip batch (by rw [hbatch]; exact List.sublist_cons_self _ _)
  have hnodup := hok.batch_nodup
  have hopen := hok.opened (.inr hphase)
  simp only [hbatch, List.map_cons, List.nodup_cons] at hnodup
  simp only [Thread.act, Thread.processEvent, hbatch]
  rcases hok.batch (p, mask) (by rw [hbatch]; exact List.mem_cons_self) with
    hp | ⟨y, hy, rfl, hreg⟩
  · -- the stop event
    refine .of_bind (flow_of_stop h hp) ?_
    rw [if_pos (by exact rfl)]
    refine .pure (Advances.same (t := { x.thread with stop := true, batch := [] }) ?_ h .rfl rfl
      rfl ⟨rfl, rfl, rfl⟩)
    exact {
      hok.skip [] (List.nil_sublist _) with }
  · have hflow := flow_of_live h hy
    refine .of_bind hflow ?_
    rw [if_neg (by exact hok.connected y hy.1)]
    by_cases haccept : W.accepts ∧ x.thread.fdListen = some y.1.fd
    · rw [if_pos (by exact haccept)]
      have hserver : W.client = false := by
        by_contra hclient
        have hnone := (hok.made (by simpa using hclient)).2
        rw [hnone] at haccept
        cases haccept.2
      exact (accept_returns hskip h hphase hfresh hserver haccept.1 (hopen.2 hserver)).mono
        fun r => Advances.of_skip
    · rw [if_neg (by exact haccept)]
      obtain ⟨j, hj⟩ := List.mem_iff_getElem?.mp hy.1
      have hgone : ∀ b ∈ batch, b.1 ≠ y.1.flow := fun b hb heq =>
        hnodup.1 (List.mem_map.mpr ⟨b, hb, heq⟩)
      refine (handle_returns hskip h hj hy.2 hphase hgone hreg (hyields _ hflow) haccept).bind
        fun st hst => .pure (Advances.of_skip hst)

/-! ## The end -/

/-- A thread that has returned has no pointers but to its samples. -/
theorem Traced.Ok.leave {start : Option ℕ} {transactions : ℕ} (hok : x.Ok)
    (flows : List (Place × FlowState)) (samples : List ((ℕ × ℕ) × Sample))
    (hbatch : x.thread.batch = [])
    (hsamples : start = head (samples.map Prod.fst))
    (hconnected : ∀ y ∈ flows, y.1.fd ≠ x.thread.stopEfd)
    (hmade : W.client → flows.length = x.flows.length)
    (hdeleted : W.client = false → ∃ y ys, flows = y :: ys ∧ y.2.deleted = true) :
    Traced.Ok ⟨{ x.thread with
      phase := .done, stopFl := none, listenFl := none, epoll := [], samples := start
      transactions := transactions }, flows, samples⟩ where
  samples := fun _ => hsamples
  epoll := by simp
  fds := by simp
  batch := by simp [hbatch]
  batch_nodup := by simp [hbatch]
  connected := hconnected
  made hclient := ⟨by rw [hmade hclient]; exact (hok.made hclient).1, (hok.made hclient).2⟩
  listens := by simp
  unheard := by simp
  opened := by simp
  idle := by simp
  complete := by simp
  ended := fun _ => ⟨rfl, hdeleted⟩

/-- `free(stop_fl)` -/
theorem freeStop_returns (st : State) {l : Cells} {p : ℕ} (hp : x.thread.stopFl = some p)
    (h : st.ram.Holds (l ++ (stopCells x.thread ++ rest))) :
    Returns (st.free p) fun st' => ∃ ram, st' = { st with ram := ram } ∧ ram.Holds (l ++ rest) := by
  rw [stopCells, hp] at h
  exact free_returns h

/-- **The end of a client's thread.** -/
theorem leave_client (hok : x.Ok) (h : ram.Holds (x.cells ++ rest))
    (hallow : x.thread.Allowed (x.thread.state ram timeStart) .leave) (hclient : W.client) :
    Returns (x.thread.act (x.thread.state ram timeStart) .leave) (Advances x timeStart rest) := by
  obtain ⟨hphase, -, hbatch⟩ := hallow
  obtain ⟨p, hp⟩ := Option.isSome_iff_exists.mp (hok.opened (.inr hphase)).1
  have hcells : x.cells ++ rest = (flowsCells x.flows ++ samplesCells x) ++
      (stopCells x.thread ++ rest) := by
    simp [Traced.cells]
  simp only [Thread.act, Thread.finish, hclient, if_true, hp]
  refine .of_bind rfl (.of_bind (a := p) rfl ?_)
  refine (freeStop_returns (x.thread.state ram timeStart) hp (hcells ▸ h)).bind ?_
  rintro _ ⟨ram', rfl, hram⟩
  refine .pure ⟨_, rfl,
    hok.leave x.flows x.samples hbatch (hok.samples (by simp [hphase])) hok.connected
    (fun _ => rfl) (by simp [hclient]), ?_, ?_, .inl ⟨rfl, rfl⟩⟩
  · refine hram.perm (.of_eq ?_)
    simp [Traced.cells, samplesCells, stopCells, hphase]
  · simp [Phase.early, hphase]

/-- **The end of a server's thread**: it deletes the flow of the
listening socket. -/
theorem leave_server (hok : x.Ok) (h : ram.Holds (x.cells ++ rest))
    (hallow : x.thread.Allowed (x.thread.state ram timeStart) .leave)
    (hserver : W.client = false) :
    Returns (x.thread.act (x.thread.state ram timeStart) .leave) (Advances x timeStart rest) := by
  obtain ⟨hphase, -, hbatch⟩ := hallow
  obtain ⟨hstop, hlisten⟩ := hok.opened (.inr hphase)
  obtain ⟨p, hp⟩ := Option.isSome_iff_exists.mp hstop
  obtain ⟨q, hq⟩ := Option.isSome_iff_exists.mp (hlisten hserver)
  obtain ⟨-, y, ys, hflows, rfl, hlive, -, -⟩ := hok.listens q hq
  have hy : x.flows[0]? = some y := by rw [hflows]; rfl
  obtain ⟨others, hset, hl⟩ := local_of_cells hok h hy hlive (by simp [hphase]) timeStart
  simp only [Thread.act, Thread.finish, hserver, Bool.false_eq_true, if_false, hp, hq]
  refine (simulates_delflow _ _ _ _ _ _ _ hlive hl).bind fun st hl' => ?_
  obtain ⟨latency, places, hlength, hsamples, hholds⟩ := hl'.holds
  refine .of_bind (a := p) rfl ?_
  rw [flowCells_of_deleted rfl, List.nil_append, ← List.append_assoc] at hholds
  have hlen : places.length = (x.samples.map Prod.snd).length := hlength
  have htransactions : st.transactions = x.thread.transactions := hl'.transactions
  have htime : st.timeStart = timeStart := hl'.timeStart
  refine (freeStop_returns st hp hholds).bind ?_
  rintro _ ⟨ram', rfl, hram⟩
  refine .pure ⟨_, rfl, hok.leave (x.flows.set 0
      (⟨y.1.fd, y.1.flow, latency, y.1.itv⟩, { y.2 with deleted := true }))
    (places.zip (x.samples.map Prod.snd)) hbatch ?_ ?_ (by simp) (by simp [hflows]), ?_,
    ?_, .inr ⟨.close, hphase, y.2, hserver, ?_, hlive, ?_⟩⟩
  · rw [List.map_fst_zip hlen.le]
    exact hsamples
  · intro y' hy'
    rcases List.mem_or_eq_of_mem_set hy' with hy' | rfl
    · exact hok.connected y' hy'
    · exact hok.connected y (List.mem_of_getElem? hy)
  · have hfront := perm_front (S := sampleCells places (x.samples.map Prod.snd)) (T := [])
      (R := rest) (hset (⟨y.1.fd, y.1.flow, latency, y.1.itv⟩, { y.2 with deleted := true }))
    rw [flowCells_of_deleted rfl] at hfront
    refine hram.perm ((List.Perm.of_eq (List.append_assoc _ _ _)).trans
      (hfront.symm.trans (.of_eq ?_)))
    simp [Traced.cells, samplesCells, stopCells, List.map_fst_zip hlen.le,
      List.map_snd_zip hlen.ge]
  · simp [Phase.early, hphase]
  · simp [Traced.worker, hy]
  · simp [Traced.worker, htransactions, htime, List.map_set, List.map_snd_zip hlen.ge]

/-- Each sample is an object, beside its latencies. -/
theorem length_le_sampleCells (samples : List ((ℕ × ℕ) × Sample)) : samples.length ≤
    (sampleCells (samples.map Prod.fst) (samples.map Prod.snd)).length := by
  induction samples with
  | nil => exact Nat.le_refl _
  | cons s samples ih => exact Nat.succ_le_succ (Nat.le_succ_of_le ih)

/-- **The samples of a thread are freed**, with their latencies. -/
theorem freeSamples_returns {places : List (ℕ × ℕ)} {samples : List Sample} {fuel : ℕ}
    (hlength : places.length = samples.length) (hfuel : samples.length ≤ fuel)
    (h : ram.Holds (sampleCells places samples ++ rest)) :
    Returns (State.freeSamples fuel (head places) ram) fun ram' => ram'.Holds rest := by
  induction samples generalizing places fuel ram with
  | nil =>
    obtain rfl := List.length_eq_zero_iff.mp hlength
    cases fuel <;> exact .pure h
  | cons s samples ih =>
    obtain ⟨⟨a, q⟩, places, rfl⟩ := List.exists_cons_of_length_pos (l := places) (by simp [hlength])
    obtain ⟨fuel, rfl⟩ := Nat.exists_eq_succ_of_ne_zero (Nat.ne_zero_of_lt hfuel)
    refine .of_bind (h.read List.mem_cons_self rfl) (.of_bind (a := q) rfl ?_)
    refine .of_bind (h.read (List.mem_cons_of_mem _ List.mem_cons_self) rfl) ?_
    refine (h.free (l := [_])).bind fun ram₁ h₁ => ?_
    refine .of_bind (h₁.read List.mem_cons_self rfl) ?_
    refine (h₁.free (l := [])).bind fun ram₂ h₂ => ?_
    exact ih (Nat.succ.inj hlength) (Nat.le_of_succ_le_succ hfuel) h₂

/-! ## The system -/

/-- **Each thing a thread does** keeps its pointers good, without a
fault. -/
theorem act_returns {a : Thread.Action W} (hok : x.Ok) (h : ram.Holds (x.cells ++ rest))
    (hallow : x.thread.Allowed (x.thread.state ram timeStart) a) :
    Returns (x.thread.act (x.thread.state ram timeStart) a) (Advances x timeStart rest) := by
  cases a with
  | addStop al => exact addStop_returns hok h hallow
  | listen fd al => exact listen_returns hok h hallow
  | connect fd al => exact connect_returns hok h hallow
  | ready => exact ready_returns hok h hallow
  | wait batch => exact wait_returns hok h hallow
  | event accepted o al => exact event_returns hok h hallow
  | forget fd => exact forget_returns hok h fd
  | leave =>
    cases hclient : W.client with
    | true => exact leave_client hok h hallow hclient
    | false => exact leave_server hok h hallow hclient

/-- **The threads in memory are those on values**, and their pointers
are good. -/
def Rep (s : System W) (v : Workload.Values) : Prop :=
  ∃ xs : List (Traced W), s.threads = xs.map Traced.thread ∧ v.threads = xs.map Traced.worker ∧
    v.timeStart = s.timeStart ∧ (∀ x ∈ xs, x.Ok ∧ x.thread.phase.early = !v.started) ∧
    s.ram.Holds (xs.flatMap Traced.cells)

variable {s s' : System W} {v v' : Workload.Values} {l : System.Label W}
variable {ls : List (System.Label W)}

/-- What holds of each thread, after one of them has changed. -/
theorem forall_set {α : Type} {P : α → Prop} {l : List α} {i : ℕ} {a : α} (h : ∀ x ∈ l, P x)
    (ha : P a) : ∀ x ∈ l.set i a, P x := by
  intro x hx
  rcases List.mem_or_eq_of_mem_set hx with hx | rfl
  · exact h x hx
  · exact ha

/-- Before anything is done. -/
theorem rep_start (W : Workload) (stopEfds : List ℕ) :
    Rep (System.start W stopEfds) (Workload.Values.start stopEfds.length) := by
  refine ⟨stopEfds.mapIdx fun i fd => ⟨Thread.start W i fd, [], []⟩, ?_, ?_, rfl, ?_, ?_⟩
  · refine List.ext_getElem (by simp [System.start]) fun i _ _ => ?_
    simp [System.start]
  · refine List.ext_getElem (by simp [Workload.Values.start]) fun i _ _ => ?_
    simp [Workload.Values.start, Traced.worker, Thread.start]
  · intro x hx
    obtain ⟨i, hi, rfl⟩ := List.mem_mapIdx.mp hx
    refine ⟨?_, rfl⟩
    exact {
      samples := fun _ => rfl
      epoll := by simp [Thread.start]
      fds := .nil
      batch := by simp [Thread.start]
      batch_nodup := .nil
      connected := by simp
      made := fun _ => ⟨rfl, rfl⟩
      listens := by simp [Thread.start]
      unheard := fun _ _ _ => ⟨rfl, rfl⟩
      opened := by simp [Thread.start]
      idle := fun _ => rfl
      complete := by simp [Thread.start]
      ended := by simp [Thread.start] }
  · have hnil : (stopEfds.mapIdx fun i fd => (⟨Thread.start W i fd, [], []⟩ : Traced W)).flatMap
        Traced.cells = [] := by
      refine List.flatMap_eq_nil_iff.mpr fun x hx => ?_
      obtain ⟨i, hi, rfl⟩ := List.mem_mapIdx.mp hx
      rfl
    rw [hnil]
    exact Ram.Holds.empty

/-- **A thread takes a step.** -/
theorem exec_act {i : ℕ} {a : Thread.Action W} (hrep : Rep s v) (hen : s.Enabled (.act i a)) :
    Returns (s.exec (.act i a)) fun s' => ∃ v', Rep s' v' ∧ (v' = v ∨ ∃ l', W.step v l' v') := by
  obtain ⟨xs, hthreads, hworkers, htime, hok, hholds⟩ := hrep
  obtain ⟨t, ht, hallow⟩ := hen
  rw [hthreads, List.getElem?_map] at ht
  obtain ⟨x, hx, rfl⟩ := Option.map_eq_some_iff.mp ht
  obtain ⟨hokx, hearly⟩ := hok x (List.mem_of_getElem? hx)
  obtain ⟨rest, hperm, hset⟩ := Ram.exists_perm_flatMap_set Traced.cells hx
  have hget : s.threads[i]? = some x.thread := by rw [hthreads, List.getElem?_map, hx]; rfl
  simp only [System.exec, hget]
  refine (act_returns hokx (hholds.perm hperm) hallow).bind ?_
  rintro ⟨t, st⟩ ⟨x', hx', hok', hholds', hearly', hchange⟩
  refine .pure ⟨⟨(xs.set i x').map Traced.worker, st.timeStart, v.started⟩,
    ⟨xs.set i x', ?_, rfl, rfl, forall_set hok ⟨hok', hearly'.trans hearly⟩,
      hholds'.perm (hset x').symm⟩, ?_⟩
  · show s.threads.set i (t.store st) = _
    rw [hthreads, ← hx', List.map_set]
  · rcases hchange with ⟨hworker, hst⟩ | ⟨c, hphase, hchange⟩
    · refine .inl ?_
      have hsame : (xs.set i x').map Traced.worker = v.threads := by
        obtain ⟨hi, rfl⟩ := List.getElem?_eq_some_iff.mp hx
        rw [List.map_set, hworker, hworkers, ← List.map_set, List.set_getElem_self hi]
      rw [hsame, hst, ← htime]
    · refine .inr ⟨.act i c, x.worker, (x'.worker, st.timeStart), ?_, ?_, ?_, ?_⟩
      · rw [hworkers, List.getElem?_map, hx]
        rfl
      · rw [← hphase]
        exact hearly
      · rw [htime]
        exact hchange
      · rw [List.map_set, hworkers]

/-- **All threads pass the barrier.** -/
theorem exec_barrier (hrep : Rep s v) (hen : s.Enabled .barrier) :
    Returns (s.exec .barrier) fun s' => ∃ v', Rep s' v' ∧ (v' = v ∨ ∃ l', W.step v l' v') := by
  obtain ⟨xs, hthreads, hworkers, htime, hok, hholds⟩ := hrep
  have hready : ∀ x ∈ xs, x.thread.phase = .ready := fun x hx =>
    hen x.thread (by rw [hthreads]; exact List.mem_map_of_mem hx)
  refine .pure ⟨⟨v.threads, v.timeStart, true⟩, ⟨xs.map fun x =>
    ⟨{ x.thread with phase := .running }, x.flows, x.samples⟩, ?_, ?_, htime, ?_, ?_⟩, ?_⟩
  · show s.threads.map _ = _
    rw [hthreads, List.map_map, List.map_map]
    rfl
  · rw [hworkers, List.map_map]
    rfl
  · intro x' hx'
    obtain ⟨x, hx, rfl⟩ := List.mem_map.mp hx'
    have hphase := hready x hx
    have hokx := (hok x hx).1
    refine ⟨?_, rfl⟩
    exact {
      hokx with
      samples := fun _ => hokx.samples (by simp [hphase])
      unheard := by simp
      opened := fun _ => hokx.opened (.inl hphase)
      idle := by simp
      complete := by simp
      ended := by simp }
  · have hcells : (xs.map fun x => (⟨{ x.thread with phase := .running }, x.flows, x.samples⟩ :
        Traced W)).flatMap Traced.cells = xs.flatMap Traced.cells := by
      rw [List.flatMap_map]
      refine List.flatMap_congr fun x hx => ?_
      simp [Traced.cells, samplesCells, stopCells, hready x hx]
    rw [hcells]
    exact hholds
  · cases hstarted : v.started with
    | true => exact .inl (by rw [← hstarted])
    | false =>
      refine .inr ⟨.barrier, hstarted, fun w hw => ?_, rfl⟩
      rw [hworkers] at hw
      obtain ⟨x, hx, rfl⟩ := List.mem_map.mp hw
      have hokx := (hok x hx).1
      refine ⟨fun hclient => ?_, fun hserver => ?_⟩
      · simpa [Traced.worker] using hokx.complete (hready x hx) hclient
      · obtain ⟨p, hp⟩ := Option.isSome_iff_exists.mp
          ((hokx.opened (.inl (hready x hx))).2 hserver)
        obtain ⟨-, y, ys, hflows, -⟩ := hokx.listens p hp
        simp [Traced.worker, hflows]

/-- **`free_samples`** of a thread that has returned. -/
theorem exec_freeSamples {i : ℕ} (hrep : Rep s v) (hen : s.Enabled (.freeSamples i)) :
    Returns (s.exec (.freeSamples i)) fun s' =>
      ∃ v', Rep s' v' ∧ (v' = v ∨ ∃ l', W.step v l' v') := by
  obtain ⟨xs, hthreads, hworkers, htime, hok, hholds⟩ := hrep
  obtain ⟨⟨t, ht, hdone⟩, -⟩ := hen
  rw [hthreads, List.getElem?_map] at ht
  obtain ⟨x, hx, rfl⟩ := Option.map_eq_some_iff.mp ht
  obtain ⟨hokx, hearly⟩ := hok x (List.mem_of_getElem? hx)
  obtain ⟨rest, hperm, hset⟩ := Ram.exists_perm_flatMap_set Traced.cells hx
  have hget : s.threads[i]? = some x.thread := by rw [hthreads, List.getElem?_map, hx]; rfl
  have hsamples := hokx.samples (by simp [hdone])
  have hcells : x.cells = flowsCells x.flows ++ (sampleCells (x.samples.map Prod.fst)
      (x.samples.map Prod.snd) ++ stopCells x.thread) := by
    simp [Traced.cells, samplesCells, hdone]
  have hfront : s.ram.Holds (sampleCells (x.samples.map Prod.fst) (x.samples.map Prod.snd) ++
      (flowsCells x.flows ++ (stopCells x.thread ++ rest))) := by
    refine (hholds.perm hperm).perm (.trans (.of_eq ?_) (List.perm_append_comm_assoc _ _ _))
    simp [hcells]
  have hfuel : (x.samples.map Prod.snd).length ≤ s.ram.cells.entries.length := by
    rw [hfront.length_eq, List.length_append, List.length_map]
    exact Nat.le_add_right_of_le (length_le_sampleCells _)
  simp only [System.exec, hget, hsamples]
  refine (freeSamples_returns (by simp) hfuel hfront).bind fun ram hram => ?_
  refine .pure ⟨v, ⟨xs.set i ⟨{ x.thread with phase := .freed }, x.flows, x.samples⟩, ?_, ?_,
    htime, forall_set hok ⟨?_, ?_⟩, ?_⟩, .inl rfl⟩
  · show s.threads.set i _ = _
    rw [hthreads, List.map_set, ← hsamples]
  · obtain ⟨hi, rfl⟩ := List.getElem?_eq_some_iff.mp hx
    rw [hworkers, List.map_set]
    show _ = (xs.map Traced.worker).set i xs[i].worker
    rw [← List.map_set, List.set_getElem_self hi]
  · exact {
      hokx with
      samples := by simp
      unheard := by simp
      opened := by simp
      idle := by simp
      complete := by simp
      ended := fun _ => hokx.ended (.inl hdone) }
  · rw [← hearly, hdone]
    rfl
  · refine hram.perm (.trans (.of_eq ?_) (hset _).symm)
    simp [Traced.cells, samplesCells, stopCells]

/-- **Every step** that the system can take it takes without a fault,
and on values it is a step as well, or nothing. -/
theorem exec_returns (hrep : Rep s v) (hen : s.Enabled l) :
    Returns (s.exec l) fun s' => ∃ v', Rep s' v' ∧ (v' = v ∨ ∃ l', W.step v l' v') := by
  cases l with
  | act i a => exact exec_act hrep hen
  | barrier => exact exec_barrier hrep hen
  | freeSamples i => exact exec_freeSamples hrep hen

/-- **A run in memory is a run on values.** -/
theorem exists_run {stopEfds : List ℕ} (hrun : Run System.step (System.start W stopEfds) ls s) :
    ∃ ls' v, Run W.step (Workload.Values.start stopEfds.length) ls' v ∧ Rep s v := by
  refine hrun.preserves (I := fun s => ∃ ls' v,
    Run W.step (Workload.Values.start stopEfds.length) ls' v ∧ Rep s v) ?_
    ⟨[], _, .refl _, rep_start W stopEfds⟩
  rintro s l s' ⟨ls', v, hv, hrep⟩ ⟨hen, hexec⟩
  obtain ⟨s'', hs'', v', hrep', hstep⟩ := exec_returns hrep hen
  obtain rfl := Except.ok.inj (hexec.symm.trans hs'')
  rcases hstep with rfl | ⟨l', hstep⟩
  · exact ⟨ls', _, hv, hrep'⟩
  · exact ⟨ls' ++ [l'], v', hv.append (.single hstep), hrep'⟩

/-! ## What follows -/

/-- **Memory is used as it should be**: epoll hands back flows with the
descriptors it watches, the events that are still to be handled are of
flows, and whatever the threads do next, there is no fault. -/
structure System.Safe (s : System W) : Prop where
  epoll : ∀ t ∈ s.threads, ∀ e ∈ t.epoll,
    ∃ flow, s.ram.read Object.flow? e.ptr = .ok flow ∧ flow.fd = e.fd
  batch : ∀ t ∈ s.threads, ∀ b ∈ t.batch, ∃ flow, s.ram.read Object.flow? b.1 = .ok flow
  exec : ∀ l, s.Enabled l → ∃ s', s.exec l = .ok s'

theorem Rep.safe (hrep : Rep s v) : s.Safe := by
  have hexec : ∀ l, s.Enabled l → ∃ s', s.exec l = .ok s' := fun l hen =>
    (exec_returns hrep hen).imp fun s' hs' => hs'.1
  obtain ⟨xs, hthreads, -, -, hok, hholds⟩ := hrep
  have hthread : ∀ t ∈ s.threads, ∃ x : Traced W, x.thread = t ∧ x.Ok ∧
      ∃ rest, s.ram.Holds (x.cells ++ rest) := by
    intro t ht
    rw [hthreads] at ht
    obtain ⟨x, hx, rfl⟩ := List.mem_map.mp ht
    obtain ⟨i, hi⟩ := List.mem_iff_getElem?.mp hx
    obtain ⟨rest, hperm, -⟩ := Ram.exists_perm_flatMap_set Traced.cells hi
    exact ⟨x, rfl, (hok x hx).1, rest, hholds.perm hperm⟩
  refine ⟨fun t ht e he => ?_, fun t ht b hb => ?_, hexec⟩
  · obtain ⟨x, rfl, hokx, rest, h⟩ := hthread t ht
    rcases hokx.epoll e he with ⟨hp, hfd⟩ | ⟨y, hy, rfl⟩
    · exact ⟨_, flow_of_stop h hp, hfd.symm⟩
    · exact ⟨_, flow_of_live h hy, rfl⟩
  · obtain ⟨x, rfl, hokx, rest, h⟩ := hthread t ht
    rcases hokx.batch b hb with hp | ⟨y, hy, hflow, -⟩
    · exact ⟨_, flow_of_stop h hp⟩
    · rw [← hflow]
      exact ⟨_, flow_of_live h hy⟩

/-- **What is left**: three objects for each of the flows that was not
deleted, and nothing else. -/
def System.LeftOver (s : System W) (flows : List FlowState) : Prop :=
  ∃ placed : List (Place × FlowState), placed.map Prod.snd = flows ∧
    s.ram.Holds (flowsCells placed)

/-- The flows of connections. -/
def Workload.connected (W : Workload) (w : Worker) : List FlowState :=
  if W.client then w.flows else w.flows.tail

/-- Threads that have ended have passed the barrier. -/
theorem Rep.started (hrep : Rep s v) (hne : v.threads ≠ [])
    (hfreed : ∀ t ∈ s.threads, t.phase = .freed) : v.started = true := by
  obtain ⟨xs, hthreads, hworkers, -, hok, -⟩ := hrep
  obtain ⟨x, xs, rfl⟩ := List.exists_cons_of_ne_nil (l := xs) (by
    rintro rfl
    exact hne hworkers)
  have hearly := (hok x List.mem_cons_self).2
  rw [hfreed x.thread (by rw [hthreads]; exact List.mem_cons_self)] at hearly
  simpa [Phase.early] using hearly

/-- When the samples are freed, only flows of connections are left. -/
theorem Rep.leftOver (hrep : Rep s v) (hfreed : ∀ t ∈ s.threads, t.phase = .freed) :
    s.LeftOver (v.threads.flatMap W.connected) := by
  obtain ⟨xs, hthreads, hworkers, -, hok, hholds⟩ := hrep
  refine ⟨xs.flatMap fun x => if W.client then x.flows else x.flows.tail, ?_, ?_⟩
  · rw [List.map_flatMap, hworkers, List.flatMap_map]
    refine List.flatMap_congr fun x _ => ?_
    unfold Workload.connected
    split
    · rfl
    · exact List.map_tail
  · have hcells : xs.flatMap Traced.cells = flowsCells (xs.flatMap fun x =>
        if W.client then x.flows else x.flows.tail) := by
      rw [flowsCells, List.flatMap_assoc]
      refine List.flatMap_congr fun x hx => ?_
      have hphase := hfreed x.thread (by rw [hthreads]; exact List.mem_map_of_mem hx)
      obtain ⟨hstop, hlisten⟩ := (hok x hx).1.ended (.inr hphase)
      cases hclient : W.client with
      | true => simp [Traced.cells, samplesCells, stopCells, hphase, flowsCells, hstop]
      | false =>
        -- the flow of the listening socket was deleted
        obtain ⟨y, ys, hflows, hdeleted⟩ := hlisten hclient
        simp [Traced.cells, samplesCells, stopCells, hphase, flowsCells, hstop, hflows,
          flowCells_of_deleted hdeleted]
    rw [← hcells]
    exact hholds

end Flow

end Rushit
