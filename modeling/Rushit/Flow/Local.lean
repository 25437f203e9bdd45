import Rushit.Flow.Model
/-!
# One flow in memory

What the functions of `Rushit.Flow.Model` do for a flow that is there is
what those of `Rushit.TcpRr.Worker` do on values: `Local` says that the
objects of a flow and the samples of its thread are in memory, beside
whatever else is there, and each function keeps it (`Simulates`) and
returns without a fault. After `delflow` the objects are gone, and
epoll does not know the flow any more.
-/

namespace Rushit

namespace Flow

open Ram (Fault Malloc deref Returns)
open TcpRr (Events FlowState Turn Clock)

abbrev Cells := List (Σ _ : ℕ, Object)

/-- Where a flow is. -/
structure Place where
  fd : ℕ
  flow : ℕ
  latency : ℕ
  itv : ℕ

/-- The `struct flow` of a flow. -/
def object (pl : Place) (f : FlowState) : FlowObject where
  fd := pl.fd
  id := f.id
  bytesRead := f.flow.bytesRead
  bytesToRead := f.flow.bytesToRead
  bytesToWrite := f.flow.bytesToWrite
  transactions := f.flow.transactions
  writeTime := f.writeTime
  latency := some pl.latency
  itv := some pl.itv

/-- What is allocated for a flow. -/
def flowCells (pl : Place) (f : FlowState) : Cells :=
  if f.deleted then []
  else [⟨pl.flow, .flow (object pl f)⟩, ⟨pl.latency, .numlist f.latency⟩,
    ⟨pl.itv, .interval f.lastTime⟩]

/-- The list that begins with the first of these. -/
def head (places : List (ℕ × ℕ)) : Option ℕ := places.head?.map Prod.fst

/-- What is allocated for samples: at each place a sample and its
latencies. -/
def sampleCells : List (ℕ × ℕ) → List Sample → Cells
  | (a, q) :: places, s :: samples =>
    ⟨a, .sample ⟨s.tid, s.flowId, s.bytesRead, s.transactions, some q, s.timestamp,
      head places⟩⟩ :: ⟨q, .numlist s.latency⟩ :: sampleCells places samples
  | _, _ => []

theorem flowCells_of_live {pl : Place} {f : FlowState} (h : f.deleted = false) :
    flowCells pl f = [⟨pl.flow, .flow (object pl f)⟩, ⟨pl.latency, .numlist f.latency⟩,
      ⟨pl.itv, .interval f.lastTime⟩] := by
  simp [flowCells, h]

theorem flowCells_of_deleted {pl : Place} {f : FlowState} (h : f.deleted = true) :
    flowCells pl f = [] := by
  simp [flowCells, h]

/-- **A flow and its thread in memory.** The flow at `p` with the
descriptor `fd` and its interval at `r` is `t.flow`, the samples of the thread are `t.samples`,
and beside them there is `rest`. epoll knows the flow by its address
while it is there, and the rest of what epoll knows it knew before
(`before`). -/
structure Local (p fd r : ℕ) (rest : Cells) (before : List Interest) (s : State) (t : Turn) :
    Prop where
  holds : ∃ latency places, places.length = t.samples.length ∧ s.samples = head places ∧
    s.ram.Holds (flowCells ⟨fd, p, latency, r⟩ t.flow ++ (sampleCells places t.samples ++ rest))
  transactions : s.transactions = t.transactions
  timeStart : s.timeStart = t.timeStart
  own : ∀ e ∈ s.epoll, e.ptr = p →
    e.fd = fd ∧ e.events = t.flow.flow.events ∧ t.flow.deleted = false
  others : ∀ e ∈ s.epoll, e.ptr ≠ p → e ∈ before
  fds : (s.epoll.map Interest.fd).Nodup

/-- **The function on memory does what the function on values does**,
and returns without a fault. -/
def Simulates (f : ℕ → State → Except Fault State) (g : Turn → Turn) : Prop :=
  ∀ p fd r rest before s t, t.flow.deleted = false → Local p fd r rest before s t →
    Returns (f p s) fun s' => Local p fd r rest before s' (g t)

/-- The flow is there after the function if it was before. -/
def Keeps (g : Turn → Turn) : Prop := ∀ t, (g t).flow.deleted = t.flow.deleted

variable {p fd r : ℕ} {rest : Cells} {before : List Interest} {s : State} {t : Turn}
variable {f f' : ℕ → State → Except Fault State} {g g' : Turn → Turn}
variable {al : Malloc Object} {seconds : ℚ} {tid : ℕ} {now : Timespec}

/-! ## Composition -/

/-- One function after another. -/
theorem Simulates.comp (h : Simulates f g) (hg : Keeps g) (h' : Simulates f' g') :
    Simulates (fun p s => f p s >>= f' p) (fun t => g' (g t)) :=
  fun p fd r rest before s t hlive hl => (h p fd r rest before s t hlive hl).bind fun s' hl' =>
    h' p fd r rest before s' (g t) ((hg t).trans hlive) hl'

theorem Simulates.pure : Simulates (fun _ s => pure s) id :=
  fun _ _ _ _ _ _ _ _ hl => .pure hl

theorem Keeps.comp (hg : Keeps g) (hg' : Keeps g') : Keeps fun t => g' (g t) :=
  fun t => (hg' (g t)).trans (hg t)

/-! ## Reading and writing -/

variable {a : ℕ} {o o' : Object} {fl : FlowObject} {l k : Cells}

/-- A new object beside what there is. -/
theorem malloc_eq {l : Cells} (h : s.ram.Holds l) (al : Malloc Object) (o : Object) :
    ∃ a ram, s.malloc al o = (a, { s with ram := ram }) ∧ ram.Holds (⟨a, o⟩ :: l) :=
  ⟨_, _, rfl, h.malloc al o⟩

/-- An object is overwritten, and nothing else changes. -/
theorem put_returns (h : s.ram.Holds (l ++ ⟨a, o⟩ :: k)) (o' : Object) :
    Returns (s.put a o') fun s' =>
      ∃ ram, s' = { s with ram := ram } ∧ ram.Holds (l ++ ⟨a, o'⟩ :: k) :=
  (h.write o').bind fun _ hram => .pure ⟨_, rfl, hram⟩

theorem free_returns (h : s.ram.Holds (l ++ ⟨a, o⟩ :: k)) :
    Returns (s.free a) fun s' => ∃ ram, s' = { s with ram := ram } ∧ ram.Holds (l ++ k) :=
  h.free.bind fun _ hram => .pure ⟨_, rfl, hram⟩

theorem update_returns (h : s.ram.Holds (l ++ ⟨a, .flow fl⟩ :: k))
    (u : FlowObject → FlowObject) : Returns (s.update a u) fun s' =>
      ∃ ram, s' = { s with ram := ram } ∧ ram.Holds (l ++ ⟨a, .flow (u fl)⟩ :: k) :=
  .of_bind (h.read (List.mem_append_right _ List.mem_cons_self) rfl) (put_returns h _)

/-- What is at the address of the flow. -/
theorem Local.flow (hl : Local p fd r rest before s t) (hlive : t.flow.deleted = false) :
    ∃ latency, s.flow p = .ok (object ⟨fd, p, latency, r⟩ t.flow) := by
  obtain ⟨latency, places, -, -, hholds⟩ := hl.holds
  rw [flowCells_of_live hlive] at hholds
  exact ⟨latency, hholds.read List.mem_cons_self rfl⟩

/-- **Fields are assigned**, but the pointers. -/
theorem simulates_update {u : FlowObject → FlowObject} {c : FlowState → FlowState}
    (hu : ∀ pl f, u (object pl f) = object pl (c f))
    (hkeep : ∀ f, (c f).deleted = f.deleted ∧ (c f).latency = f.latency ∧
      (c f).lastTime = f.lastTime ∧ (c f).flow.events = f.flow.events) :
    Simulates (fun p s => s.update p u) fun t => { t with flow := c t.flow } := by
  intro p fd r rest before s t hlive hl
  obtain ⟨latency, places, hlength, hsamples, hholds⟩ := hl.holds
  obtain ⟨hdel, hlat, hlast, hev⟩ := hkeep t.flow
  rw [flowCells_of_live hlive] at hholds
  refine (update_returns (l := []) hholds u).mono ?_
  rintro _ ⟨ram, rfl, hram⟩
  refine ⟨⟨latency, places, hlength, hsamples, ?_⟩, hl.transactions, hl.timeStart,
    fun e he hp => ?_, hl.others, hl.fds⟩
  · rw [flowCells_of_live (hdel.trans hlive), hlat, hlast, ← hu]
    exact hram
  · obtain ⟨hfd, hevents, -⟩ := hl.own e he hp
    exact ⟨hfd, hevents.trans hev.symm, hdel.trans hlive⟩

/-- **`EPOLL_CTL_MOD`** of the flow. -/
theorem simulates_epollMod (events : Events) : Simulates (fun p s => s.epollMod p events)
    fun t => t.withFlow { t.flow.flow with events := events } := by
  intro p fd r rest before s t hlive hl
  obtain ⟨latency, hflow⟩ := hl.flow hlive
  refine .of_bind hflow (.pure ?_)
  refine ⟨?_, hl.transactions, hl.timeStart, fun e he hp => ?_, fun e he hp => ?_, ?_⟩
  · obtain ⟨latency, places, hlength, hsamples, hholds⟩ := hl.holds
    refine ⟨latency, places, hlength, hsamples, ?_⟩
    rw [flowCells_of_live hlive] at hholds
    rw [flowCells_of_live (by exact hlive)]
    exact hholds
  · obtain ⟨e₀, he₀, rfl⟩ := List.mem_map.mp he
    by_cases hfd : e₀.fd = fd
    · simp only [object, hfd, if_true]
      exact ⟨trivial, rfl, hlive⟩
    · -- the flow is known by its own descriptor
      simp only [object, hfd, if_false] at hp ⊢
      exact absurd (hl.own e₀ he₀ hp).1 hfd
  · obtain ⟨e₀, he₀, rfl⟩ := List.mem_map.mp he
    by_cases hfd : e₀.fd = fd
    · simp [object, hfd] at hp
    · simp only [object, hfd, if_false] at hp ⊢
      exact hl.others e₀ he₀ hp
  · have hsame : (s.epoll.map fun e =>
        if e.fd = fd then (⟨fd, p, events⟩ : Interest) else e).map Interest.fd =
        s.epoll.map Interest.fd := by
      rw [List.map_map]
      refine List.map_congr_left fun e _ => ?_
      by_cases hfd : e.fd = fd <;> simp [hfd]
    exact (congrArg List.Nodup hsame).mpr hl.fds

/-- **`numlist_add`** to the latencies of the flow. -/
theorem simulates_numlistAdd (val : FlowObject → ℚ) (c : FlowState → ℚ)
    (hval : ∀ pl f, val (object pl f) = c f) :
    Simulates (fun p s => do
      let flow ← s.flow p
      s.numlistAdd flow.latency (val flow))
    fun t => { t with flow := { t.flow with latency := t.flow.latency.add (c t.flow) } } := by
  intro p fd r rest before s t hlive hl
  obtain ⟨latency, places, hlength, hsamples, hholds⟩ := hl.holds
  rw [flowCells_of_live hlive] at hholds
  refine .of_bind (hholds.read List.mem_cons_self rfl) (.of_bind rfl ?_)
  refine .of_bind (hholds.read (List.mem_cons_of_mem _ List.mem_cons_self) rfl) ?_
  refine (put_returns (l := [_]) hholds _).mono ?_
  rintro _ ⟨ram, rfl, hram⟩
  rw [hval] at hram
  refine ⟨⟨latency, places, hlength, hsamples, ?_⟩, hl.transactions, hl.timeStart, hl.own,
    hl.others, hl.fds⟩
  rw [flowCells_of_live (by exact hlive)]
  exact hram

/-! ## Samples -/

/-- **`add_sample`** -/
theorem simulates_addSample (al : Malloc Object) (tid : ℕ) (ts : Timespec) :
    Simulates (State.addSample al tid ts) (Turn.addSample tid ts) := by
  intro p fd r rest before s t hlive hl
  obtain ⟨latency, places, hlength, hsamples, hholds⟩ := hl.holds
  rw [flowCells_of_live hlive] at hholds
  refine .of_bind (hholds.read List.mem_cons_self rfl) ?_
  obtain ⟨a, ram₁, ha, hram₁⟩ := malloc_eq hholds al (.sample ⟨tid, t.flow.id,
    t.flow.flow.bytesRead, t.flow.flow.transactions, some latency, ts, s.samples⟩)
  obtain ⟨q, ram₂, hq, hram₂⟩ := malloc_eq (s := { s with ram := ram₁ }) hram₁ al
    (.numlist .create)
  simp only [object, ha, hq]
  refine (update_returns (l := [_, _]) hram₂ _).bind ?_
  rintro _ ⟨ram, rfl, hram⟩
  refine .pure ?_
  refine ⟨⟨q, (a, latency) :: places, congrArg Nat.succ hlength, rfl, ?_⟩, hl.transactions,
    hl.timeStart, hl.own, hl.others, hl.fds⟩
  rw [flowCells_of_live (by exact hlive)]
  rw [hsamples] at hram
  exact hram.perm <| (@List.perm_middle _ _ [_, _] _).trans <|
    .cons _ <| .cons _ <| @List.perm_middle _ _ [_, _] _

/-! ## Intervals -/

theorem keeps_ensureInitialized (now : Timespec) : Keeps (Turn.ensureInitialized now) := by
  intro t
  unfold Turn.ensureInitialized
  split <;> rfl

theorem keeps_intervalCollect : Keeps (Turn.intervalCollect seconds tid now) := by
  intro t
  have hinit := keeps_ensureInitialized now t
  show (if _ then _ else _ : Turn).flow.deleted = _
  split
  · exact hinit
  · exact hinit

/-- What is at the address of the interval. -/
theorem Local.interval (hl : Local p fd r rest before s t) (hlive : t.flow.deleted = false) :
    s.ram.read Object.interval? r = .ok t.flow.lastTime := by
  obtain ⟨latency, places, -, -, hholds⟩ := hl.holds
  rw [flowCells_of_live hlive] at hholds
  exact hholds.read (List.mem_cons_of_mem _ (List.mem_cons_of_mem _ List.mem_cons_self)) rfl

/-- The interval is overwritten. -/
theorem Local.putInterval (hl : Local p fd r rest before s t) (hlive : t.flow.deleted = false)
    (x : ℚ) : Returns (s.put r (.interval x)) fun s' =>
      Local p fd r rest before s' { t with flow := { t.flow with lastTime := x } } := by
  obtain ⟨latency, places, hlength, hsamples, hholds⟩ := hl.holds
  rw [flowCells_of_live hlive] at hholds
  refine (put_returns (l := [_, _]) hholds _).mono ?_
  rintro _ ⟨ram, rfl, hram⟩
  refine ⟨⟨latency, places, hlength, hsamples, ?_⟩, hl.transactions, hl.timeStart, hl.own,
    hl.others, hl.fds⟩
  rw [flowCells_of_live (by exact hlive)]
  exact hram

/-- `time_start` is set. -/
theorem Local.setTimeStart (hl : Local p fd r rest before s t) (x : ℚ) :
    Local p fd r rest before { s with timeStart := x } { t with timeStart := x } :=
  ⟨hl.holds, hl.transactions, rfl, hl.own, hl.others, hl.fds⟩

/-- **`ensure_initialized`** -/
theorem Local.ensureInitialized (hl : Local p fd r rest before s t)
    (hlive : t.flow.deleted = false) (now : Timespec) :
    Returns (s.ensureInitialized now r) fun s' =>
      Local p fd r rest before s' (t.ensureInitialized now) := by
  refine .of_bind (hl.interval hlive) ?_
  unfold Turn.ensureInitialized
  split
  · rw [hl.timeStart]
    exact (hl.setTimeStart (if t.timeStart = 0 then now.seconds else t.timeStart)).putInterval
      hlive _
  · exact .pure hl

/-- **`interval_collect`** -/
theorem simulates_intervalCollect (al : Malloc Object) (seconds : ℚ) (tid : ℕ) (now : Timespec) :
    Simulates (State.intervalCollect al seconds tid now)
      (Turn.intervalCollect seconds tid now) := by
  intro p fd r rest before s t hlive hl
  obtain ⟨latency, hflow⟩ := hl.flow hlive
  refine .of_bind hflow (.of_bind (a := r) rfl ?_)
  refine (hl.ensureInitialized hlive now).bind fun s₁ hl₁ => ?_
  have hlive₁ := (keeps_ensureInitialized now t).trans hlive
  refine .of_bind (hl₁.interval hlive₁) ?_
  unfold Turn.intervalCollect
  by_cases hdue : now.seconds - (t.ensureInitialized now).flow.lastTime < seconds
  · simp only [hdue, if_true]
    exact .pure hl₁
  · simp only [hdue, if_false]
    refine (simulates_addSample al tid now p fd r rest before s₁ _ hlive₁ hl₁).bind
      fun s₂ hl₂ => .of_bind (hl₂.interval hlive₁) (hl₂.putInterval hlive₁ _)

/-! ## Deletion -/

/-- **`delflow`** frees the objects of the flow, and epoll forgets it. -/
theorem simulates_delflow : Simulates State.delflow Turn.delflow := by
  intro p fd r rest before s t hlive hl
  obtain ⟨latency, places, hlength, hsamples, hholds⟩ := hl.holds
  rw [flowCells_of_live hlive] at hholds
  refine .of_bind (hholds.read List.mem_cons_self rfl) ?_
  refine (free_returns (l := [_, _]) hholds).bind ?_
  rintro _ ⟨ram₁, rfl, hram₁⟩
  refine .bind (P := fun s₂ => ∃ ram, s₂ = { s with ram := ram } ∧ ram.Holds
    (⟨p, .flow (object ⟨fd, p, latency, r⟩ t.flow)⟩ :: (sampleCells places t.samples ++ rest)))
    ?_ ?_
  · refine .of_bind (a := latency) rfl ?_
    refine .of_bind (hram₁.read (List.mem_cons_of_mem _ List.mem_cons_self) rfl) ?_
    exact free_returns (l := [_]) hram₁
  · rintro _ ⟨ram₂, rfl, hram₂⟩
    refine .of_bind (hram₂.read List.mem_cons_self rfl) ?_
    refine (free_returns (l := []) (k := sampleCells places t.samples ++ rest)
      (by exact hram₂)).mono ?_
    rintro _ ⟨ram₃, rfl, hram₃⟩
    refine ⟨⟨latency, places, hlength, hsamples, ?_⟩, hl.transactions, hl.timeStart,
      fun e he hp => ?_, fun e he hp => hl.others e (List.mem_of_mem_filter he) hp,
      hl.fds.sublist (List.filter_sublist.map _)⟩
    · rw [flowCells_of_deleted rfl]
      exact hram₃
    · -- the flow was known by its own descriptor
      obtain ⟨he, hne⟩ := List.mem_filter.mp he
      exact absurd (hl.own e he hp).1 (of_decide_eq_true hne)

end Flow

end Rushit
