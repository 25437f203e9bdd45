import Rushit.Common.Intern
import Rushit.Cpuinfo.Cores
/-!
# The CPU sets partition the processors

The search of `get_cpuset` numbers the pairs of physical id and core id as
they appear, and the set of each number collects the processors of the
pair. For entries with distinct processors the sets are disjoint, and two
processors share a set exactly when their entries share the pair.
-/

namespace Rushit

namespace Cores

/-- The pair that tells the physical cores apart. -/
def pair (cpu : Cpuinfo) : ℤ × ℤ := (cpu.physicalId, cpu.coreId)

/-- The processors of one physical core. -/
def processorsOf (cpus : List Cpuinfo) (core : ℤ × ℤ) : CpuSet :=
  ((cpus.filter fun cpu => pair cpu = core).map fun cpu => cpu.processor.toNat).toFinset

/-- The physical cores in the order of their first entry. -/
def coresOf (cpus : List Cpuinfo) : List (ℤ × ℤ) := internAll (cpus.map pair)

/-- **The loop invariant.** The three arrays hold the cores of the entries
seen so far, each with the processors seen so far. -/
structure Search.Holds (s : Search) (seen : List Cpuinfo) : Prop where
  numCores : s.numCores = (coresOf seen).length
  physicalId : ∀ j core, (coresOf seen)[j]? = some core → s.physicalId j = some core.1
  coreId : ∀ j core, (coresOf seen)[j]? = some core → s.coreId j = some core.2
  cpuset : ∀ j core, (coresOf seen)[j]? = some core → s.cpuset j = some (processorsOf seen core)

variable {s : Search} {seen cpus : List Cpuinfo} {cpu : Cpuinfo} {core : ℤ × ℤ} {p i j : ℕ}

theorem mem_processorsOf :
    p ∈ processorsOf cpus core ↔ ∃ cpu ∈ cpus, pair cpu = core ∧ cpu.processor.toNat = p := by
  simp only [processorsOf, List.mem_toFinset, List.mem_map, List.mem_filter, decide_eq_true_eq,
    and_assoc]

theorem mem_coresOf : core ∈ coresOf cpus ↔ ∃ cpu ∈ cpus, pair cpu = core := by
  rw [coresOf, mem_internAll, List.mem_map]

theorem length_coresOf_le : (coresOf cpus).length ≤ cpus.length := by
  rw [coresOf, length_internAll]
  exact (List.toFinset_card_le _).trans_eq (List.length_map _)

theorem coresOf_concat : coresOf (seen ++ [cpu]) = intern (coresOf seen) (pair cpu) := by
  simp [coresOf]

/-- An entry adds its processor to its own core. -/
theorem processorsOf_concat_self :
    processorsOf (seen ++ [cpu]) (pair cpu)
      = insert cpu.processor.toNat (processorsOf seen (pair cpu)) := by
  ext p
  simp [processorsOf, eq_comm]

theorem processorsOf_concat_of_ne (h : pair cpu ≠ core) :
    processorsOf (seen ++ [cpu]) core = processorsOf seen core := by
  simp [processorsOf, h]

/-- A core none of whose entries was seen has no processors yet. -/
theorem processorsOf_eq_empty (h : core ∉ coresOf seen) : processorsOf seen core = ∅ := by
  rw [Finset.eq_empty_iff_forall_notMem]
  intro p hp
  obtain ⟨cpu, hcpu, hpair, -⟩ := mem_processorsOf.mp hp
  exact h (mem_coresOf.mpr ⟨cpu, hcpu, hpair⟩)

/-! ## The search -/

theorem read_of_eq {α : Type} {a : Cells α} {x : α} (h : a j = some x) : a.read j = .ok x := by
  simp [Cells.read, h]

theorem write_of_lt {α : Type} {a : Cells α} {x : α} (h : j < cpuSetsize) :
    a.write j x = .ok (Function.update a j (some x)) := if_pos h

/-- One iteration of the inner loop compares the pair at `j`. -/
theorem find_succ {left : ℕ} (hphys : s.physicalId j = some core.1)
    (hcore : s.coreId j = some core.2) :
    s.find cpu (left + 1) j = if core = pair cpu then .ok j else s.find cpu left (j + 1) := by
  have heq : core = pair cpu ↔ core.1 = cpu.physicalId ∧ core.2 = cpu.coreId := Prod.ext_iff
  simp only [Search.find, read_of_eq hphys, read_of_eq hcore, heq]
  by_cases hp : core.1 = cpu.physicalId
  · by_cases hc : core.2 = cpu.coreId
    · simp [hp, hc, bind, Except.bind, pure, Except.pure]
    · simp [hp, hc, bind, Except.bind]
  · simp [hp, bind, Except.bind]

/-- **The search finds the place of the pair** among the cores from `j` on. -/
theorem find_eq (h : s.Holds seen) (left j : ℕ) (hj : j + left = (coresOf seen).length) :
    s.find cpu left j = .ok (j + place ((coresOf seen).drop j) (pair cpu)) := by
  induction left generalizing j with
  | zero =>
    rw [List.drop_of_length_le (by omega)]
    rfl
  | succ left ih =>
    have hlt : j < (coresOf seen).length := by omega
    have hget := List.getElem?_eq_getElem hlt
    rw [find_succ (h.physicalId j _ hget) (h.coreId j _ hget), List.drop_eq_getElem_cons hlt]
    by_cases hpair : (coresOf seen)[j] = pair cpu
    · rw [if_pos hpair, hpair, place_cons_self, Nat.add_zero]
    · rw [if_neg hpair, ih (j + 1) (by omega), place_cons_of_ne hpair, Nat.add_right_comm,
        Nat.add_assoc]

/-! ## One entry -/

theorem addCore_of_ne (hne : j ≠ s.numCores) : s.addCore cpu j = .ok s := if_neg hne

theorem addCore_of_eq (heq : j = s.numCores) (hj : j < cpuSetsize) :
    s.addCore cpu j = .ok ⟨Function.update s.cpuset j (some cpuZero), s.numCores + 1,
      Function.update s.physicalId j (some cpu.physicalId),
      Function.update s.coreId j (some cpu.coreId)⟩ := by
  rw [Search.addCore, if_pos heq]
  simp only [write_of_lt hj]
  rfl

/-- The entry's processor is put into the set at its core's index. -/
theorem enter_eq {s' : Search} {set : CpuSet} (hfind : s.find cpu s.numCores 0 = .ok j)
    (hcore : s.addCore cpu j = .ok s') (hset : s'.cpuset j = some set) (hj : j < cpuSetsize)
    (hcpu : 0 ≤ cpu.processor ∧ cpu.processor < cpuSetsize) :
    s.enter cpu = .ok { s' with
      cpuset := Function.update s'.cpuset j (some (insert cpu.processor.toNat set)) } := by
  have hmark : cpuSet cpu.processor set = insert cpu.processor.toNat set := if_pos hcpu
  rw [Search.enter, hfind, ← hmark]
  change (s.addCore cpu j >>= _) = _
  rw [hcore]
  change (s'.cpuset.read j >>= _) = _
  rw [read_of_eq hset]
  change (s'.cpuset.write j _ >>= _) = _
  rw [write_of_lt hj]
  rfl

/-- **An entry's own place**: the entry is recorded at its core's index and
every other index is as it was. -/
theorem enter_spec (h : s.Holds seen) (hlen : seen.length < cpuSetsize)
    (hcpu : 0 ≤ cpu.processor ∧ cpu.processor < cpuSetsize)
    (hj : j = place (coresOf seen) (pair cpu)) :
    ∃ s', s.enter cpu = .ok s' ∧ s'.numCores = (coresOf (seen ++ [cpu])).length ∧
      s'.physicalId j = some cpu.physicalId ∧ s'.coreId j = some cpu.coreId ∧
      s'.cpuset j = some (processorsOf (seen ++ [cpu]) (pair cpu)) ∧
      ∀ i, i ≠ j → s'.physicalId i = s.physicalId i ∧ s'.coreId i = s.coreId i ∧
        s'.cpuset i = s.cpuset i := by
  have hfind : s.find cpu s.numCores 0 = .ok j := by
    rw [find_eq h _ 0 (by rw [h.numCores, Nat.zero_add]), List.drop_zero, Nat.zero_add, hj]
  have hle : (coresOf seen).length ≤ seen.length := length_coresOf_le
  rw [coresOf_concat, length_intern, processorsOf_concat_self]
  by_cases hmem : pair cpu ∈ coresOf seen
  · -- a core met before
    have hget : (coresOf seen)[j]? = some (pair cpu) := hj ▸ getElem?_place hmem
    have hlt : j < (coresOf seen).length := hj ▸ place_lt hmem
    have hne : j ≠ s.numCores := by rw [h.numCores]; omega
    rw [if_pos hmem]
    exact ⟨_, enter_eq hfind (addCore_of_ne hne) (h.cpuset j _ hget) (by omega) hcpu,
      h.numCores, h.physicalId j _ hget, h.coreId j _ hget, Function.update_self _ _ _,
      fun i hi => ⟨rfl, rfl, Function.update_of_ne hi _ _⟩⟩
  · -- a new core, whose set is cleared first
    have hend : j = (coresOf seen).length := hj.trans (place_of_notMem hmem)
    have hw : j < cpuSetsize := by omega
    rw [if_neg hmem, processorsOf_eq_empty hmem]
    refine ⟨_, enter_eq hfind (addCore_of_eq (hend.trans h.numCores.symm) hw)
      (Function.update_self _ _ _) hw hcpu, congrArg (· + 1) h.numCores,
      Function.update_self _ _ _, Function.update_self _ _ _, Function.update_self _ _ _,
      fun i hi => ⟨Function.update_of_ne hi _ _, Function.update_of_ne hi _ _, ?_⟩⟩
    simp only [Function.update_of_ne hi]

/-- **The step lemma**: the body of the outer loop keeps the invariant. -/
theorem enter_holds (h : s.Holds seen) (hlen : seen.length < cpuSetsize)
    (hcpu : 0 ≤ cpu.processor ∧ cpu.processor < cpuSetsize) :
    ∃ s', s.enter cpu = .ok s' ∧ s'.Holds (seen ++ [cpu]) := by
  obtain ⟨s', hrun, hnum, hphys, hcore, hset, hframe⟩ := enter_spec h hlen hcpu rfl
  have hself : (coresOf (seen ++ [cpu]))[place (coresOf seen) (pair cpu)]? = some (pair cpu) := by
    rw [coresOf_concat]
    exact getElem?_intern_self
  -- elsewhere the cores are those of before, and none of them is the entry's
  have hother : ∀ j core, (coresOf (seen ++ [cpu]))[j]? = some core →
      j ≠ place (coresOf seen) (pair cpu) → (coresOf seen)[j]? = some core ∧ pair cpu ≠ core := by
    intro j core hj hne
    refine ⟨?_, ?_⟩
    · rwa [coresOf_concat, getElem?_intern_of_ne hne] at hj
    · rintro rfl
      exact hne (eq_of_getElem?_internAll hj hself)
  have hplace : ∀ core, (coresOf (seen ++ [cpu]))[place (coresOf seen) (pair cpu)]? = some core →
      core = pair cpu := fun core hj => Option.some.inj (hj.symm.trans hself)
  refine ⟨s', hrun, hnum, ?_, ?_, ?_⟩
  · intro j core hj
    by_cases hne : j = place (coresOf seen) (pair cpu)
    · subst hne
      rw [hplace core hj]
      exact hphys
    · rw [(hframe j hne).1]
      exact h.physicalId j core (hother j core hj hne).1
  · intro j core hj
    by_cases hne : j = place (coresOf seen) (pair cpu)
    · subst hne
      rw [hplace core hj]
      exact hcore
    · rw [(hframe j hne).2.1]
      exact h.coreId j core (hother j core hj hne).1
  · intro j core hj
    by_cases hne : j = place (coresOf seen) (pair cpu)
    · subst hne
      rw [hplace core hj]
      exact hset
    · obtain ⟨hold, hpair⟩ := hother j core hj hne
      rw [(hframe j hne).2.2, processorsOf_concat_of_ne hpair]
      exact h.cpuset j core hold

/-! ## The whole loop -/

/-- **The run lemma**: the outer loop records every entry. -/
theorem foldlM_enter_holds {rest : List Cpuinfo} (h : s.Holds seen)
    (hlen : (seen ++ rest).length ≤ cpuSetsize)
    (hrest : ∀ cpu ∈ rest, 0 ≤ cpu.processor ∧ cpu.processor < cpuSetsize) :
    ∃ s', rest.foldlM Search.enter s = .ok s' ∧ s'.Holds (seen ++ rest) := by
  induction rest generalizing s seen with
  | nil => exact ⟨s, rfl, by rwa [List.append_nil]⟩
  | cons cpu rest ih =>
    rw [List.length_append, List.length_cons] at hlen
    obtain ⟨s₁, hrun, h₁⟩ := enter_holds h (by omega) (hrest cpu List.mem_cons_self)
    obtain ⟨s', hrun', h'⟩ := ih h₁ (by simp; omega) fun c hc => hrest c (List.mem_cons_of_mem _ hc)
    refine ⟨s', foldlM_cons_eq_ok.mpr ⟨s₁, hrun, hrun'⟩, ?_⟩
    rwa [List.append_assoc] at h'

/-- **The result of `get_cpuset`**, whatever its array held before. -/
theorem getCpuset_eq (hne : cpus ≠ []) (hlen : cpus.length ≤ cpuSetsize)
    (hcpus : ∀ cpu ∈ cpus, 0 ≤ cpu.processor ∧ cpu.processor < cpuSetsize)
    (cpuset : Cells CpuSet) :
    ∃ sets, getCpuset (some cpus) cpuset = .ok ((coresOf cpus).length, sets) ∧
      ∀ j core, (coresOf cpus)[j]? = some core → sets j = some (processorsOf cpus core) := by
  have hstart : Search.Holds ⟨cpuset, 0, fun _ => none, fun _ => none⟩ [] := by
    constructor <;> simp [coresOf]
  obtain ⟨s, hrun, h⟩ := foldlM_enter_holds hstart (by simpa using hlen) hcpus
  rw [List.nil_append] at h
  refine ⟨s.cpuset, ?_, h.cpuset⟩
  cases cpus with
  | nil => exact absurd rfl hne
  | cons cpu rest => simp [getCpuset, hrun, h.numCores, bind, Except.bind, pure, Except.pure]

/-! ## The partition -/

/-- With distinct processors a processor has one core. -/
theorem pair_eq_of_processor (hcpus : ∀ cpu ∈ cpus, 0 ≤ cpu.processor)
    (hdist : (cpus.map Cpuinfo.processor).Nodup) {c d : Cpuinfo} (hc : c ∈ cpus) (hd : d ∈ cpus)
    (h : c.processor.toNat = d.processor.toNat) : c = d := by
  refine List.inj_on_of_nodup_map hdist hc hd ?_
  have := hcpus c hc
  have := hcpus d hd
  omega

/-- **The partition.** The sets of `S` below `n` are disjoint, hold exactly
the processors of the entries, and keep the processors of one core
together and those of two cores apart. -/
structure Partition (cpus : List Cpuinfo) (n : ℕ) (S : ℕ → CpuSet) : Prop where
  disjoint : ∀ i < n, ∀ j < n, i ≠ j → Disjoint (S i) (S j)
  covers : ∀ p, (∃ j < n, p ∈ S j) ↔ ∃ cpu ∈ cpus, cpu.processor = p
  together : ∀ c ∈ cpus, ∀ d ∈ cpus,
    (∃ j < n, c.processor.toNat ∈ S j ∧ d.processor.toNat ∈ S j) ↔ pair c = pair d

/-- The processors of the cores, by the index of the core. -/
def setsOf (cpus : List Cpuinfo) (j : ℕ) : CpuSet :=
  match (coresOf cpus)[j]? with
  | some core => processorsOf cpus core
  | none => ∅

theorem setsOf_of_lt (hj : j < (coresOf cpus).length) :
    setsOf cpus j = processorsOf cpus (coresOf cpus)[j] := by
  rw [setsOf, List.getElem?_eq_getElem hj]

theorem mem_setsOf : p ∈ setsOf cpus j ↔
    ∃ cpu ∈ cpus, (coresOf cpus)[j]? = some (pair cpu) ∧ cpu.processor.toNat = p := by
  unfold setsOf
  split
  · next core hcore =>
    rw [mem_processorsOf, hcore]
    simp only [Option.some.injEq, eq_comm]
  · next hnone => simp [hnone]

theorem partition_setsOf (hcpus : ∀ cpu ∈ cpus, 0 ≤ cpu.processor)
    (hdist : (cpus.map Cpuinfo.processor).Nodup) :
    Partition cpus (coresOf cpus).length (setsOf cpus) := by
  have hplace : ∀ c ∈ cpus, ∃ j < (coresOf cpus).length, (coresOf cpus)[j]? = some (pair c) :=
    fun c hc => ⟨_, place_lt (mem_coresOf.mpr ⟨c, hc, rfl⟩),
      getElem?_place (mem_coresOf.mpr ⟨c, hc, rfl⟩)⟩
  refine ⟨?_, ?_, ?_⟩
  · intro i _ j _ hij
    rw [Finset.disjoint_left]
    intro p hi hj
    obtain ⟨c, hc, hci, rfl⟩ := mem_setsOf.mp hi
    obtain ⟨d, hd, hdj, heq⟩ := mem_setsOf.mp hj
    obtain rfl := pair_eq_of_processor hcpus hdist hd hc heq
    exact hij (eq_of_getElem?_internAll hci hdj)
  · intro p
    constructor
    · rintro ⟨j, -, hp⟩
      obtain ⟨c, hc, -, rfl⟩ := mem_setsOf.mp hp
      exact ⟨c, hc, (Int.toNat_of_nonneg (hcpus c hc)).symm⟩
    · rintro ⟨c, hc, hp⟩
      obtain ⟨j, hj, hget⟩ := hplace c hc
      exact ⟨j, hj, mem_setsOf.mpr ⟨c, hc, hget, by omega⟩⟩
  · intro c hc d hd
    constructor
    · rintro ⟨j, -, hcj, hdj⟩
      obtain ⟨c', hc', hgetc, heqc⟩ := mem_setsOf.mp hcj
      obtain ⟨d', hd', hgetd, heqd⟩ := mem_setsOf.mp hdj
      obtain rfl := pair_eq_of_processor hcpus hdist hc' hc heqc
      obtain rfl := pair_eq_of_processor hcpus hdist hd' hd heqd
      exact Option.some.inj (hgetc.symm.trans hgetd)
    · intro hpair
      obtain ⟨j, hj, hget⟩ := hplace c hc
      exact ⟨j, hj, mem_setsOf.mpr ⟨c, hc, hget, rfl⟩, mem_setsOf.mpr ⟨d, hd, hpair ▸ hget, rfl⟩⟩

/-! ## The worker threads -/

/-- Every call of the thread library succeeds. -/
def Pthread.Works (lib : Pthread) : Prop :=
  lib.attrInit = 0 ∧ (∀ set, lib.setaffinity set = 0) ∧ (∀ i, lib.create i = 0) ∧
    lib.attrDestroy = 0

/-- A run ends with `x`, or with the fatal error of a failed library call. -/
def Pthread.Ends {α : Type} (lib : Pthread) (run : Except Fault α) (x : α) : Prop :=
  run = .ok x ∨ (∃ msg, run = .error (.fatal msg)) ∧ ¬ lib.Works

variable {lib : Pthread} {α β : Type}

/-- Runs that end well follow one another. -/
theorem Pthread.Ends.bind {run : Except Fault α} {next : α → Except Fault β} {x : α} {y : β}
    (h : lib.Ends run x) (hnext : lib.Ends (next x) y) : lib.Ends (run >>= next) y := by
  rcases h with rfl | ⟨⟨msg, rfl⟩, hfail⟩
  · exact hnext
  · exact .inr ⟨⟨msg, rfl⟩, hfail⟩

theorem ends_check {call : String} {s : ℕ} (h : lib.Works → s = 0) :
    lib.Ends (lib.check call s) () := by
  by_cases hs : s = 0
  · exact .inl (by simp [Pthread.check, hs])
  · exact .inr ⟨⟨_, if_pos hs⟩, fun hw => hs (h hw)⟩

/-- One thread is created with the set of its number. -/
theorem ends_startThread {sets : Cells CpuSet} {nCores : ℕ} {set : CpuSet}
    (hset : sets (i % nCores) = some set) (affinities : List (Option CpuSet)) :
    lib.Ends (startThread lib true nCores sets affinities i) (affinities ++ [some set]) := by
  have hread := read_of_eq hset
  have haffinity : lib.Ends (lib.check "pthread_attr_setaffinity_np" (lib.setaffinity set)) () :=
    ends_check fun h => h.2.1 set
  have hcreate : lib.Ends (lib.check "pthread_create" (lib.create i)) () :=
    ends_check fun h => h.2.2.1 i
  have hrun : startThread lib true nCores sets affinities i =
      (lib.check "pthread_attr_setaffinity_np" (lib.setaffinity set) >>= fun _ =>
        lib.check "pthread_create" (lib.create i) >>= fun _ =>
          .ok (affinities ++ [some set])) := by
    simp only [startThread, if_true, hread]
    rfl
  rw [hrun]
  exact haffinity.bind (hcreate.bind (.inl rfl))

/-- **The run lemma** of the thread loop. -/
theorem ends_foldlM_startThread (lib : Pthread) {sets : Cells CpuSet} {nCores : ℕ} {S : ℕ → CpuSet}
    (hset : ∀ j < nCores, sets j = some (S j)) (hpos : 0 < nCores) (is : List ℕ)
    (affinities : List (Option CpuSet)) :
    lib.Ends (is.foldlM (startThread lib true nCores sets) affinities)
      (affinities ++ is.map fun i => some (S (i % nCores))) := by
  induction is generalizing affinities with
  | nil => exact .inl (by simp [pure, Except.pure])
  | cons i is ih =>
    rw [List.foldlM_cons]
    refine (ends_startThread (hset _ (Nat.mod_lt i hpos)) affinities).bind ?_
    have hrest := ih (affinities ++ [some (S (i % nCores))])
    rwa [List.append_assoc] at hrest

/-- **Thread `i` gets set `i % n_cores`.** -/
theorem ends_startWorkerThreads {sets : Cells CpuSet} {nCores : ℕ} {S : ℕ → CpuSet}
    (hrun : getCpuset (some cpus) (fun _ => some ∅) = .ok (nCores, sets))
    (hset : ∀ j < nCores, sets j = some (S j)) (hpos : 0 < nCores) (nWorkers : ℕ) :
    lib.Ends (startWorkerThreads lib (some cpus) nWorkers true)
      ((List.range nWorkers).map fun i => some (S (i % nCores))) := by
  have heq : startWorkerThreads lib (some cpus) nWorkers true =
      (lib.check "pthread_attr_init" lib.attrInit >>= fun _ =>
        (List.range nWorkers).foldlM (startThread lib true nCores sets) [] >>= fun affinities =>
          lib.check "pthread_attr_destroy" lib.attrDestroy >>= fun _ => .ok affinities) := by
    simp only [startWorkerThreads, if_true, hrun]
    rfl
  have hthreads := ends_foldlM_startThread lib hset hpos (List.range nWorkers) []
  rw [List.nil_append] at hthreads
  rw [heq]
  exact (ends_check fun h => h.1).bind
    (hthreads.bind ((ends_check fun h => h.2.2.2).bind (.inl rfl)))

/-- **`get_cpuset` partitions the processors by physical core, and each
worker thread is pinned to the processors of one core.** -/
theorem cpusets_partition (cpus : List Cpuinfo) (hne : 1 ≤ cpus.length)
    (hlen : cpus.length ≤ cpuSetsize)
    (hcpus : ∀ cpu ∈ cpus, 0 ≤ cpu.processor ∧ cpu.processor < cpuSetsize)
    (hdist : (cpus.map Cpuinfo.processor).Nodup) :
    ∃ S, Partition cpus (cpus.map pair).toFinset.card S ∧
      (∀ cpuset, ∃ sets, getCpuset (some cpus) cpuset = .ok ((cpus.map pair).toFinset.card, sets) ∧
        ∀ j < (cpus.map pair).toFinset.card, sets j = some (S j)) ∧
      (∀ j < (cpus.map pair).toFinset.card, ∃ core, ∀ p, p ∈ S j ↔
        ∃ cpu ∈ cpus, pair cpu = core ∧ cpu.processor = p) ∧
      ∀ lib : Pthread, ∀ nWorkers, lib.Ends (startWorkerThreads lib (some cpus) nWorkers true)
        ((List.range nWorkers).map fun i => some (S (i % (cpus.map pair).toFinset.card))) := by
  have hpos : ∀ cpu ∈ cpus, 0 ≤ cpu.processor := fun cpu hcpu => (hcpus cpu hcpu).1
  have hnil : cpus ≠ [] := List.length_pos_iff.mp hne
  have hsets : ∀ cpuset, ∃ sets, getCpuset (some cpus) cpuset = .ok ((coresOf cpus).length, sets) ∧
      ∀ j < (coresOf cpus).length, sets j = some (setsOf cpus j) := by
    intro cpuset
    obtain ⟨sets, hrun, hsets⟩ := getCpuset_eq hnil hlen hcpus cpuset
    exact ⟨sets, hrun, fun j hj => by
      rw [hsets j _ (List.getElem?_eq_getElem hj), setsOf_of_lt hj]⟩
  have hcores : 0 < (coresOf cpus).length := by
    obtain ⟨cpu, hcpu⟩ := List.exists_mem_of_ne_nil cpus hnil
    exact List.length_pos_of_mem (mem_coresOf.mpr ⟨cpu, hcpu, rfl⟩)
  have hcount : (cpus.map pair).toFinset.card = (coresOf cpus).length := length_internAll.symm
  rw [hcount]
  refine ⟨setsOf cpus, partition_setsOf hpos hdist, hsets, fun j hj => ⟨(coresOf cpus)[j], ?_⟩, ?_⟩
  · intro p
    rw [setsOf_of_lt hj, mem_processorsOf]
    refine exists_congr fun cpu => and_congr_right fun hcpu => and_congr_right fun _ => ?_
    have := hpos cpu hcpu
    omega
  · intro lib nWorkers
    obtain ⟨sets, hrun, hset⟩ := hsets fun _ => some ∅
    exact ends_startWorkerThreads hrun hset hcores nWorkers

/-- Two cores of two hardware threads each, listed alternately. -/
def twoCores : List Cpuinfo :=
  [⟨0, 0, 4, 0, 2⟩, ⟨1, 0, 4, 1, 2⟩, ⟨2, 0, 4, 0, 2⟩, ⟨3, 0, 4, 1, 2⟩]

theorem cpusets_partition_twoCores :
    (∀ cpu ∈ twoCores, 0 ≤ cpu.processor ∧ cpu.processor < cpuSetsize) ∧
      ∃ S, Partition twoCores (twoCores.map pair).toFinset.card S :=
  have hcpus : ∀ cpu ∈ twoCores, 0 ≤ cpu.processor ∧ cpu.processor < cpuSetsize := by decide
  have ⟨S, h, _⟩ := cpusets_partition twoCores (by decide) (by decide) hcpus (by decide)
  ⟨hcpus, S, h⟩

end Cores

end Rushit
