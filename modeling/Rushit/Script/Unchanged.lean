import Rushit.Lua.Transfer
import Rushit.Serialize.Keeps
import Rushit.Serialize.Supported
import Rushit.Script.Collect
import Rushit.Script.Strings
import Rushit.Serialize.RoundTrip
/-!
# What comes back unchanged

A value that the main script marks with `collect` goes to every slave
inside the hooks, and comes back with the pull: it is serialised and
loaded twice. Where the hooks do not change it, what each collector ends
with is the value that was marked, once from each slave, with the
sharing it had in the main script (`collected_unchanged`).
-/

namespace Rushit

namespace Serialize

open Lua

variable {al : Allocator} {G : Graph} {σ : Target} {cap : Site → Addr → Prop} {P : Addr → Prop}
variable {c : Addr} {v w : Value} {t : SValue} {h : Heap}

/-! ## A slave's copy -/

/-- A heap with more in it keeps the invariant of the cache. -/
theorem Inv.withHeap (hinv : Inv G P σ) (hv : Valid cap σ)
    (hkeep : ∀ x, σ.heap.Live x → h.lookup x = σ.heap.lookup x) : Inv G P (σ.withHeap h) := by
  have hslot : ∀ e f i, (e, f, i) ∈ σ.upvalueMap →
      h.upvalueid f i = σ.heap.upvalueid f i := fun e f i hm =>
    Heap.upvalueid_congr (hkeep f (hv.upvalue e f i hm).live)
  have hcell : ∀ e x, (σ.withHeap h).corr.cell e x ↔ σ.corr.cell e x := by
    intro e x
    constructor
    · rintro ⟨f, i, hm, hx⟩
      exact ⟨f, i, hm, by rw [← hslot e f i hm]; exact hx⟩
    · rintro ⟨f, i, hm, hx⟩
      exact ⟨f, i, hm, (hslot e f i hm).trans hx⟩
  have hle : σ.corr ≤ (σ.withHeap h).corr := ⟨fun _ _ ha => ha, fun e x hx => (hcell e x).mpr hx⟩
  refine ⟨fun a a' hm => ?_, fun e x hx => ?_, hinv.object_inj, hinv.table_fun,
    fun e d x hx hx' => hinv.cell_inj e d x ((hcell e x).mp hx) ((hcell d x).mp hx'),
    hinv.cells_nodup⟩
  · have hsame := hkeep a' (hv.object a a' hm).live
    rcases hinv.object a a' hm with ⟨es, t, hG, ht, hc⟩ | ⟨c, c', hG, hc', hp, hc⟩
    · exact .inl ⟨es, t, hG, hsame.trans ht, fun hn => (hc hn).imp fun _ _ hst => hst.mono hle⟩
    · exact .inr ⟨c, c', hG, hsame.trans hc', hp, fun hn => (hc hn).imp fun _ _ hx => hle.2 _ _ hx⟩
  · obtain ⟨s, u, hG, hu, hval⟩ := hinv.cell e x ((hcell e x).mp hx)
    exact ⟨s, u, hG, (hkeep x (Heap.live_of_lookup hu)).trans hu, hval.mono hle⟩

/-- Its own tree gives a key without NUL bytes back. -/
theorem SValue.Expands.key (ht : t.Expands G v) (hs : v.Scalar) (hn : v.NulFree) : t.key = v := by
  cases t with
  | boolean b =>
    obtain rfl : v = _ := ht
    rfl
  | number n =>
    obtain rfl : v = _ := ht
    rfl
  | string s =>
    obtain ⟨s', rfl, rfl⟩ := ht
    exact cut_eq_self hn
  | function id code us =>
    obtain ⟨rfl, -⟩ := ht
    exact hs.elim
  | table id es =>
    obtain ⟨rfl, -⟩ := ht
    exact hs.elim

/-- **What was recorded of a wrapper is an image of what it held.** -/
theorem Inv.recorded (hinv : Inv G noOne σ) (hG : Regular G)
    (hnul : ∀ a n, G a = some n → n.NulFree) (hv : Valid (capture G) σ)
    (hrec : σ.collectorMap.lookup c ≠ none) :
    ∃ v, Marked G c v ∧ σ.corr.Val v (σ.recorded c) := by
  obtain ⟨⟨o, k⟩, hr⟩ := Option.ne_none_iff_exists'.mp hrec
  rcases hv.collector c o k (mem_of_lookup hr) with
    ⟨e, i, ⟨s, hs, hcol⟩, hm, rfl⟩ | ⟨a, ⟨es, e, hes, he, hk, hcol⟩, -, hm, t, ht⟩
  · -- the variable that held the wrapper
    obtain ⟨-, x, w, hx, hw⟩ := hv.upvalue e o i hm
    obtain ⟨d, m, hd, -, -⟩ := Heap.upvalueid_eq_some.mp hx
    have htable : σ.heap.table? o = none := by rw [Heap.table?, hd]
    have hget : σ.heap.getupvalue o i = some w := by
      rw [Heap.getupvalue, hx]
      exact Heap.cell?_eq_some.mpr hw
    have hrecorded : σ.recorded c = w := by
      simp [Target.recorded, hr, htable, SValue.toNat, toNat_ofNat, hget]
    obtain ⟨s', w', hs', hw', hval⟩ := hinv.cell e x ⟨o, i, hm, hx⟩
    obtain rfl : s = s' := by simpa [hs] using hs'
    obtain rfl : w = w' := by simpa [hw] using hw'
    have hfree : s.value.NulFree := hnul e _ hs
    refine ⟨s.value, ⟨e, _, hs, List.mem_singleton.mpr ?_⟩, ?_⟩
    · rw [← hcol]
    · rw [hrecorded, ← cut_eq_self hfree]
      exact hval
  · -- the table entry that held the wrapper
    have hfree := hnul a _ hes
    have hscalar : e.1.Scalar :=
      hG.scalarKeys a _ hes e he (by rw [hcol]; exact Option.some_ne_none c)
    have hkey : k.key = e.1 := hk.key hscalar (hfree e he).1
    rcases hinv.object a o hm with ⟨es', t', hes', ht', hc⟩ | ⟨d, d', hd, -⟩
    · obtain rfl : es = es' := by simpa [hes] using hes'
      obtain rfl : t = t' := by simpa [ht] using ht'
      have hstored := hc id
      rw [stored_eq_reverse hfree (hG.nodup a es hes)] at hstored
      obtain ⟨e', he', hek, hev⟩ := forall₂_mem_left hstored (List.mem_reverse.mpr he)
      have hek' : e'.1 = e.1 := by
        have hnone : e.1.ref? = none := by
          cases hv : e.1 with
          | table a => rw [hv] at hscalar; exact hscalar.elim
          | function a => rw [hv] at hscalar; exact hscalar.elim
          | _ => rfl
        exact (Corr.val_of_ref_none hnone).mp hek
      have hrecorded : σ.recorded c = e'.2 := by
        have hlookup : t.entries.lookup k.key = some e'.2 := by
          rw [hkey, ← hek']
          exact lookup_of_mem_nodup t.nodup he'
        simp [Target.recorded, hr, Heap.table?_eq_some.mpr ht, Table.rawget, hlookup]
      refine ⟨e.2.value, ⟨a, _, hes, List.mem_map.mpr ⟨e, he, ?_⟩⟩, ?_⟩
      · rw [← hcol]
      · rw [hrecorded]
        exact hev
    · rw [hes] at hd
      cases hd

end Serialize

namespace Script

open Lua Serialize

variable {al : Allocator} {rs : List Registration} {s s' : System} {ss : Slave} {c : Addr}

/-- **The image of a marked value can be pulled.** -/
theorem collectable_image {G : Graph} {σ : Target} {v w : Value} {t : SValue}
    (hu : σ.heap.Unmarked) (hG : Agree G σ.heap.plain σ.corr) (hval : σ.corr.Val v w)
    (ht : t.Expands G v) (hfree : v.NulFree) (hnul : ∀ a n, G a = some n → n.NulFree) :
    Collectable σ.heap w := by
  have hunwrapped : ∀ a n, σ.heap.plain a = some n → n.Unwrapped := by
    intro a n ha
    unfold Heap.plain at ha
    split at ha
    · obtain rfl := Option.some.inj ha
      intro e he
      obtain ⟨d, -, rfl⟩ := List.mem_map.mp he
      rfl
    · obtain rfl := Option.some.inj ha
      trivial
    · obtain rfl := Option.some.inj ha
      rfl
    · cases ha
  refine ⟨?_, ?_, hval.nulFree.mp hfree, ?_, ?_⟩
  all_goals rw [hu.captured]
  · exact hG.supportedFrom hval ht.supportedFrom
  · exact hG.acyclicFrom hval fun a ha => ht.founded ha
  · exact hG.allFrom hval (fun _ _ h => (Corr.nulFree h).mp) fun b n _ hn => hnul b n hn
  · exact fun b n _ hn => hunwrapped b n hn

/-! ## Runs in which nothing is changed -/

/-- The Lua code of the slaves makes no wrappers, and leaves what is
there as it is. -/
def Quiet (s : System) : Action → Prop
  | .slave h => h.Unmarked
  | .body i h => ∀ ss, s.slaves[i]? = some ss →
    h.Unmarked ∧ ∀ x, ss.target.heap.Live x → h.lookup x = ss.target.heap.lookup x
  | _ => True

/-- The hooks of the engine are among the registrations. -/
def Engine.HooksOf (se : Engine) (rs : List Registration) : Prop :=
  ∀ hid f, se.hooks hid = some f → ∃ p ∈ rs, p.Serializes f

/-- A slave that has loaded some of the hooks, and nothing else. -/
structure Slave.Loaded (rs : List Registration) (ss : Slave) : Prop where
  valid : Valid (capture (merged rs)) ss.target
  inv : Serialize.Inv (merged rs) noOne ss.target
  unmarked : ss.target.heap.Unmarked

/-- Loading a hook. -/
theorem Slave.Loaded.pushHook {se : Engine} {ss' : Slave} {hid : HookId} {v : Option Value}
    (h : ss.Loaded rs) (hrs : Exact rs) (hooks : se.HooksOf rs)
    (hpush : Script.pushHook al se hid ss = .ok (v, ss')) : ss'.Loaded rs := by
  unfold Script.pushHook at hpush
  split at hpush
  · cases hpush
    exact h
  · split at hpush
    · cases hpush
      exact h
    · rename_i f hf
      obtain ⟨p, hp, hser⟩ := hooks hid f hf
      obtain ⟨-, hexp⟩ := expands_merged hrs.consistent hp hser
      obtain ⟨⟨key, σ⟩, hload, hret⟩ := bind_eq_ok.mp hpush
      obtain ⟨key', σ', heq, hv, hinv, -⟩ :=
        deserializeFunction_inv hrs.regular al f hexp ss.target h.valid h.inv
      obtain ⟨rfl, rfl⟩ : key = key' ∧ σ = σ' := by simpa [hload] using heq
      cases hret
      exact ⟨hv, hinv, (keptByLoads_unmarked al).deserializeFunction hload h.unmarked⟩

/-- A body that leaves what is there as it is. -/
theorem Slave.Loaded.body {h : Heap} (hl : ss.Loaded rs) (hu : h.Unmarked)
    (hmut : Mutated ss.target (ss.target.withHeap h))
    (hkeep : ∀ x, ss.target.heap.Live x → h.lookup x = ss.target.heap.lookup x) :
    Slave.Loaded rs { ss with target := ss.target.withHeap h } :=
  ⟨Valid.mutated hl.valid hmut, hl.inv.withHeap hl.valid hkeep, hu⟩

/-- Hooks are registered once and for all. -/
theorem hooks_of_step {a : Action} (hs : step al s a s') (h : s'.engine.HooksOf rs) :
    s.engine.HooksOf rs := by
  obtain ⟨-, n, hexec⟩ := hs
  cases a with
  | script h =>
    cases hexec
    exact h
  | collect v =>
    obtain ⟨w, e, he, rfl⟩ := exec_collect hexec
    cases he
    exact h
  | register runMode hid v =>
    obtain ⟨e, he, rfl⟩ := exec_register hexec
    rcases storeHook_hooks he with rfl | ⟨a, f, -, hnone, rfl⟩
    · exact h
    · intro hid' g hg
      have hne : hid' ≠ hid := by
        rintro rfl
        rw [hnone] at hg
        cases hg
      exact h hid' g (by simpa [hne] using hg)
  | slave h =>
    cases hexec
    exact h
  | fire i hid =>
    obtain ⟨ss, v, ss', -, -, rfl⟩ := exec_fire hexec
    exact h
  | body i h =>
    obtain ⟨ss, -, rfl⟩ := exec_body hexec
    exact h
  | empty =>
    obtain ⟨e, he, rfl⟩ := exec_empty hexec
    obtain ⟨h', rfl, -⟩ := emptyCollectors_suffix he
    exact h
  | pull i =>
    obtain ⟨ss, e, -, he, rfl⟩ := exec_pull hexec
    obtain ⟨h', rfl, -⟩ := scriptEnginePullData_suffix he
    exact h

/-- One slave of the list changes. -/
theorem loaded_set {slaves : List Slave} (h : ∀ ss ∈ slaves, ss.Loaded rs) (i : ℕ)
    (hss : ss.Loaded rs) : ∀ r ∈ slaves.set i ss, r.Loaded rs := by
  intro r hr
  rcases List.mem_or_eq_of_mem_set hr with hr | rfl
  · exact h r hr
  · exact hss

/-- **A quiet step keeps the slaves at what they have loaded.** -/
theorem loaded_step {a : Action} (hrs : Exact rs) (hs : step al s a s') (hq : Quiet s a)
    (hooks : s.engine.HooksOf rs) (h : ∀ ss ∈ s.slaves, ss.Loaded rs) :
    ∀ ss ∈ s'.slaves, ss.Loaded rs := by
  obtain ⟨hallow, n, hexec⟩ := hs
  cases a with
  | script h' =>
    cases hexec
    exact h
  | collect v =>
    obtain ⟨w, e, -, rfl⟩ := exec_collect hexec
    exact h
  | register runMode hid v =>
    obtain ⟨e, -, rfl⟩ := exec_register hexec
    exact h
  | slave h' =>
    cases hexec
    intro ss hss
    rcases List.mem_append.mp hss with hss | hss
    · exact h ss hss
    · rw [List.mem_singleton.mp hss]
      exact ⟨Valid.start _ h', Inv.start _ _ h', hq⟩
  | fire i hid =>
    obtain ⟨ss, v, ss', hss, hpush, rfl⟩ := exec_fire hexec
    exact loaded_set h i ((h ss (List.mem_of_getElem? hss)).pushHook hrs hooks hpush)
  | body i h' =>
    obtain ⟨ss, hss, rfl⟩ := exec_body hexec
    obtain ⟨hu, hkeep⟩ := hq ss hss
    exact loaded_set h i ((h ss (List.mem_of_getElem? hss)).body hu (hallow ss hss) hkeep)
  | empty =>
    obtain ⟨e, -, rfl⟩ := exec_empty hexec
    exact h
  | pull i =>
    obtain ⟨ss, e, -, -, rfl⟩ := exec_pull hexec
    exact h

/-- **In a quiet run every slave has loaded hooks, and nothing else.** -/
theorem loaded_of_run {h : Heap} {isClient : Bool} {as : List Action} (hrs : Exact rs)
    (hrun : Run (Guarded (step al) Quiet) (System.create h isClient) as s)
    (hooks : s.engine.HooksOf rs) : ∀ ss ∈ s.slaves, ss.Loaded rs := by
  refine hrun.preserves_of_guarded
    (I := fun s => s.engine.HooksOf rs → ∀ ss ∈ s.slaves, ss.Loaded rs)
    (fun s a s' ih hq hs hooks' => ?_) (fun _ ss hss => ?_) hooks
  · have hbefore := hooks_of_step hs hooks'
    exact loaded_step hrs hs hq hbefore (ih hbefore)
  · cases hss

/-! ## The round trip -/

/-- What such a slave has recorded of a wrapper. -/
theorem Slave.Loaded.image (h : ss.Loaded rs) (hrs : Exact rs) (hrec : Recorded ss c) :
    ∃ v, Marked (merged rs) c v ∧ ss.target.corr.Val v (ss.target.recorded c) :=
  h.inv.recorded hrs.regular (fun _ _ ha => hrs.nulFree_merged ha) h.valid hrec

/-- It can be pulled. -/
theorem Slave.Loaded.collectable (h : ss.Loaded rs) (hrs : Exact rs) (hrec : Recorded ss c) :
    Collectable ss.target.heap (ss.target.recorded c) := by
  have hnul : ∀ a n, merged rs a = some n → n.NulFree := fun _ _ ha => hrs.nulFree_merged ha
  obtain ⟨v, hm, hval⟩ := h.image hrs hrec
  obtain ⟨hfree, t, ht⟩ := hrs.marked hm
  exact collectable_image h.unmarked (agree_of_nulFree hrs.regular hnul h.inv.agree) hval ht
    hfree hnul

/-- `get_collected_value` returns it. -/
theorem Slave.Loaded.getCollectedValue_returns (al : Allocator) (h : ss.Loaded rs)
    (hrs : Exact rs) (hrec : Recorded ss c) :
    ∃ N, ∀ n ≥ N, ∃ sv, getCollectedValue al n ss c = .ok sv ∧
      sv.Expands ss.target.heap.captured (ss.target.recorded c) := by
  obtain ⟨N, hN⟩ := (h.collectable hrs hrec).dumps.returns
  refine ⟨N, fun n hn => ?_⟩
  obtain ⟨sv, hsv⟩ := hN n hn
  refine ⟨sv, ?_, serializeObject_expands hsv⟩
  unfold getCollectedValue
  rw [pushCollectedValue_eq h.valid]
  exact hsv

/-- What a slave gives back is an image of the hooks. -/
theorem Slave.Loaded.comp {h h' : Heap} {R : Corr} (hl : ss.Loaded rs) (hrs : Exact rs)
    (hp : Pulled ss.target.heap h h' R) :
    Agree (merged rs) h'.plain (ss.target.corr.comp R) ∧
      (ss.target.corr.comp R).TablesOneToOne (merged rs) ∧
      (ss.target.corr.comp R).CellsOneToOne := by
  have hagree := agree_of_nulFree hrs.regular (fun _ _ ha => hrs.nulFree_merged ha) hl.inv.agree
  have htables : ss.target.corr.TablesOneToOne (merged rs) :=
    hl.inv.tablesOneToOne fun a es n ha hn => by
      rw [ha] at hn
      exact ⟨es, (Option.some.inj hn).symm⟩
  exact ⟨hagree.comp hp.agree, htables.comp hagree hp.tables,
    hl.inv.cellsOneToOne.comp hp.cells⟩

/-- What is an image of an image is an image. -/
theorem exists_rel_of_comp {R R' : Corr} {a a' : Addr} (h : (R.comp R').Rel a a') :
    ∃ m, R'.Rel m a' := by
  rcases h with ⟨m, -, hm⟩ | ⟨m, -, hm⟩
  · exact ⟨m, .inl hm⟩
  · exact ⟨m, .inr hm⟩

/-- **Marked values come back**: with enough fuel, after
`empty_collectors` and a pull of each slave in order, each collector
table has one entry from each slave, in their order, a copy of what the
hooks had marked when they were registered; what a slave gives back
shares tables and variables exactly as the hooks do, and two slaves'
values share nothing. -/
def ComesBack (al : Allocator) (s : System) (rs : List Registration) : Prop :=
  ∃ N, ∀ n ≥ N, ∃ se se' Rs, emptyCollectors s.engine = .ok se ∧
    pullScriptData al n s.slaves se = .ok se' ∧ Rs.length = s.slaves.length ∧
    (∀ R ∈ Rs, Agree (merged rs) se'.heap.plain R ∧ R.TablesOneToOne (merged rs) ∧
      R.CellsOneToOne) ∧ Rs.Pairwise Disjoint ∧
    ∀ c ∈ s.engine.collectors, ∃ t ws, se'.heap.lookup c = some (.table t) ∧ t.Holds ws ∧
      List.Forall₂ (fun R w => ∃ v, Marked (merged rs) c v ∧ R.Val v w) Rs ws

/-- **A marked value comes back unchanged.** In a quiet run, let each
wrapper hold one value, and let every slave have recorded every wrapper.
Then the values that were marked come back. -/
theorem collected_unchanged {h : Heap} {isClient : Bool} {as : List Action} (hrs : Exact rs)
    (hrun : Run (Guarded (step al) Quiet) (System.create h isClient) as s)
    (hooks : s.engine.HooksOf rs)
    (hwrap : ∀ c ∈ s.engine.collectors, ∃ t v, s.engine.heap.lookup c = some (.table t) ∧
      t.Holds [v])
    (hrec : ∀ ss ∈ s.slaves, ∀ c ∈ s.engine.collectors, Recorded ss c) : ComesBack al s rs := by
  have hi : s.Inv := hrun.preserves (fun _ _ _ hi hs => hi.step hs.2) (.create h isClient)
  have hloaded := loaded_of_run hrs hrun hooks
  obtain ⟨h₁, hempty, -, hheld⟩ :=
    emptyCollectors_eq hi.registered.nodup hi.registered.registry hwrap
  have hget : ∀ ss ∈ s.slaves, ∃ N, ∀ n ≥ N, ∀ c ∈ s.engine.collectors,
      ∃ sv, getCollectedValue al n ss c = .ok sv ∧
        sv.Expands ss.target.heap.captured (ss.target.recorded c) := fun ss hss =>
    eventually_forall_mem fun c hc =>
      (hloaded ss hss).getCollectedValue_returns al hrs (hrec ss hss c hc)
  obtain ⟨N, hN⟩ := eventually_forall_mem hget
  refine ⟨N, fun n hn => ?_⟩
  obtain ⟨h₂, pulls, hpull, -, hfst, hpulled, hdisj, hws⟩ := pullScriptData_eq al n s.slaves
    { s.engine with heap := h₁ } (fun _ => []) (fun ss c => ss.target.recorded c)
    hi.registered.nodup hi.registered.registry hheld fun ss hss c hc =>
      ⟨(hloaded ss hss).collectable hrs (hrec ss hss c hc), hN n hn ss hss c hc⟩
  have hslave : ∀ p ∈ pulls, p.1 ∈ s.slaves := by
    intro p hp
    rw [← hfst]
    exact List.mem_map_of_mem hp
  refine ⟨_, _, pulls.map fun p => p.1.target.corr.comp p.2, hempty, hpull, ?_, fun R hR => ?_, ?_,
    fun c hc => ?_⟩
  · rw [List.length_map, ← hfst, List.length_map]
  · -- the hooks in the slave, and what was pulled from there
    obtain ⟨p, hp, rfl⟩ := List.mem_map.mp hR
    exact (hloaded p.1 (hslave p hp)).comp hrs (hpulled p hp)
  · rw [List.pairwise_map]
    refine hdisj.imp fun {p q} hpq a b a' ha hb => ?_
    obtain ⟨m, hm⟩ := exists_rel_of_comp ha
    obtain ⟨m', hm'⟩ := exists_rel_of_comp hb
    exact hpq m m' a' hm hm'
  · obtain ⟨t, ws, ht, hholds, hvals⟩ := hws c hc
    refine ⟨t, ws, ht, hholds, ?_⟩
    rw [List.forall₂_map_left_iff]
    refine ((List.forall₂_and_left _ _).mpr ⟨hslave, hvals⟩).imp fun p w hpw => ?_
    obtain ⟨hp, hw⟩ := hpw
    obtain ⟨v, hm, hval⟩ := (hloaded p.1 hp).image hrs (hrec p.1 hp c hc)
    exact ⟨v, hm, hval.comp hw⟩

/-! ## Two slaves -/

theorem exact_twice : Exact (snapshot twiceHeap [6]) where
  consistent := consistent_snapshot
  serialized p hp := by
    obtain rfl := List.mem_singleton.mp hp
    exact ⟨twiceTree, 3, rfl⟩
  scalarKeys p hp := by
    obtain rfl := List.mem_singleton.mp hp
    exact Graph.allFrom_of_keys (by decide)
  nulFree p hp := by
    obtain rfl := List.mem_singleton.mp hp
    exact Graph.allFrom_of_keys (by decide)

/-- The run that marks the table twice is quiet. -/
theorem quiet_run_twice : Run (Guarded (step .above) Quiet)
    (System.create [(1, .table items)] true)
    [.collect (.table 1), .collect (.table 1), .script twiceHeap,
      .register .client .socket (.function 6), .slave [], .slave [], .fire 0 .socket,
      .fire 1 .socket] twiceSystem :=
  (run_of_stepLoads run_twice).guarded_of_forall (by simp [Quiet, Heap.Unmarked])

/-- The two wrappers' values come back from both slaves. -/
theorem collected_unchanged_twice :
    ComesBack .above twiceSystem (snapshot twiceHeap [6]) := by
  have hrec : ∀ c ∈ twiceSystem.engine.collectors, Recorded twiceSlave c := by
    simp only [twiceSystem, List.forall_mem_cons]
    exact ⟨by simp [Recorded, twiceSlave], by simp [Recorded, twiceSlave],
      List.forall_mem_nil _⟩
  refine collected_unchanged exact_twice quiet_run_twice (fun hid f hf => ?_) wrappers_twice
    fun ss hss => ?_
  · cases hid <;> cases hf
    exact ⟨⟨twiceHeap, 6⟩, List.mem_singleton.mpr rfl, 3, rfl⟩
  · rcases List.mem_cons.mp hss with rfl | hss
    · exact hrec
    · obtain rfl := List.mem_singleton.mp hss
      exact hrec

end Script

end Rushit
