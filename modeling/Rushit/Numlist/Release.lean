import Rushit.Numlist.Pool
/-!
# The report moves the latencies, and the samples free them

`report_latency` appends the lists of all samples to that of the first.
The samples it has are copies, so the lists it moves are those that the
threads free afterwards. A block changes its list and stays on one, so
every block is freed once: those that were moved with the first list,
none with the list they came from (`report_then_free`).
-/

namespace Rushit

namespace Memory

variable {α : Type}

/-- The numbers that `for_each` visits. -/
def values (m : Memory α) (lst : ℕ) : Except Fault (List α) :=
  m.forEach lst (fun values n => values ++ [n]) []

/-- A block can be reached from the head of a list. -/
def Reaches (m : Memory α) (lst a : ℕ) : Prop :=
  ∃ p l, m.head lst = .ok p ∧ Chain m.next p l ∧ a ∈ l

/-- The chains after those of the samples were appended to that of
`all`. -/
def gathered (chains : ℕ → List ℕ) (all : ℕ) (samples : List ℕ) : ℕ → List ℕ :=
  samples.foldl (fun chains latency => joined chains all latency) chains

variable {m m' : Memory α} {chains : ℕ → List ℕ} {all lst a fuel : ℕ} {p : Option ℕ}
variable {rest samples l : List ℕ} {ops : List (Op α)}

/-! ## The loop of the report -/

theorem Owns.values (h : Owns m chains) (hlst : lst < m.lists.length) :
    m.values lst = .ok (m.contents (chains lst)) := by
  rw [Memory.values, h.forEach hlst, foldl_append, List.nil_append]

theorem Owns.reaches_iff (h : Owns m chains) : m.Reaches lst a ↔ a ∈ chains lst := by
  constructor
  · rintro ⟨p, l, hp, hl, ha⟩
    have hlst : lst < m.lists.length := by
      by_contra hge
      rw [head, List.getElem?_eq_none (by omega)] at hp
      cases hp
    obtain ⟨q, hq, hchain⟩ := h.chain lst hlst
    obtain rfl := Except.ok.inj (hp.symm.trans hq)
    rwa [hchain.unique hl]
  · intro ha
    obtain ⟨p, hp, hchain⟩ := h.chain lst (h.lt_of_mem ha)
    exact ⟨p, _, hp, hchain, ha⟩

/-- The list that is reported on has the blocks of all samples. -/
theorem gathered_all (hnodup : (all :: rest).Nodup) :
    gathered chains all rest all = chains all ++ rest.flatMap chains := by
  induction rest generalizing chains with
  | nil => rw [List.flatMap_nil, List.append_nil]; rfl
  | cons s rest ih =>
    have hall : all ≠ s := fun e => (List.nodup_cons.mp hnodup).1 (e ▸ List.mem_cons_self)
    have hrest := (List.nodup_cons.mp hnodup).2
    have hnodup' : (all :: rest).Nodup := hnodup.sublist (by simp)
    have hjoined : joined chains all s all = chains all ++ chains s := by
      rw [joined, Function.update_of_ne hall, Function.update_self]
    -- the lists still to come are as they were
    have hsame : rest.flatMap (joined chains all s) = rest.flatMap chains := by
      refine List.flatMap_congr fun i hi => ?_
      have his : i ≠ s := fun e => (List.nodup_cons.mp hrest).1 (e ▸ hi)
      have hia : i ≠ all := fun e => (List.nodup_cons.mp hnodup').1 (e ▸ hi)
      rw [joined, Function.update_of_ne his, Function.update_of_ne hia]
    show gathered (joined chains all s) all rest all = _
    rw [ih hnodup', hjoined, hsame, List.flatMap_cons, List.append_assoc]

/-- The other lists do not change, unless they are those of samples. -/
theorem gathered_of_ne {i : ℕ} (hi : i ≠ all) (hnot : i ∉ rest) :
    gathered chains all rest i = chains i := by
  induction rest generalizing chains with
  | nil => rfl
  | cons s rest ih =>
    have his := List.ne_of_not_mem_cons hnot
    have hnot := List.not_mem_of_not_mem_cons hnot
    show gathered (joined chains all s) all rest i = _
    rw [ih hnot, joined, Function.update_of_ne his, Function.update_of_ne hi]

/-- The lists of the other samples are empty. -/
theorem gathered_rest {i : ℕ} (hi : i ≠ all) (hmem : i ∈ rest) :
    gathered chains all rest i = [] := by
  induction rest generalizing chains with
  | nil => cases hmem
  | cons s rest ih =>
    show gathered (joined chains all s) all rest i = _
    by_cases hrest : i ∈ rest
    · exact ih hrest
    · obtain rfl := (List.mem_cons.mp hmem).resolve_right hrest
      rw [gathered_of_ne hi hrest, joined, Function.update_self]

/-- **The loop gathers the blocks of all samples.** -/
theorem Owns.concatAll (h : Owns m chains) (hne : chains all ≠ [])
    (hlt : ∀ s ∈ rest, s < m.lists.length) (hall : all ∉ rest) :
    ∃ m', rest.foldlM (fun m latency => m.concat all latency) m = .ok m' ∧
      Leaves m' (gathered chains all rest) m.data m.lists.length m.blocks.length := by
  induction rest generalizing m chains with
  | nil => exact ⟨m, rfl, h, rfl, rfl, rfl⟩
  | cons s rest ih =>
    have hs := List.ne_of_not_mem_cons hall
    have hall := List.not_mem_of_not_mem_cons hall
    obtain ⟨m₁, hm₁, hl₁⟩ := h.concat hne (hlt s List.mem_cons_self) hs
    have hne₁ : joined chains all s all ≠ [] := by
      rw [joined, Function.update_of_ne hs, Function.update_self]
      simp [hne]
    obtain ⟨m', hm', hl'⟩ := ih hl₁.owns hne₁
      (fun i hi => hl₁.lists ▸ hlt i (List.mem_cons_of_mem _ hi)) hall
    exact ⟨m', foldlM_cons_eq_ok.mpr ⟨m₁, hm₁, hm'⟩, hl'.owns, hl'.data.trans hl₁.data,
      hl'.lists.trans hl₁.lists, hl'.blocks.trans hl₁.blocks⟩

/-- A loop over the indices of an array reads its elements. -/
theorem foldlM_readAt {β : Type} (f : β → ℕ → Except Fault β) (before rest : List ℕ) (b : β) :
    (List.range' before.length rest.length).foldlM (fun b i => do
      let latency ← readAt (before ++ rest) i
      f b latency) b = rest.foldlM f b := by
  induction rest generalizing before b with
  | nil => rfl
  | cons s rest ih =>
    have hread : readAt (before ++ s :: rest) before.length = .ok s := by
      simp [readAt]
    rw [List.length_cons, List.range'_succ, List.foldlM_cons, List.foldlM_cons, hread]
    show f b s >>= _ = f b s >>= _
    refine congrArg (f b s >>= ·) (funext fun b' => ?_)
    have hstep := ih (before ++ [s]) b'
    rwa [List.length_append, List.length_singleton, List.append_assoc,
      List.singleton_append] at hstep

/-! ## The release -/

/-- The blocks of a chain are freed, each once. -/
theorem freeBlocks_spec (hc : Chain m.next p l) (hfuel : l.length ≤ fuel) :
    ∃ m', freeBlocks fuel m p = .ok m' ∧ m'.lists = m.lists ∧
      m'.blocks.length = m.blocks.length ∧ m'.frees = l.reverse ++ m.frees ∧
      ∀ b, m'.next b = if b ∈ l then none else m.next b := by
  induction l generalizing m p fuel with
  | nil =>
    obtain rfl := Chain.nil_iff.mp hc
    exact ⟨m, by cases fuel <;> rfl, rfl, rfl, rfl, fun b => rfl⟩
  | cons a l ih =>
    obtain ⟨rfl, q, ha, hrest⟩ := Chain.cons_iff.mp hc
    obtain ⟨blk, hblk, rfl⟩ := next_eq_some.mp ha
    have hlt := lt_of_next ha
    let m₁ : Memory α := { m with blocks := m.blocks.set a none, frees := a :: m.frees }
    have hnext₁ : ∀ b, m₁.next b = if b = a then none else m.next b := by
      intro b
      by_cases hb : b = a
      · subst hb
        simp [m₁, next, blockAt, hlt]
      · have hab : a ≠ b := fun e => hb e.symm
        simp [m₁, next, blockAt, hb, hab]
    cases fuel with
    | zero => cases hfuel
    | succ fuel =>
      have hnot := (List.nodup_cons.mp hc.nodup).1
      have hrest₁ : Chain m₁.next blk.next l := hrest.congr fun b hb => by
        have hba : b ≠ a := fun e => hnot (e ▸ hb)
        rw [hnext₁, if_neg hba]
      obtain ⟨m', hm', hlists, hblocks, hfrees, hnext⟩ := ih hrest₁ (Nat.le_of_succ_le_succ hfuel)
      refine ⟨m', ?_, hlists, ?_, ?_, fun b => ?_⟩
      · rw [freeBlocks, block_eq_ok.mpr hblk]
        exact hm'
      · rw [hblocks]
        exact List.length_set
      · rw [hfrees, List.reverse_cons, List.append_assoc]
        rfl
      · rw [hnext, hnext₁]
        by_cases hb : b = a
        · subst hb
          simp
        · simp [hb]

/-- **`numlist_destroy` frees the chain** of its list. -/
theorem destroy_spec (hp : m.head lst = .ok p) (hc : Chain m.next p l) :
    ∃ m', m.destroy lst = .ok m' ∧ m'.frees = l.reverse ++ m.frees ∧
      (∀ b, m'.next b = if b ∈ l then none else m.next b) ∧
      ∀ i ≠ lst, m'.head i = m.head i := by
  have hfuel : l.length ≤ m.blocks.length := hc.length_le fun a ha => by
    obtain ⟨q, hq⟩ := hc.next_isSome ha
    exact lt_of_next hq
  obtain ⟨m', hm', hlists, -, hfrees, hnext⟩ := freeBlocks_spec hc hfuel
  refine ⟨{ m' with lists := m'.lists.set lst none }, ?_, hfrees, hnext, fun i hi => ?_⟩
  · rw [destroy, hp]
    show (freeBlocks m.blocks.length m p >>= fun m => pure _) = _
    rw [hm']
    rfl
  · have hne : lst ≠ i := fun e => hi e.symm
    simp [head, hlists, hne]

/-- **The samples free the chains of their lists**, where these share no
block. -/
theorem freeSamples_spec (samples : List ℕ) (hnodup : samples.Nodup)
    (hc : ∀ s ∈ samples, ∃ p, m.head s = .ok p ∧ Chain m.next p (chains s))
    (hdisj : ∀ s ∈ samples, ∀ s' ∈ samples, ∀ a ∈ chains s, a ∈ chains s' → s = s') :
    ∃ m' freed, m.freeSamples samples = .ok m' ∧ m'.frees = freed ++ m.frees ∧
      freed.Nodup ∧ ∀ a, a ∈ freed ↔ ∃ s ∈ samples, a ∈ chains s := by
  induction samples generalizing m with
  | nil => exact ⟨m, [], rfl, rfl, List.nodup_nil, by simp⟩
  | cons s samples ih =>
    obtain ⟨p, hp, hs⟩ := hc s List.mem_cons_self
    obtain ⟨m₁, hm₁, hfrees₁, hnext₁, hhead₁⟩ := destroy_spec hp hs
    obtain ⟨hnot, hnodup⟩ := List.nodup_cons.mp hnodup
    -- the other lists do not see it
    have hc₁ : ∀ i ∈ samples, ∃ p, m₁.head i = .ok p ∧ Chain m₁.next p (chains i) := by
      intro i hi
      have his : i ≠ s := fun e => hnot (e ▸ hi)
      obtain ⟨q, hq, hi'⟩ := hc i (List.mem_cons_of_mem _ hi)
      refine ⟨q, (hhead₁ i his).trans hq, hi'.congr fun b hb => ?_⟩
      rw [hnext₁, if_neg]
      exact fun hbs => his (hdisj i (List.mem_cons_of_mem _ hi) s List.mem_cons_self b hb hbs)
    obtain ⟨m', freed, hm', hfrees, hfreed, hmem⟩ := ih hnodup hc₁ fun i hi j hj =>
      hdisj i (List.mem_cons_of_mem _ hi) j (List.mem_cons_of_mem _ hj)
    refine ⟨m', freed ++ (chains s).reverse, foldlM_cons_eq_ok.mpr ⟨m₁, hm₁, hm'⟩, ?_, ?_,
      fun a => ?_⟩
    · rw [hfrees, hfrees₁, List.append_assoc]
    · refine List.nodup_append.mpr ⟨hfreed, List.nodup_reverse.mpr hs.nodup, fun a ha b hb => ?_⟩
      rintro rfl
      obtain ⟨i, hi, hai⟩ := (hmem a).mp ha
      exact hnot (hdisj i (List.mem_cons_of_mem _ hi) s List.mem_cons_self a hai
        (List.mem_reverse.mp hb) ▸ hi)
    · rw [List.mem_append, List.mem_reverse, hmem]
      simp only [List.mem_cons, exists_eq_or_imp]
      exact Or.comm

/-- The threads free their samples one thread after the other. -/
theorem foldlM_freeSamples (threads : List (List ℕ)) (m : Memory α) :
    threads.foldlM freeSamples m = m.freeSamples threads.flatten := by
  induction threads generalizing m with
  | nil => rfl
  | cons t threads ih =>
    rw [List.flatten_cons, freeSamples, List.foldlM_append, List.foldlM_cons]
    exact congrArg (t.foldlM destroy m >>= ·) (funext fun m₁ => ih m₁)

/-! ## From the flows to the end -/

/-- What the flows do with their lists: none of them is appended to
another. -/
def Op.OfFlow : Op α → Prop
  | .concat _ _ => False
  | _ => True

theorem movedAfter_ofFlow (hflow : ∀ op ∈ ops, op.OfFlow) (moved : List ℕ) :
    movedAfter moved ops = moved := by
  induction ops with
  | nil => rfl
  | cons op ops ih =>
    have hrest := ih fun op hop => hflow op (List.mem_cons_of_mem _ hop)
    cases op with
    | create => exact hrest
    | add _ _ => exact hrest
    | concat _ _ => exact (hflow _ List.mem_cons_self).elim

/-- **What the report leaves** of the lists, which had the latencies
`v`. -/
structure Reported (client : Bool) (all : ℕ) (rest : List ℕ) (v : ℕ → List α) (m m' : Memory α) :
    Prop where
  before : ∀ s ∈ all :: rest, m.values s = .ok (v s)
  all : client = true → ∃ w, m'.values all = .ok w ∧ w.Perm ((all :: rest).flatMap v)
  rest : client = true → ∀ s ∈ rest, m'.values s = .ok []
  blocks : m'.blocks.length = m.blocks.length
  owner : ∀ a < m'.blocks.length, ∃! lst, m'.Reaches lst a

section Report

variable [LinearOrder α] [BoundedOrder α]

/-- Every query of the report has a result. -/
theorem Agrees.latencyReport {s : Multiset α} (h : Agrees m lst s) (chosen : ℕ → Bool) :
    ∃ report, m.latencyReport chosen lst = .ok report := by
  obtain ⟨latencyP, hp⟩ : ∃ latencyP, ((List.range 101).filter chosen).mapM (fun (i : ℕ) => do
      let p ← m.percentile lst i
      pure (i, p)) = .ok latencyP := by
    refine mapM_eq_ok fun i hi => ?_
    have hi := List.mem_range.mp (List.mem_of_mem_filter hi)
    rw [h.percentile i (by omega) (by omega)]
    exact ⟨_, rfl⟩
  exact ⟨_, bind_eq_ok.mpr ⟨_, h.min, bind_eq_ok.mpr ⟨_, h.max, bind_eq_ok.mpr ⟨_, hp, rfl⟩⟩⟩⟩

/-- The report of a client. -/
theorem Owns.gathers (h : Owns m chains) (hne : chains all ≠ [])
    (hnodup : (all :: rest).Nodup) (hlt : ∀ s ∈ all :: rest, s < m.lists.length)
    (chosen : ℕ → Bool) :
    ∃ m' report, reportLatency true chosen (all :: rest) 0 rest.length m = .ok (m', some report) ∧
      Leaves m' (gathered chains all rest) m.data m.lists.length m.blocks.length := by
  obtain ⟨m', hm', hl⟩ := h.concatAll hne
    (fun s hs => hlt s (List.mem_cons_of_mem _ hs)) (List.nodup_cons.mp hnodup).1
  obtain ⟨report, hreport⟩ :=
    (hl.owns.agrees (hl.lists ▸ hlt all List.mem_cons_self)).latencyReport chosen
  have hloop : concatSamples all (all :: rest) 0 rest.length m = .ok m' :=
    (foldlM_readAt (fun (m : Memory α) latency => m.concat all latency) [all] rest m).trans hm'
  refine ⟨m', report, ?_, hl⟩
  exact bind_eq_ok.mpr ⟨all, rfl, bind_eq_ok.mpr ⟨m', hloop, bind_eq_ok.mpr ⟨_, hreport, rfl⟩⟩⟩

/-- The lists of the samples have the blocks that they had, on whichever
list. -/
theorem exists_mem_gathered (hnodup : (all :: rest).Nodup) :
    (∃ s ∈ all :: rest, a ∈ gathered chains all rest s) ↔ ∃ s ∈ all :: rest, a ∈ chains s := by
  have hrest : ∀ s ∈ rest, gathered chains all rest s = [] := fun s hs =>
    gathered_rest (fun e => (List.nodup_cons.mp hnodup).1 (e ▸ hs)) hs
  constructor
  · rintro ⟨s, hs, ha⟩
    rcases List.mem_cons.mp hs with rfl | hs
    · rw [gathered_all hnodup] at ha
      rcases List.mem_append.mp ha with ha | ha
      · exact ⟨s, List.mem_cons_self, ha⟩
      · obtain ⟨i, hi, ha⟩ := List.mem_flatMap.mp ha
        exact ⟨i, List.mem_cons_of_mem _ hi, ha⟩
    · rw [hrest s hs] at ha
      cases ha
  · rintro ⟨s, hs, ha⟩
    refine ⟨all, List.mem_cons_self, ?_⟩
    rw [gathered_all hnodup]
    rcases List.mem_cons.mp hs with rfl | hs
    · exact List.mem_append_left _ ha
    · exact List.mem_append_right _ (List.mem_flatMap.mpr ⟨s, hs, ha⟩)

/-- **What the report does to the lists.** -/
theorem Owns.report (h : Owns m chains) (hne : chains all ≠ []) (hnodup : (all :: rest).Nodup)
    (hlt : ∀ s ∈ all :: rest, s < m.lists.length) (client : Bool) (chosen : ℕ → Bool) :
    ∃ m' report chains', reportLatency client chosen (all :: rest) 0 rest.length m =
        .ok (m', report) ∧
      Reported client all rest (fun s => m.contents (chains s)) m m' ∧ Owns m' chains' ∧
      m'.lists.length = m.lists.length ∧
      ∀ a, (∃ s ∈ all :: rest, a ∈ chains' s) ↔ ∃ s ∈ all :: rest, a ∈ chains s := by
  have howner : ∀ {m' : Memory α} {chains' : ℕ → List ℕ}, Owns m' chains' →
      ∀ a < m'.blocks.length, ∃! lst, m'.Reaches lst a := by
    intro m' chains' h' a ha
    obtain ⟨i, hi⟩ := h'.owned a ha
    exact ⟨i, h'.reaches_iff.mpr hi, fun j hj => h'.disjoint j i a (h'.reaches_iff.mp hj) hi⟩
  have hbefore : ∀ s ∈ all :: rest, m.values s = .ok (m.contents (chains s)) :=
    fun s hs => h.values (hlt s hs)
  cases client with
  | false =>
    exact ⟨m, none, chains, rfl, ⟨hbefore, nofun, nofun, rfl, howner h⟩, h, rfl, fun a => Iff.rfl⟩
  | true =>
    obtain ⟨m', report, hm', hl⟩ := h.gathers hne hnodup hlt chosen
    have hvalues : ∀ s ∈ all :: rest,
        m'.values s = .ok (m.contents (gathered chains all rest s)) := by
      intro s hs
      rw [hl.owns.values (hl.lists ▸ hlt s hs), contents, hl.data, contents]
    refine ⟨m', some report, _, hm', ⟨hbefore, fun _ => ?_, fun _ s hs => ?_, hl.blocks,
      howner hl.owns⟩, hl.owns, hl.lists, fun a => exists_mem_gathered hnodup⟩
    · refine ⟨_, hvalues all List.mem_cons_self, List.Perm.of_eq ?_⟩
      rw [gathered_all hnodup, contents, List.flatMap_append, List.flatMap_cons,
        List.flatMap_assoc]
      rfl
    · have hsa : s ≠ all := fun e => (List.nodup_cons.mp hnodup).1 (e ▸ hs)
      rw [hvalues s (List.mem_cons_of_mem _ hs), gathered_rest hsa hs]
      rfl

/-- **After the report, the samples free every block once.** The samples
have different lists, of which any may be empty; what a server reports
leaves the lists alone. -/
theorem report_then_free (hnamed : Named 0 ops) (hflow : ∀ op ∈ ops, op.OfFlow)
    (hok : (empty : Memory α).execAll ops = .ok m) (hnodup : (all :: rest).Nodup)
    (hlt : ∀ s ∈ all :: rest, s < m.lists.length) {threads : List (List ℕ)}
    (hperm : (all :: rest).Perm threads.flatten) (client : Bool) (chosen : ℕ → Bool) :
    ∃ m' report v m'' freed,
      reportLatency client chosen (all :: rest) 0 rest.length m = .ok (m', report) ∧
      Reported client all rest v m m' ∧ threads.foldlM freeSamples m' = .ok m'' ∧
      m''.frees = freed ++ m'.frees ∧ freed.Nodup ∧
      ∀ a, a ∈ freed ↔ ∃ s ∈ all :: rest, m.Reaches s a := by
  obtain ⟨chains, hown, -, -, hnull⟩ := holds_of_execAll hnamed hok
  rw [movedAfter_ofFlow hflow] at hnull
  -- the flows leave no list with a null head
  have hne : chains all ≠ [] := fun hnil =>
    List.not_mem_nil ((hnull all (hlt all List.mem_cons_self)).mp hnil)
  obtain ⟨m', report, chains', hm', hreported, hown', hlists, hmem⟩ :=
    hown.report hne hnodup hlt client chosen
  obtain ⟨m'', freed, hm'', hfrees, hfreed, hiff⟩ := freeSamples_spec threads.flatten
    (hperm.nodup_iff.mp hnodup)
    (fun s hs => hown'.chain s (hlists ▸ hlt s (hperm.mem_iff.mpr hs)))
    (fun s _ s' _ a ha ha' => hown'.disjoint s s' a ha ha')
  refine ⟨m', report, _, m'', freed, hm', hreported, ?_, hfrees, hfreed, fun a => ?_⟩
  · rw [foldlM_freeSamples, hm'']
  · rw [hiff]
    simp only [hown.reaches_iff, ← hmem a, ← hperm.mem_iff]

end Report

/-- Two flows of two threads, with a latency each. -/
def flowOps : List (Op Bool) := [.create, .create, .add 0 true, .add 1 false]

theorem named_flowOps : Named 0 flowOps := by simp [flowOps, Named]

theorem ofFlow_flowOps : ∀ op ∈ flowOps, op.OfFlow := by simp [flowOps, Op.OfFlow]

theorem report_then_free_pair : ∃ m : Memory Bool, empty.execAll flowOps = .ok m ∧
    ∃ m' report v m'' freed,
      reportLatency true (fun _ => true) [1, 0] 0 1 m = .ok (m', report) ∧
      Reported true 1 [0] v m m' ∧ [[0], [1]].foldlM freeSamples m' = .ok m'' ∧
      m''.frees = freed ++ m'.frees ∧ freed.Nodup ∧
      ∀ a, a ∈ freed ↔ ∃ s ∈ [1, 0], m.Reaches s a :=
  ⟨_, rfl, report_then_free named_flowOps ofFlow_flowOps rfl (by decide) (by decide)
    (List.Perm.swap 0 1 []) true fun _ => true⟩

end Memory

end Rushit
