import Mathlib.Data.Multiset.Lattice
import Rushit.Common.Chain
import Rushit.Common.Fold
import Rushit.Common.Rank
import Rushit.Numlist.Memory
/-!
# The chains of the lists

Every list has a chain of blocks, no block is in two of them, and every
block is in one (`Owns`). Each operation of `numlist.c` has a rule that
says what becomes of the chains and of the numbers in the blocks, and
the queries are folds over the numbers of a chain.
-/

namespace Rushit

variable {α β : Type}

namespace Memory

/-- The block at an address, if it is allocated. -/
def blockAt (m : Memory α) (a : ℕ) : Option (Block α) := (m.blocks[a]?).join

/-- The links of the blocks. -/
def next (m : Memory α) (a : ℕ) : Option (Option ℕ) := (m.blockAt a).map Block.next

/-- The numbers in a block. -/
def data (m : Memory α) (a : ℕ) : List α := ((m.blockAt a).map fun blk => blk.data).getD []

/-- The numbers in the blocks of a chain. -/
def contents (m : Memory α) (l : List ℕ) : List α := l.flatMap m.data

/-- **The chains of the lists.** -/
structure Owns (m : Memory α) (chains : ℕ → List ℕ) : Prop where
  chain : ∀ lst < m.lists.length, ∃ p, m.head lst = .ok p ∧ Chain m.next p (chains lst)
  absent : ∀ lst, m.lists.length ≤ lst → chains lst = []
  disjoint : ∀ lst lst' a, a ∈ chains lst → a ∈ chains lst' → lst = lst'
  owned : ∀ a < m.blocks.length, ∃ lst, a ∈ chains lst

variable {m m' : Memory α} {chains : ℕ → List ℕ} {lst tail a fuel : ℕ} {p : Option ℕ}
variable {blk : Block α} {l : List ℕ} {val : α}

/-! ## Reading -/

theorem block_eq_ok : m.block a = .ok blk ↔ m.blockAt a = some blk := by
  simp only [block, blockAt]
  rcases hb : m.blocks[a]? with _ | (_ | b) <;> simp

theorem next_eq_some : m.next a = some p ↔ ∃ blk, m.blockAt a = some blk ∧ blk.next = p := by
  simp [next]

theorem data_eq (h : m.blockAt a = some blk) : m.data a = blk.data := by
  simp [data, h]

theorem lt_of_next (h : m.next a = some p) : a < m.blocks.length := by
  obtain ⟨blk, hblk, -⟩ := next_eq_some.mp h
  by_contra hge
  rw [blockAt, List.getElem?_eq_none (by omega)] at hblk
  cases hblk

theorem head_eq_ok : m.head lst = .ok p ↔ m.lists[lst]? = some (some p) := by
  unfold head
  rcases m.lists[lst]? with _ | (_ | q) <;> simp

/-! ## The chains -/

namespace Owns

variable (h : Owns m chains)
include h

/-- The list of a chain that is not empty exists. -/
theorem lt_of_mem (ha : a ∈ chains lst) : lst < m.lists.length := by
  by_contra hge
  rw [h.absent lst (by omega)] at ha
  cases ha

theorem lt_length (ha : a ∈ chains lst) : a < m.blocks.length := by
  obtain ⟨p, -, hc⟩ := h.chain lst (h.lt_of_mem ha)
  obtain ⟨q, hq⟩ := hc.next_isSome ha
  exact lt_of_next hq

/-- As many loops as there are blocks reach the end of a chain. -/
theorem length_le (lst : ℕ) : (chains lst).length ≤ m.blocks.length := by
  by_cases hlst : lst < m.lists.length
  · obtain ⟨p, -, hc⟩ := h.chain lst hlst
    exact hc.length_le fun a ha => h.lt_length ha
  · rw [h.absent lst (by omega)]
    exact Nat.zero_le _

end Owns

/-! ## Writing -/

theorem blockAt_setBlock (ha : a < m.blocks.length) :
    (m.setBlock a blk).blockAt = Function.update m.blockAt a (some blk) := by
  funext b
  by_cases hb : b = a
  · subst hb
    simp [blockAt, setBlock, ha]
  · have hab : a ≠ b := fun e => hb e.symm
    simp [blockAt, setBlock, hb, hab]

theorem next_setBlock (ha : a < m.blocks.length) :
    (m.setBlock a blk).next = Function.update m.next a (some blk.next) := by
  funext b
  by_cases hb : b = a
  · subst hb
    simp [next, blockAt_setBlock ha]
  · simp [next, blockAt_setBlock ha, hb]

theorem data_setBlock (ha : a < m.blocks.length) :
    (m.setBlock a blk).data = Function.update m.data a blk.data := by
  funext b
  by_cases hb : b = a
  · subst hb
    simp [data, blockAt_setBlock ha]
  · simp [data, blockAt_setBlock ha, hb]

theorem head_setHead (hlst : lst < m.lists.length) {lst' : ℕ} :
    (m.setHead lst p).head lst' = if lst' = lst then .ok p else m.head lst' := by
  by_cases heq : lst' = lst
  · subst heq
    simp [head, setHead, hlst]
  · have hne : lst ≠ lst' := fun e => heq e.symm
    simp [head, setHead, heq, hne]

/-- A new block has no numbers. -/
theorem data_append (m : Memory α) (p : Option ℕ) :
    ({ m with blocks := m.blocks ++ [some (emptyBlock p)] } : Memory α).data = m.data := by
  funext b
  rcases lt_trichotomy b m.blocks.length with hlt | rfl | hgt
  · simp [data, blockAt, List.getElem?_append_left hlt]
  · simp [data, blockAt, emptyBlock, Numlist.prependMemblock]
  · have hnone : (m.blocks ++ [some (emptyBlock p)])[b]? = none :=
      List.getElem?_eq_none (by rw [List.length_append, List.length_singleton]; omega)
    simp [data, blockAt, hnone, List.getElem?_eq_none hgt.le]

theorem next_append_self (m : Memory α) (p : Option ℕ) :
    ({ m with blocks := m.blocks ++ [some (emptyBlock p)] } : Memory α).next m.blocks.length =
      some p := by
  simp [next, blockAt, emptyBlock]

theorem next_append_of_lt (p : Option ℕ) (ha : a < m.blocks.length) :
    ({ m with blocks := m.blocks ++ [some (emptyBlock p)] } : Memory α).next a = m.next a := by
  simp [next, blockAt, List.getElem?_append_left ha]

/-! ## The loops -/

/-- **`for_each_memblock` is a fold over the chain.** -/
theorem forEachMemblock_eq (hc : Chain m.next p l) (f : β → Memblock α → β) (g : β → ℕ → β)
    (hg : ∀ a blk b, m.blockAt a = some blk → f b blk.toMemblock = g b a)
    (hfuel : l.length ≤ fuel) (b : β) : m.forEachMemblock f fuel b p = .ok (l.foldl g b) := by
  induction hc generalizing fuel b with
  | nil => cases fuel <;> rfl
  | @cons a q l ha _ ih =>
    obtain ⟨blk, hblk, hnext⟩ := next_eq_some.mp ha
    cases fuel with
    | zero => cases hfuel
    | succ fuel =>
      rw [forEachMemblock, block_eq_ok.mpr hblk]
      show forEachMemblock m f fuel (f b blk.toMemblock) blk.next = _
      rw [hg a blk b hblk, hnext, List.foldl_cons]
      exact ih (Nat.le_of_succ_le_succ hfuel) _

/-- **`for_each` is a fold over the numbers of the list.** -/
theorem Owns.forEach (h : Owns m chains) (hlst : lst < m.lists.length) (f : β → α → β) (b : β) :
    m.forEach lst f b = .ok ((m.contents (chains lst)).foldl f b) := by
  obtain ⟨p, hp, hc⟩ := h.chain lst hlst
  rw [Memory.forEach, hp]
  show m.forEachMemblock _ m.blocks.length b p = _
  rw [contents, List.foldl_flatMap]
  exact forEachMemblock_eq hc _ _ (fun a blk b hblk => by rw [data_eq hblk]) (h.length_le lst) b

/-- The last block of a chain is found. -/
theorem lastBlock_eq (hc : Chain m.next p (l ++ [a])) (hfuel : l.length < fuel) :
    m.lastBlock fuel p = .ok a := by
  induction l generalizing p fuel with
  | nil =>
    obtain ⟨rfl, q, ha, hq⟩ := Chain.cons_iff.mp hc
    obtain rfl := Chain.nil_iff.mp hq
    obtain ⟨blk, hblk, hnext⟩ := next_eq_some.mp ha
    cases fuel with
    | zero => cases hfuel
    | succ fuel =>
      rw [lastBlock, block_eq_ok.mpr hblk]
      show (if blk.next.isSome then _ else _) = _
      rw [hnext]
      rfl
  | cons b l ih =>
    obtain ⟨rfl, q, hb, hrest⟩ := Chain.cons_iff.mp hc
    obtain ⟨blk, hblk, rfl⟩ := next_eq_some.mp hb
    -- there is a block after `b`
    obtain ⟨c, hsome, -⟩ := hrest.exists_eq_some (by simp)
    cases fuel with
    | zero => cases hfuel
    | succ fuel =>
      rw [lastBlock, block_eq_ok.mpr hblk]
      show (if blk.next.isSome then lastBlock m fuel blk.next else _) = _
      rw [hsome]
      exact ih (hsome ▸ hrest) (Nat.lt_of_succ_lt_succ hfuel)

/-! ## The operations -/

/-- What an operation leaves: the chains, the numbers in the blocks, and
how many lists and blocks there are. -/
structure Leaves (m' : Memory α) (chains : ℕ → List ℕ) (data : ℕ → List α) (lists blocks : ℕ) :
    Prop where
  owns : Owns m' chains
  data : m'.data = data
  lists : m'.lists.length = lists
  blocks : m'.blocks.length = blocks

/-- The blocks of the lists where one is new. -/
theorem mem_update_cons {b i : ℕ} : a ∈ Function.update chains lst (b :: chains lst) i ↔
    (i = lst ∧ a = b) ∨ a ∈ chains i := by
  by_cases hi : i = lst
  · subst hi
    simp
  · simp [hi]

/-- **`prepend_memblock`** adds an empty block. -/
theorem Owns.prependMemblock (h : Owns m chains) (lst : ℕ) (hlst : lst < m.lists.length) :
    ∃ m', m.prependMemblock lst = .ok m' ∧ Leaves m'
      (Function.update chains lst (m.blocks.length :: chains lst)) m.data m.lists.length
      (m.blocks.length + 1) := by
  obtain ⟨p, hp, hc⟩ := h.chain lst hlst
  -- the new block is on no chain yet
  have hnew : ∀ lst, m.blocks.length ∉ chains lst := fun i hi => (h.lt_length hi).false
  have hkeep : ∀ {q : Option ℕ} {l : List ℕ}, (∀ a ∈ l, a < m.blocks.length) →
      Chain m.next q l → Chain ({ m with blocks := m.blocks ++ [some (emptyBlock p)] }.setHead lst
        (some m.blocks.length)).next q l :=
    fun hlt hq => hq.congr fun a ha => next_append_of_lt p (hlt a ha)
  refine ⟨{ m with blocks := m.blocks ++ [some (emptyBlock p)] }.setHead lst
    (some m.blocks.length), by rw [Memory.prependMemblock, hp]; rfl, ⟨?_, ?_, ?_, ?_⟩,
    data_append m p, ?_, ?_⟩
  · intro i hi
    have hi : i < m.lists.length := by simpa [setHead] using hi
    rw [head_setHead (by exact hlst)]
    by_cases hil : i = lst
    · subst hil
      refine ⟨_, if_pos rfl, ?_⟩
      rw [Function.update_self]
      exact .cons (next_append_self m p) (hkeep (fun a ha => h.lt_length ha) hc)
    · obtain ⟨q, hq, hqc⟩ := h.chain i hi
      refine ⟨q, (if_neg hil).trans hq, ?_⟩
      rw [Function.update_of_ne hil]
      exact hkeep (fun a ha => h.lt_length ha) hqc
  · intro i hi
    have hi : m.lists.length ≤ i := by simpa [setHead] using hi
    rw [Function.update_of_ne (by omega)]
    exact h.absent i hi
  · intro i j a hai haj
    rcases mem_update_cons.mp hai with ⟨rfl, rfl⟩ | hi <;>
      rcases mem_update_cons.mp haj with ⟨rfl, ha⟩ | hj
    · rfl
    · exact absurd hj (hnew j)
    · exact absurd (ha ▸ hi) (hnew i)
    · exact h.disjoint i j a hi hj
  · intro a ha
    have ha : a < m.blocks.length + 1 := by simpa [setHead] using ha
    rcases Nat.lt_succ_iff_lt_or_eq.mp ha with ha | rfl
    · obtain ⟨i, hi⟩ := h.owned a ha
      exact ⟨i, mem_update_cons.mpr (.inr hi)⟩
    · exact ⟨lst, mem_update_cons.mpr (.inl ⟨rfl, rfl⟩)⟩
  · simp [setHead]
  · simp [setHead]

/-- A list that is null has no chain. -/
theorem Owns.append_null (h : Owns m chains) :
    Owns ({ m with lists := m.lists ++ [some none] } : Memory α) chains where
  chain := by
    intro i hi
    rcases Nat.lt_succ_iff_lt_or_eq.mp (by simpa using hi : i < m.lists.length + 1) with hi | rfl
    · obtain ⟨p, hp, hc⟩ := h.chain i hi
      refine ⟨p, head_eq_ok.mpr ?_, hc⟩
      rw [List.getElem?_append_left hi]
      exact head_eq_ok.mp hp
    · refine ⟨none, head_eq_ok.mpr (by simp), ?_⟩
      rw [h.absent _ le_rfl]
      exact .nil
  absent i hi := h.absent i (by simp only [List.length_append] at hi; omega)
  disjoint := h.disjoint
  owned := h.owned

/-- **`numlist_create`** adds a list of one empty block. -/
theorem Owns.create (h : Owns m chains) :
    ∃ m', m.create = .ok m' ∧ Leaves m'
      (Function.update chains m.lists.length [m.blocks.length]) m.data (m.lists.length + 1)
      (m.blocks.length + 1) := by
  obtain ⟨m', hm', hl⟩ := h.append_null.prependMemblock m.lists.length (by simp)
  refine ⟨m', hm', ?_, hl.data, by simpa using hl.lists, hl.blocks⟩
  have hown := hl.owns
  rwa [h.absent _ le_rfl] at hown

/-- A write to the numbers of a block leaves the chains. -/
theorem Owns.setBlock (h : Owns m chains) (hblk : m.blockAt a = some blk) {blk' : Block α}
    (hnext : blk'.next = blk.next) : Owns (m.setBlock a blk') chains := by
  have ha : a < m.blocks.length := lt_of_next (next_eq_some.mpr ⟨blk, hblk, rfl⟩)
  have hsame : (m.setBlock a blk').next = m.next := by
    rw [next_setBlock ha, hnext]
    exact Function.update_eq_self_iff.mpr (next_eq_some.mpr ⟨blk, hblk, rfl⟩).symm
  refine ⟨fun i hi => ?_, h.absent, h.disjoint, fun b hb => h.owned b ?_⟩
  · obtain ⟨p, hp, hc⟩ := h.chain i hi
    exact ⟨p, hp, hsame ▸ hc⟩
  · simpa [Memory.setBlock] using hb

theorem data_length (m : Memory α) : m.data m.blocks.length = [] := by
  simp [data, blockAt]

/-- The numbers of the lists that do not have the block that changed. -/
theorem Owns.contents_update (h : Owns m chains) {x : List α} (ha : a ∈ chains lst) {i : ℕ}
    (hi : i ≠ lst) : (chains i).flatMap (Function.update m.data a x) = m.contents (chains i) := by
  refine List.flatMap_congr fun b hb => ?_
  have hne : b ≠ a := fun e => hi (h.disjoint i lst a (e ▸ hb) ha)
  exact Function.update_of_ne hne ..

/-- The numbers of the list whose head changed. -/
theorem Owns.contents_update_head (h : Owns m chains) {x : List α} (hc : chains lst = a :: l) :
    (chains lst).flatMap (Function.update m.data a x) = x ++ m.contents l := by
  obtain ⟨p, -, hchain⟩ := h.chain lst (h.lt_of_mem (hc ▸ List.mem_cons_self : a ∈ chains lst))
  have hnodup := hchain.nodup
  rw [hc] at hnodup ⊢
  rw [List.flatMap_cons, Function.update_self]
  refine congrArg (x ++ ·) (List.flatMap_congr fun b hb => ?_)
  have hne : b ≠ a := fun e => (List.nodup_cons.mp hnodup).1 (e ▸ hb)
  exact Function.update_of_ne hne ..

/-- A number goes to the head of its list. -/
theorem Owns.store (h : Owns m chains) (hc : chains lst = a :: l) (hblk : m.blockAt a = some blk)
    (hroom : blk.data.length < memblockSize) (val : α) :
    ∃ m', m.store lst val = .ok m' ∧ Leaves m' chains
      (Function.update m.data a (blk.data ++ [val])) m.lists.length m.blocks.length := by
  have hmem : a ∈ chains lst := by rw [hc]; exact List.mem_cons_self
  obtain ⟨p, hp, hchain⟩ := h.chain lst (h.lt_of_mem hmem)
  rw [hc] at hchain
  obtain ⟨rfl, -⟩ := Chain.cons_iff.mp hchain
  have hpush : push blk val = .ok ⟨((⟨blk.toMemblock, []⟩ : Numlist α).push hroom val).head,
      blk.next⟩ := dif_pos hroom
  refine ⟨m.setBlock a ⟨((⟨blk.toMemblock, []⟩ : Numlist α).push hroom val).head, blk.next⟩, ?_,
    h.setBlock hblk rfl, data_setBlock (h.lt_length hmem), rfl, List.length_set⟩
  rw [Memory.store, hp]
  show (do let blk ← m.block a; let blk ← push blk val; pure (m.setBlock a blk)) = _
  rw [block_eq_ok.mpr hblk]
  show (do let blk ← push blk val; pure (m.setBlock a blk)) = _
  rw [hpush]
  rfl

/-- What `numlist_add` and `numlist_concat` leave of the lists: which of
them are null, and what is in those that are not `lst`. -/
structure Changes (m : Memory α) (chains : ℕ → List ℕ) (lst : ℕ) (m' : Memory α)
    (chains' : ℕ → List ℕ) : Prop where
  owns : Owns m' chains'
  lists : m'.lists.length = m.lists.length
  nulls : ∀ i, chains' i = [] ↔ chains i = []
  others : ∀ i ≠ lst, m'.contents (chains' i) = m.contents (chains i)

/-- `numlist_add` where the head has no room: the number goes to a new
block. -/
theorem Owns.addNew (h : Owns m chains) (hlst : lst < m.lists.length) (hne : chains lst ≠ [])
    (val : α) :
    ∃ m₁ m' chains', m.prependMemblock lst = .ok m₁ ∧ m₁.store lst val = .ok m' ∧
      Changes m chains lst m' chains' ∧
      m'.contents (chains' lst) = val :: m.contents (chains lst) := by
  obtain ⟨m₁, hm₁, hl₁⟩ := h.prependMemblock lst hlst
  have hc₁ : Function.update chains lst (m.blocks.length :: chains lst) lst =
      m.blocks.length :: chains lst := Function.update_self ..
  have hmem₁ : m.blocks.length ∈ Function.update chains lst (m.blocks.length :: chains lst) lst :=
    mem_update_cons.mpr (.inl ⟨rfl, rfl⟩)
  obtain ⟨q₁, -, hchain₁⟩ := hl₁.owns.chain lst (by rw [hl₁.lists]; exact hlst)
  obtain ⟨r, hr⟩ := hchain₁.next_isSome hmem₁
  obtain ⟨blk₁, hblk₁, -⟩ := next_eq_some.mp hr
  have hempty : blk₁.data = [] := by rw [← data_eq hblk₁, hl₁.data, data_length]
  have hroom : blk₁.data.length < memblockSize := by
    rw [hempty]
    exact Nat.zero_lt_succ 499
  obtain ⟨m', hm', hl'⟩ := hl₁.owns.store hc₁ hblk₁ hroom val
  refine ⟨m₁, m', _, hm₁, hm', ⟨hl'.owns, hl'.lists.trans hl₁.lists, fun i => ?_, fun i hi => ?_⟩,
    ?_⟩
  · by_cases hi : i = lst
    · subst hi
      rw [hc₁]
      simp [hne]
    · rw [Function.update_of_ne hi]
  · rw [contents, hl'.data, hl₁.owns.contents_update hmem₁ hi, contents,
      hl₁.data, Function.update_of_ne hi, contents]
  · rw [contents, hl'.data, hl₁.owns.contents_update_head hc₁, hempty, contents, hl₁.data]
    rfl

/-- `numlist_add` where the head has room. -/
theorem Owns.addHere (h : Owns m chains) (hc : chains lst = a :: l)
    (hblk : m.blockAt a = some blk) (hroom : blk.data.length < memblockSize) (val : α) :
    ∃ m', m.store lst val = .ok m' ∧ Changes m chains lst m' chains ∧
      (m'.contents (chains lst)).Perm (val :: m.contents (chains lst)) := by
  have hmem : a ∈ chains lst := by rw [hc]; exact List.mem_cons_self
  have hold : m.contents (chains lst) = blk.data ++ m.contents l := by
    rw [hc, contents, List.flatMap_cons, data_eq hblk, contents]
  obtain ⟨m', hm', hl'⟩ := h.store hc hblk hroom val
  refine ⟨m', hm', ⟨hl'.owns, hl'.lists, fun i => Iff.rfl, fun i hi => ?_⟩, ?_⟩
  · rw [contents, hl'.data, h.contents_update hmem hi]
  · rw [contents, hl'.data, h.contents_update_head hc, hold, List.append_assoc]
    exact List.perm_middle

/-- **`numlist_add` adds the number**, wherever the head is not null. -/
theorem Owns.add (h : Owns m chains) (hne : chains lst ≠ []) (val : α) :
    ∃ m' chains', m.add lst val = .ok m' ∧ Changes m chains lst m' chains' ∧
      (m'.contents (chains' lst)).Perm (val :: m.contents (chains lst)) := by
  obtain ⟨a, l, hc⟩ := List.exists_cons_of_ne_nil hne
  have hmem : a ∈ chains lst := by rw [hc]; exact List.mem_cons_self
  have hlst := h.lt_of_mem hmem
  obtain ⟨p, hp, hchain⟩ := h.chain lst hlst
  rw [hc] at hchain
  obtain ⟨rfl, q, hnext, -⟩ := Chain.cons_iff.mp hchain
  obtain ⟨blk, hblk, -⟩ := next_eq_some.mp hnext
  have hadd : m.add lst val = (do
      let m ← if blk.data.length = memblockSize then m.prependMemblock lst else pure m
      m.store lst val) := by
    rw [Memory.add, hp]
    show (do
      let blk ← m.block a
      let m ← if blk.data.length = memblockSize then m.prependMemblock lst else pure m
      m.store lst val) = _
    rw [block_eq_ok.mpr hblk]
    rfl
  rw [hadd]
  by_cases hfull : blk.data.length = memblockSize
  · obtain ⟨m₁, m', chains', hm₁, hm', hch, hcontents⟩ := h.addNew hlst hne val
    refine ⟨m', chains', ?_, hch, hcontents ▸ .refl _⟩
    rw [if_pos hfull, hm₁]
    exact hm'
  · have hroom : blk.data.length < memblockSize := lt_of_le_of_ne blk.size_le hfull
    obtain ⟨m', hm', hch, hperm⟩ := h.addHere hc hblk hroom val
    refine ⟨m', chains, ?_, hch, hperm⟩
    rw [if_neg hfull]
    exact hm'

/-- The chains after that of `tail` was appended to that of `lst`. -/
def joined (chains : ℕ → List ℕ) (lst tail : ℕ) : ℕ → List ℕ :=
  Function.update (Function.update chains lst (chains lst ++ chains tail)) tail []

theorem mem_joined (hdiff : lst ≠ tail) {i b : ℕ} : b ∈ joined chains lst tail i ↔
    i ≠ tail ∧ (b ∈ chains i ∨ (i = lst ∧ b ∈ chains tail)) := by
  unfold joined
  by_cases hit : i = tail
  · subst hit
    simp
  · rw [Function.update_of_ne hit]
    by_cases hil : i = lst
    · subst hil
      simp [hdiff]
    · simp [hit, hil]

/-- What `numlist_concat` does, with the last block of the list at `a`. -/
theorem concat_eq {q : Option ℕ} (hp : m.head lst = .ok p)
    (hlast : m.lastBlock m.blocks.length p = .ok a) (hblk : m.blockAt a = some blk)
    (hq : m.head tail = .ok q) :
    m.concat lst tail = .ok ((m.setBlock a { blk with next := q }).setHead tail none) := by
  rw [Memory.concat, hp]
  show (do
    let a ← m.lastBlock m.blocks.length p
    let blk ← m.block a
    let tailHead ← m.head tail
    pure ((m.setBlock a { blk with next := tailHead }).setHead tail none)) = _
  rw [hlast]
  show (do
    let blk ← m.block a
    let tailHead ← m.head tail
    pure ((m.setBlock a { blk with next := tailHead }).setHead tail none)) = _
  rw [block_eq_ok.mpr hblk, hq]
  rfl

/-- The last block of a list is linked to the first of the tail. -/
theorem Owns.linked (h : Owns m chains) (hdiff : lst ≠ tail) (htail : tail < m.lists.length)
    (hc : chains lst = l ++ [a]) {q : Option ℕ} (hq : m.head tail = .ok q) :
    Owns ((m.setBlock a { blk with next := q }).setHead tail none) (joined chains lst tail) := by
  have hmem : a ∈ chains lst := by rw [hc]; simp
  have hnext : ((m.setBlock a { blk with next := q }).setHead tail none).next =
      Function.update m.next a (some q) := next_setBlock (h.lt_length hmem)
  refine ⟨fun i hi => ?_, fun i hi => ?_, fun i j b hi hj => ?_, fun b hb => ?_⟩
  · have hi : i < m.lists.length := by simpa [setHead, Memory.setBlock] using hi
    rw [head_setHead (by exact htail), hnext, joined]
    by_cases hit : i = tail
    · subst hit
      exact ⟨none, if_pos rfl, by rw [Function.update_self]; exact .nil⟩
    rw [if_neg hit, Function.update_of_ne hit]
    obtain ⟨p, hp, hchain⟩ := h.chain i hi
    refine ⟨p, hp, ?_⟩
    by_cases hil : i = lst
    · subst hil
      obtain ⟨q', hq', hqchain⟩ := h.chain tail htail
      obtain rfl := Except.ok.inj (hq.symm.trans hq')
      rw [Function.update_self, hc, List.append_assoc]
      exact (hc ▸ hchain).join hqchain fun b hb hb' =>
        hdiff (h.disjoint i tail b (hc ▸ hb) hb')
    · rw [Function.update_of_ne hil]
      -- the block whose link changed is not among them
      refine hchain.congr fun b hb => ?_
      have hba : b ≠ a := fun e => hil (h.disjoint i lst a (e ▸ hb) hmem)
      exact Function.update_of_ne hba ..
  · have hi : m.lists.length ≤ i := by simpa [setHead, Memory.setBlock] using hi
    have hlst := h.lt_of_mem hmem
    rw [joined, Function.update_of_ne (by omega), Function.update_of_ne (by omega)]
    exact h.absent i hi
  · obtain ⟨hit, hbi⟩ := (mem_joined hdiff).mp hi
    obtain ⟨hjt, hbj⟩ := (mem_joined hdiff).mp hj
    rcases hbi with hbi | ⟨hil, hbi⟩ <;> rcases hbj with hbj | ⟨hjl, hbj⟩
    · exact h.disjoint i j b hbi hbj
    · exact absurd (h.disjoint i tail b hbi hbj) hit
    · exact absurd (h.disjoint j tail b hbj hbi) hjt
    · exact hil.trans hjl.symm
  · obtain ⟨i, hi⟩ := h.owned b (by simpa [setHead, Memory.setBlock] using hb)
    by_cases hit : i = tail
    · exact ⟨lst, (mem_joined hdiff).mpr ⟨hdiff, .inr ⟨rfl, hit ▸ hi⟩⟩⟩
    · exact ⟨i, (mem_joined hdiff).mpr ⟨hit, .inl hi⟩⟩

/-- **`numlist_concat` appends the chain** of the tail, wherever the head
is not null. -/
theorem Owns.concat (h : Owns m chains) (hne : chains lst ≠ []) (htail : tail < m.lists.length)
    (hdiff : lst ≠ tail) :
    ∃ m', m.concat lst tail = .ok m' ∧
      Leaves m' (joined chains lst tail) m.data m.lists.length m.blocks.length := by
  obtain ⟨l, a, hc⟩ : ∃ l a, chains lst = l ++ [a] :=
    ⟨_, _, (List.dropLast_append_getLast hne).symm⟩
  have hmem : a ∈ chains lst := by rw [hc]; simp
  obtain ⟨p, hp, hchain⟩ := h.chain lst (h.lt_of_mem hmem)
  obtain ⟨q, hq, -⟩ := h.chain tail htail
  obtain ⟨r, hr⟩ := hchain.next_isSome hmem
  obtain ⟨blk, hblk, -⟩ := next_eq_some.mp hr
  have hlast : m.lastBlock m.blocks.length p = .ok a := by
    refine lastBlock_eq (hc ▸ hchain) ?_
    have hlen := h.length_le lst
    rw [hc, List.length_append, List.length_singleton] at hlen
    omega
  refine ⟨_, concat_eq hp hlast hblk hq, h.linked hdiff htail hc hq, ?_, ?_, ?_⟩
  · show (m.setBlock a { blk with next := q }).data = m.data
    rw [data_setBlock (h.lt_length hmem)]
    exact Function.update_eq_self_iff.mpr (data_eq hblk).symm
  · simp [setHead, Memory.setBlock]
  · simp [setHead, Memory.setBlock]

/-- **A null head is followed** by `numlist_add` and by `numlist_concat`. -/
theorem Owns.add_null (h : Owns m chains) (hlst : lst < m.lists.length) (hnull : chains lst = [])
    (val : α) : m.add lst val = .error .null := by
  obtain ⟨p, hp, hchain⟩ := h.chain lst hlst
  rw [hnull] at hchain
  obtain rfl := Chain.nil_iff.mp hchain
  rw [Memory.add, hp]
  rfl

theorem Owns.concat_null (h : Owns m chains) (hlst : lst < m.lists.length)
    (hnull : chains lst = []) (tail : ℕ) : m.concat lst tail = .error .null := by
  obtain ⟨p, hp, hchain⟩ := h.chain lst hlst
  rw [hnull] at hchain
  obtain rfl := Chain.nil_iff.mp hchain
  rw [Memory.concat, hp]
  show (do
    let a ← m.lastBlock m.blocks.length none
    let blk ← m.block a
    let tailHead ← m.head tail
    pure ((m.setBlock a { blk with next := tailHead }).setHead tail none)) = _
  rw [lastBlock]
  rfl

end Memory

end Rushit
