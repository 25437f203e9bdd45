import Rushit.Numlist.Chains
/-!
# A pool of lists as a pool of multisets

What the lists hold is a multiset each: `numlist_add` adds to one of
them, and `numlist_concat` moves the numbers of one to another. The
queries see no more than the multiset (`Agrees`), however the numbers lie
in the blocks. But `numlist_concat` leaves its tail with a null head, and
nothing can be added to that or appended to it again, which is where the
pool of lists is not one of multisets (`refines_pool_iff`).
-/

namespace Rushit

namespace Memory

variable {α : Type}

/-- What is done to the lists, which are numbered in the order of their
creation. -/
inductive Op (α : Type)
  | create
  | add (lst : ℕ) (val : α)
  | concat (lst tail : ℕ)

def exec (m : Memory α) : Op α → Except Fault (Memory α)
  | .create => m.create
  | .add lst val => m.add lst val
  | .concat lst tail => m.concat lst tail

def execAll (m : Memory α) (ops : List (Op α)) : Except Fault (Memory α) := ops.foldlM exec m

/-- The operations name lists that were created, of which there are `n`
before, and a list is not appended to itself. -/
def Named : ℕ → List (Op α) → Prop
  | _, [] => True
  | n, .create :: ops => Named (n + 1) ops
  | n, .add lst _ :: ops => lst < n ∧ Named n ops
  | n, .concat lst tail :: ops => lst < n ∧ tail < n ∧ lst ≠ tail ∧ Named n ops

/-- **What the lists are for**: multisets of numbers. -/
def poolStep (pool : ℕ → Multiset α) : Op α → ℕ → Multiset α
  | .create => pool
  | .add lst val => Function.update pool lst (val ::ₘ pool lst)
  | .concat lst tail =>
    Function.update (Function.update pool lst (pool lst + pool tail)) tail 0

/-- The multisets after the operations. -/
def poolAfter (pool : ℕ → Multiset α) (ops : List (Op α)) : ℕ → Multiset α :=
  ops.foldl poolStep pool

/-- No list is added to or appended to after it was the tail of a
`numlist_concat`; `moved` are the lists that were one before. -/
def Spares : List ℕ → List (Op α) → Prop
  | _, [] => True
  | moved, .create :: ops => Spares moved ops
  | moved, .add lst _ :: ops => lst ∉ moved ∧ Spares moved ops
  | moved, .concat lst tail :: ops => lst ∉ moved ∧ Spares (tail :: moved) ops

/-- The lists hold the multisets, and those that are null were moved. -/
def Holds (m : Memory α) (pool : ℕ → Multiset α) (moved : List ℕ) : Prop :=
  ∃ chains, Owns m chains ∧ (∀ lst, ↑(m.contents (chains lst)) = pool lst) ∧
    (∀ lst ∈ moved, lst < m.lists.length) ∧
    ∀ lst < m.lists.length, chains lst = [] ↔ lst ∈ moved

/-- **The queries on a list** give what they give of a multiset. -/
structure Agrees [LinearOrder α] [BoundedOrder α] (m : Memory α) (lst : ℕ) (s : Multiset α) :
    Prop where
  size : m.size lst = .ok s.card
  min : m.min lst = .ok s.inf
  max : m.max lst = .ok s.sup
  percentile : ∀ p, 0 ≤ p → p ≤ 100 →
    m.percentile lst p = .ok (atRank s (percentileIndex s.card p))

variable {m m' : Memory α} {pool : ℕ → Multiset α} {moved : List ℕ} {ops : List (Op α)}
variable {chains : ℕ → List ℕ} {lst n : ℕ} {p : ℤ}

/-! ## Queries -/

theorem Owns.size (h : Owns m chains) (hlst : lst < m.lists.length) :
    m.size lst = .ok (m.contents (chains lst)).length := by
  rw [Memory.size, h.forEach hlst, Numlist.foldl_count, Nat.zero_add]

/-- Within 0 to 100 the index is that of a number. -/
theorem percentileIndex_lt (hn : 0 < n) (hp : 0 ≤ p) (hp' : p ≤ 100) :
    percentileIndex n p < n := by
  have hmod : (p % 2 ^ 64).toNat ≤ 100 := by omega
  have hle : (n - 1) * (p % 2 ^ 64).toNat ≤ (n - 1) * 100 := Nat.mul_le_mul_left _ hmod
  have hwrap := Nat.mod_le ((n - 1) * (p % 2 ^ 64).toNat) (2 ^ 64)
  unfold percentileIndex
  omega

section Order

variable [LinearOrder α]

theorem compareDoubles_nonpos {x y : α} : compareDoubles x y ≤ 0 ↔ x ≤ y := by
  unfold compareDoubles
  split_ifs with hlt hgt
  · simp [hlt.le]
  · simp [hgt]
  · simp [not_lt.mp hgt]

/-- `qsort` puts the numbers in order. -/
theorem mergeSort_compareDoubles (l : List α) :
    l.mergeSort (fun x y => decide (compareDoubles x y ≤ 0)) = (l : Multiset α).sort := by
  have hle : (fun x y : α => decide (compareDoubles x y ≤ 0)) = fun x y => decide (x ≤ y) :=
    funext fun x => funext fun y => decide_eq_decide.mpr compareDoubles_nonpos
  rw [hle, Multiset.coe_sort]

omit [LinearOrder α] in
theorem foldl_append (l values : List α) :
    l.foldl (fun values n => values ++ [n]) values = values ++ l := by
  induction l generalizing values with
  | nil => rw [List.foldl_nil, List.append_nil]
  | cons n l ih => rw [List.foldl_cons, ih, List.append_assoc, List.singleton_append]

variable [BoundedOrder α]

theorem foldl_min (l : List α) (b : α) :
    l.foldl (fun min n => if n < min then n else min) b = b ⊓ (l : Multiset α).inf := by
  induction l generalizing b with
  | nil => simp
  | cons n l ih =>
    have hmin : (if n < b then n else b) = b ⊓ n := by
      split_ifs with hlt
      · exact (inf_eq_right.mpr hlt.le).symm
      · exact (inf_eq_left.mpr (not_lt.mp hlt)).symm
    rw [List.foldl_cons, ih, hmin, ← Multiset.cons_coe, Multiset.inf_cons, inf_assoc]

theorem foldl_max (l : List α) (b : α) :
    l.foldl (fun max n => if n > max then n else max) b = b ⊔ (l : Multiset α).sup := by
  induction l generalizing b with
  | nil => simp
  | cons n l ih =>
    have hmax : (if n > b then n else b) = b ⊔ n := by
      split_ifs with hgt
      · exact (sup_eq_right.mpr (le_of_lt hgt)).symm
      · exact (sup_eq_left.mpr (not_lt.mp hgt)).symm
    rw [List.foldl_cons, ih, hmax, ← Multiset.cons_coe, Multiset.sup_cons, sup_assoc]

/-- **The queries see the multiset** and nothing of the blocks. -/
theorem Owns.agrees (h : Owns m chains) (hlst : lst < m.lists.length) :
    Agrees m lst ↑(m.contents (chains lst)) where
  size := h.size hlst
  min := by rw [Memory.min, h.forEach hlst, foldl_min, top_inf_eq]
  max := by rw [Memory.max, h.forEach hlst, foldl_max, bot_sup_eq]
  percentile p hp hp' := by
    rw [Memory.percentile, h.size hlst]
    show (if (m.contents (chains lst)).length = 0 then pure none else _) = _
    rcases Nat.eq_zero_or_pos (m.contents (chains lst)).length with hzero | hpos
    · -- `NAN`
      rw [if_pos hzero, List.length_eq_zero_iff.mp hzero]
      simp [atRank, pure, Except.pure]
    · obtain ⟨x, hx⟩ : ∃ x, atRank (m.contents (chains lst) : Multiset α)
          (percentileIndex (m.contents (chains lst)).length p) = some x :=
        atRank_isSome (percentileIndex_lt hpos hp hp')
      have hread : readAt ((m.contents (chains lst) : Multiset α).sort)
          (percentileIndex (m.contents (chains lst)).length p) = .ok x := by
        rw [atRank] at hx
        rw [readAt, hx]
      rw [if_neg hpos.ne', h.forEach hlst, foldl_append, List.nil_append]
      show (readAt (List.mergeSort _ _) _ >>= fun result => pure (some result)) = _
      rw [mergeSort_compareDoubles, hread, Multiset.coe_card, hx]
      rfl

end Order

/-! ## Runs -/

theorem holds_empty : Holds (empty : Memory α) (fun _ => 0) [] :=
  ⟨fun _ => [], ⟨nofun, fun _ _ => rfl, nofun, nofun⟩, fun _ => rfl, nofun, nofun⟩

theorem Holds.create (h : Holds m pool moved) :
    ∃ m', m.create = .ok m' ∧ Holds m' pool moved ∧ m'.lists.length = m.lists.length + 1 := by
  obtain ⟨chains, hown, hpool, hlt, hnull⟩ := h
  obtain ⟨m', hm', hl⟩ := hown.create
  refine ⟨m', hm', ⟨_, hl.owns, fun i => ?_, fun i hi => ?_, fun i hi => ?_⟩, hl.lists⟩
  · rw [← hpool i, contents, hl.data, contents]
    by_cases hi : i = m.lists.length
    · subst hi
      rw [Function.update_self, hown.absent _ le_rfl, List.flatMap_singleton, data_length]
      rfl
    · rw [Function.update_of_ne hi]
  · rw [hl.lists]
    exact Nat.lt_succ_of_lt (hlt i hi)
  · by_cases hnew : i = m.lists.length
    · subst hnew
      -- the new list has a block, and was not moved
      rw [Function.update_self]
      exact ⟨fun heq => absurd heq (List.cons_ne_nil _ _),
        fun hmem => absurd (hlt _ hmem) (Nat.lt_irrefl _)⟩
    · rw [Function.update_of_ne hnew]
      exact hnull i (by rw [hl.lists] at hi; omega)

theorem Holds.add (h : Holds m pool moved) (hlst : lst < m.lists.length) (hmoved : lst ∉ moved)
    (val : α) : ∃ m', m.add lst val = .ok m' ∧
      Holds m' (Function.update pool lst (val ::ₘ pool lst)) moved ∧
      m'.lists.length = m.lists.length := by
  obtain ⟨chains, hown, hpool, hlt, hnull⟩ := h
  obtain ⟨m', chains', hm', hch, hperm⟩ :=
    hown.add (fun hnil => hmoved ((hnull lst hlst).mp hnil)) val
  refine ⟨m', hm', ⟨chains', hch.owns, fun i => ?_, fun i hi => ?_, fun i hi => ?_⟩, hch.lists⟩
  · by_cases hi : i = lst
    · subst hi
      rw [Function.update_self, ← hpool i, Multiset.cons_coe]
      exact Multiset.coe_eq_coe.mpr hperm
    · rw [Function.update_of_ne hi, ← hpool i, hch.others i hi]
  · rw [hch.lists]
    exact hlt i hi
  · rw [hch.nulls i]
    exact hnull i (hch.lists ▸ hi)

theorem Holds.concat {tail : ℕ} (h : Holds m pool moved) (hlst : lst < m.lists.length)
    (htail : tail < m.lists.length) (hdiff : lst ≠ tail) (hmoved : lst ∉ moved) :
    ∃ m', m.concat lst tail = .ok m' ∧
      Holds m' (Function.update (Function.update pool lst (pool lst + pool tail)) tail 0)
        (tail :: moved) ∧ m'.lists.length = m.lists.length := by
  obtain ⟨chains, hown, hpool, hlt, hnull⟩ := h
  have hne : chains lst ≠ [] := fun hnil => hmoved ((hnull lst hlst).mp hnil)
  obtain ⟨m', hm', hl⟩ := hown.concat hne htail hdiff
  refine ⟨m', hm', ⟨_, hl.owns, fun i => ?_, fun i hi => ?_, fun i hi => ?_⟩, hl.lists⟩
  · rw [contents, hl.data, joined]
    by_cases hit : i = tail
    · subst hit
      rw [Function.update_self, Function.update_self]
      rfl
    rw [Function.update_of_ne hit, Function.update_of_ne hit]
    by_cases hil : i = lst
    · subst hil
      rw [Function.update_self, Function.update_self, ← hpool i, ← hpool tail,
        List.flatMap_append, Multiset.coe_add]
      rfl
    · rw [Function.update_of_ne hil, Function.update_of_ne hil, ← hpool i]
      rfl
  · rw [hl.lists]
    exact (List.mem_cons.mp hi).elim (fun e => e ▸ htail) (hlt i)
  · rw [joined]
    by_cases hit : i = tail
    · subst hit
      simp
    rw [Function.update_of_ne hit]
    have hold := hnull i (hl.lists ▸ hi)
    by_cases hil : i = lst
    · subst hil
      simp [hne, hit, hmoved]
    · rw [Function.update_of_ne hil, hold]
      simp [hit]

/-- A list that was moved has a null head. -/
theorem Holds.null (h : Holds m pool moved) (hmoved : lst ∈ moved) :
    (∀ val, m.add lst val = .error .null) ∧ ∀ tail, m.concat lst tail = .error .null := by
  obtain ⟨chains, hown, -, hlt, hnull⟩ := h
  have hnil := (hnull lst (hlt lst hmoved)).mpr hmoved
  exact ⟨fun val => hown.add_null (hlt lst hmoved) hnil val,
    fun tail => hown.concat_null (hlt lst hmoved) hnil tail⟩

/-- The lists that are null after the operations. -/
def movedAfter (moved : List ℕ) : List (Op α) → List ℕ
  | [] => moved
  | .concat _ tail :: ops => movedAfter (tail :: moved) ops
  | _ :: ops => movedAfter moved ops

/-- **Operations that spare what was moved** keep the lists multisets. -/
theorem Holds.execAll (h : Holds m pool moved) (hnamed : Named m.lists.length ops)
    (hspares : Spares moved ops) :
    ∃ m', m.execAll ops = .ok m' ∧ Holds m' (poolAfter pool ops) (movedAfter moved ops) := by
  induction ops generalizing m pool moved with
  | nil => exact ⟨m, rfl, h⟩
  | cons op ops ih =>
    cases op with
    | create =>
      obtain ⟨m₁, hm₁, h₁, hlen⟩ := h.create
      obtain ⟨m', hm', h'⟩ := ih h₁ (hlen ▸ hnamed) hspares
      exact ⟨m', foldlM_cons_eq_ok.mpr ⟨m₁, hm₁, hm'⟩, h'⟩
    | add lst val =>
      obtain ⟨m₁, hm₁, h₁, hlen⟩ := h.add hnamed.1 hspares.1 val
      obtain ⟨m', hm', h'⟩ := ih h₁ (hlen ▸ hnamed.2) hspares.2
      exact ⟨m', foldlM_cons_eq_ok.mpr ⟨m₁, hm₁, hm'⟩, h'⟩
    | concat lst tail =>
      obtain ⟨hlst, htail, hdiff, hnamed⟩ := hnamed
      obtain ⟨m₁, hm₁, h₁, hlen⟩ := h.concat hlst htail hdiff hspares.1
      obtain ⟨m', hm', h'⟩ := ih h₁ (hlen ▸ hnamed) hspares.2
      exact ⟨m', foldlM_cons_eq_ok.mpr ⟨m₁, hm₁, hm'⟩, h'⟩

/-- **Operations that have a result** spare what was moved. -/
theorem Holds.spares (h : Holds m pool moved) (hnamed : Named m.lists.length ops)
    (hok : m.execAll ops = .ok m') : Spares moved ops := by
  induction ops generalizing m pool moved with
  | nil => trivial
  | cons op ops ih =>
    obtain ⟨m₁, hm₁, hrest⟩ := foldlM_cons_eq_ok.mp hok
    cases op with
    | create =>
      obtain ⟨m₂, hm₂, h₂, hlen⟩ := h.create
      obtain rfl := Except.ok.inj (hm₁.symm.trans hm₂)
      exact ih h₂ (hlen ▸ hnamed) hrest
    | add lst val =>
      have hmoved : lst ∉ moved := fun hmem => by
        cases hm₁.symm.trans ((h.null hmem).1 val)
      obtain ⟨m₂, hm₂, h₂, hlen⟩ := h.add hnamed.1 hmoved val
      obtain rfl := Except.ok.inj (hm₁.symm.trans hm₂)
      exact ⟨hmoved, ih h₂ (hlen ▸ hnamed.2) hrest⟩
    | concat lst tail =>
      obtain ⟨hlst, htail, hdiff, hnamed⟩ := hnamed
      have hmoved : lst ∉ moved := fun hmem => by
        cases hm₁.symm.trans ((h.null hmem).2 tail)
      obtain ⟨m₂, hm₂, h₂, hlen⟩ := h.concat hlst htail hdiff hmoved
      obtain rfl := Except.ok.inj (hm₁.symm.trans hm₂)
      exact ⟨hmoved, ih h₂ (hlen ▸ hnamed) hrest⟩

/-- A run of the operations from the start. -/
theorem holds_of_execAll (hnamed : Named 0 ops) (hok : (empty : Memory α).execAll ops = .ok m) :
    Holds m (poolAfter (fun _ => 0) ops) (movedAfter [] ops) := by
  obtain ⟨m', hm', h'⟩ := holds_empty.execAll hnamed (holds_empty.spares hnamed hok)
  obtain rfl := Except.ok.inj (hok.symm.trans hm')
  exact h'

theorem Holds.agrees [LinearOrder α] [BoundedOrder α] (h : Holds m pool moved)
    (hlst : lst < m.lists.length) : Agrees m lst (pool lst) := by
  obtain ⟨chains, hown, hpool, -⟩ := h
  rw [← hpool lst]
  exact hown.agrees hlst

/-- **When the pool of lists is one of multisets**: nothing was added to
or appended to a list after it was moved. -/
theorem refines_pool_iff [LinearOrder α] [BoundedOrder α] (hnamed : Named 0 ops) :
    (∃ m : Memory α, empty.execAll ops = .ok m ∧
      ∀ lst < m.lists.length, Agrees m lst (poolAfter (fun _ => 0) ops lst)) ↔ Spares [] ops := by
  constructor
  · rintro ⟨m, hok, -⟩
    exact holds_empty.spares hnamed hok
  · intro hspares
    obtain ⟨m, hok, h⟩ := holds_empty.execAll hnamed hspares
    exact ⟨m, hok, fun lst hlst => h.agrees hlst⟩

/-- Two lists, of which the first takes over the numbers of the second. -/
def concatOps : List (Op Bool) := [.create, .create, .add 1 true, .concat 0 1, .add 0 false]

theorem named_concatOps : Named 0 concatOps := by simp [concatOps, Named]

theorem spares_concatOps : Spares [] concatOps := by simp [concatOps, Spares]

theorem refines_pool_concat : ∃ m : Memory Bool, empty.execAll concatOps = .ok m ∧
    ∀ lst < m.lists.length, Agrees m lst (poolAfter (fun _ => 0) concatOps lst) :=
  (refines_pool_iff named_concatOps).mpr spares_concatOps

/-- **A moved list is not an empty one**: to add to it follows a null
pointer. -/
theorem moved_not_empty : ¬ ∀ ops : List (Op Bool), Named 0 ops →
    ∃ m : Memory Bool, empty.execAll ops = .ok m ∧
      ∀ lst < m.lists.length, Agrees m lst (poolAfter (fun _ => 0) ops lst) := by
  intro h
  obtain ⟨m, hok, -⟩ := h [.create, .create, .concat 0 1, .add 1 true] (by simp [Named])
  have hnull : (empty : Memory Bool).execAll [.create, .create, .concat 0 1, .add 1 true] =
      .error .null := rfl
  rw [hnull] at hok
  cases hok

end Memory

end Rushit
