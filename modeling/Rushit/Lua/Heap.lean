import Rushit.Lua.Model
import Mathlib.Data.List.Nodup
/-!
# Heap operations

What each heap operation changes and what it leaves alone. Everything
later is proved from these lemmas; no later file unfolds an operation of
`Rushit/Lua/Model.lean`.
-/

namespace Rushit

namespace Lua

variable {h : Heap} {a x y : Addr} {o : Obj} {al : Allocator}

/-- Whether an address is in use. -/
def Heap.Live (h : Heap) (x : Addr) : Prop := h.lookup x ≠ none

theorem Heap.live_of_lookup (hx : h.lookup x = some o) : h.Live x := by
  rw [Heap.Live, hx]; simp

theorem lookup_cons_ne {β : Type*} {l : List (Addr × β)} {b : β} (hne : x ≠ a) :
    ((a, b) :: l).lookup x = l.lookup x := by
  rw [List.lookup_cons, beq_false_of_ne hne]

theorem mem_of_lookup {α β : Type*} [BEq α] [LawfulBEq α] {l : List (α × β)} {k : α} {b : β}
    (hl : l.lookup k = some b) : (k, b) ∈ l := by
  obtain ⟨l₁, l₂, rfl, -⟩ := List.lookup_eq_some_iff.mp hl
  simp

theorem not_mem_keys_of_lookup {α β : Type*} [BEq α] [LawfulBEq α] {l : List (α × β)} {k : α}
    (hl : l.lookup k = none) : k ∉ l.map Prod.fst := by
  intro hk
  obtain ⟨p, hp, rfl⟩ := List.mem_map.mp hk
  simpa using List.lookup_eq_none_iff.mp hl p hp

/-- Under keys that differ, what is there is what is found. -/
theorem lookup_of_mem_nodup {α β : Type*} [BEq α] [LawfulBEq α] {l : List (α × β)} {k : α} {b : β}
    (hnd : (l.map Prod.fst).Nodup) (hm : (k, b) ∈ l) : l.lookup k = some b := by
  induction l with
  | nil => cases hm
  | cons p l ih =>
    obtain ⟨j, d⟩ := p
    rw [List.map_cons, List.nodup_cons] at hnd
    rcases List.mem_cons.mp hm with heq | hrest
    · cases heq; simp
    · have hne : k ≠ j := by
        rintro rfl
        exact hnd.1 (List.mem_map.mpr ⟨_, hrest, rfl⟩)
      rw [List.lookup_cons, beq_false_of_ne hne]
      exact ih hnd.2 hrest

/-- The address handed out is not in use. -/
theorem Allocator.not_live (al : Allocator) (h : Heap) : ¬ h.Live (al.next h) := by
  simp [Heap.Live, al.lookup_next]

theorem Allocator.ne_next (hx : h.Live x) : x ≠ al.next h := by
  rintro rfl; exact al.not_live h hx

/-- A closure with one upvalue moved to another cell. -/
def Closure.join (c : Closure) (n : ℕ) (x : Addr) : Closure where
  proto := c.proto
  uvs := c.uvs.set n x
  size_eq := by rw [List.length_set]; exact c.size_eq

namespace Heap

/-! ## Reading -/

theorem table?_eq_some {t : Table} : h.table? a = some t ↔ h.lookup a = some (.table t) := by
  unfold table?; split <;> simp_all

theorem closure?_eq_some {c : Closure} :
    h.closure? a = some c ↔ h.lookup a = some (.closure c) := by
  unfold closure?; split <;> simp_all

theorem cell?_eq_some {v : Value} : h.cell? a = some v ↔ h.lookup a = some (.cell v) := by
  unfold cell?; split <;> simp_all

/-- Upvalue `n + 1` of a closure is at position `n` of its cells. -/
theorem upvalueid_succ {c : Closure} {n : ℕ} (hc : h.lookup a = some (.closure c)) :
    h.upvalueid a (n + 1) = c.uvs[n]? := by
  rw [upvalueid, closure?_eq_some.mpr hc]; simp

@[simp] theorem upvalueid_zero : h.upvalueid a 0 = none := by
  unfold upvalueid; split <;> simp

theorem upvalueid_eq_some {n : ℕ} : h.upvalueid a n = some x ↔
    ∃ c m, h.lookup a = some (.closure c) ∧ n = m + 1 ∧ c.uvs[m]? = some x := by
  constructor
  · intro hx
    unfold upvalueid at hx
    split at hx
    · rename_i c hc
      cases n with
      | zero => simp at hx
      | succ m => exact ⟨c, m, closure?_eq_some.mp hc, rfl, by simpa using hx⟩
    · simp at hx
  · rintro ⟨c, m, hc, rfl, hm⟩
    rw [upvalueid_succ hc, hm]

/-- What an upvalue number refers to depends on the closure alone. -/
theorem upvalueid_congr {h' : Heap} {n : ℕ} (heq : h'.lookup a = h.lookup a) :
    h'.upvalueid a n = h.upvalueid a n := by
  simp only [upvalueid, closure?, heq]

theorem live_of_upvalueid {n : ℕ} (hx : h.upvalueid a n = some x) : h.Live a := by
  obtain ⟨c, m, hc, -, -⟩ := upvalueid_eq_some.mp hx
  exact live_of_lookup hc

/-! ## Writing -/

theorem setupvalue_eq {n : ℕ} {v : Value} (hx : h.upvalueid a n = some x) :
    h.setupvalue a n v = some ((x, .cell v) :: h) := by
  rw [setupvalue, hx]; rfl

theorem upvaluejoin_eq {c : Closure} {n m : ℕ} {g : Addr}
    (hc : h.lookup a = some (.closure c)) (hn : n < c.uvs.length)
    (hx : h.upvalueid g m = some x) :
    h.upvaluejoin a (n + 1) g m = some ((a, .closure (c.join n x)) :: h) := by
  rw [upvaluejoin, closure?_eq_some.mpr hc, upvalueid_succ hc, hx, List.getElem?_eq_getElem hn]
  rfl

theorem rawset_eq {t t' : Table} {k v : Value} (ht : h.lookup a = some (.table t))
    (hset : t.rawset k v = some t') : h.rawset a k v = some ((a, .table t') :: h) := by
  rw [rawset, table?_eq_some.mpr ht]; simp [hset]

end Heap

/-! ## Tables -/

namespace Table

variable {t : Table} {k v : Value}

theorem rawset_of_keyable (hk : k.keyable = true) (hv : v ≠ .nil) :
    t.rawset k v = some (t.insert k v hk hv) := by
  rw [rawset, dif_pos hk, dif_neg hv]

/-- Storing under a key the table does not have appends the entry. -/
theorem insert_entries (hk : k.keyable = true) (hv : v ≠ .nil)
    (hnew : k ∉ t.entries.map Prod.fst) :
    (t.insert k v hk hv).entries = t.entries ++ [(k, v)] := by
  have hall : t.without k = t.entries := by
    refine List.filter_eq_self.mpr fun e he => ?_
    have : e.1 ≠ k := fun hek => hnew (List.mem_map.mpr ⟨e, he, hek⟩)
    simpa using this
  simp [insert, hall]

theorem lookup_filter_ne {l : List (Value × Value)} {j k : Value} (hj : j ≠ k) :
    (l.filter (·.1 ≠ k)).lookup j = l.lookup j := by
  induction l with
  | nil => rfl
  | cons e l ih =>
    obtain ⟨i, v⟩ := e
    by_cases hi : i = k
    · have hji : (j == i) = false := by
        rw [beq_eq_false_iff_ne, hi]
        exact hj
      rw [List.filter_cons_of_neg (by simpa using hi), List.lookup_cons, hji, ih]
    · rw [List.filter_cons_of_pos (by simpa using hi), List.lookup_cons, List.lookup_cons, ih]

theorem rawget_insert_self (t : Table) (hk : k.keyable = true) (hv : v ≠ .nil) :
    (t.insert k v hk hv).rawget k = v := by
  have hnone : (t.without k).lookup k = none := by
    rw [List.lookup_eq_none_iff]
    intro e he
    have hne : e.1 ≠ k := by simpa using (List.mem_filter.mp he).2
    simpa using hne.symm
  simp [rawget, insert, List.lookup_append, hnone]

theorem rawget_insert_of_ne (t : Table) (hk : k.keyable = true) (hv : v ≠ .nil) {j : Value}
    (hj : j ≠ k) : (t.insert k v hk hv).rawget j = t.rawget j := by
  have hlast : [(k, v)].lookup j = none := by simp [List.lookup_cons, beq_eq_false_iff_ne.mpr hj]
  rw [rawget, rawget, insert, List.lookup_append, hlast, Option.or_none, without,
    lookup_filter_ne hj]

end Table

/-! ## Allocation -/

theorem newCells_nodup (al : Allocator) (n : ℕ) (h : Heap) :
    (newCells al n h).1.Nodup ∧ ∀ x ∈ (newCells al n h).1, ¬ h.Live x := by
  induction n generalizing h with
  | zero => simp [newCells]
  | succ n ih =>
    obtain ⟨hnd, hfresh⟩ := ih ((al.next h, .cell .nil) :: h)
    refine ⟨List.nodup_cons.mpr ⟨fun hmem => hfresh _ hmem ?_, hnd⟩, ?_⟩
    · simp [Heap.Live]
    · intro x hx
      rcases List.mem_cons.mp hx with rfl | hx
      · exact al.not_live h
      · intro hlive
        refine hfresh x hx ?_
        rw [Heap.Live, lookup_cons_ne (Allocator.ne_next hlive)]
        exact hlive

/-- The new cells hold nil, and nothing else changes. -/
theorem newCells_lookup (al : Allocator) (n : ℕ) (h : Heap) (x : Addr) :
    (newCells al n h).2.lookup x =
      if x ∈ (newCells al n h).1 then some (.cell .nil) else h.lookup x := by
  induction n generalizing h with
  | zero => simp [newCells]
  | succ n ih =>
    rw [newCells]
    simp only [ih ((al.next h, .cell .nil) :: h), List.mem_cons]
    by_cases hmem : x ∈ (newCells al n ((al.next h, .cell .nil) :: h)).1
    · simp [hmem]
    · by_cases hx : x = al.next h
      · subst hx; simp [hmem]
      · simp [hmem, hx, lookup_cons_ne hx]

/-- The closure `luaL_loadbuffer` leaves: the dumped prototype over
distinct fresh cells, itself at a fresh address. -/
theorem loadbuffer_spec (al : Allocator) (p : Proto) (h : Heap) :
    ∃ c : Closure, (loadbuffer al p h).2.lookup (loadbuffer al p h).1 = some (.closure c) ∧
      c.proto = p ∧ c.uvs.Nodup ∧ ¬ h.Live (loadbuffer al p h).1 ∧
      (loadbuffer al p h).1 ∉ c.uvs ∧
      (∀ x ∈ c.uvs, ¬ h.Live x ∧ (loadbuffer al p h).2.lookup x = some (.cell .nil)) ∧
      ∀ x, h.Live x → (loadbuffer al p h).2.lookup x = h.lookup x := by
  obtain ⟨hnd, hfresh⟩ := newCells_nodup al p.sizeuv h
  have hlook := newCells_lookup al p.sizeuv h
  have hf := al.not_live (newCells al p.sizeuv h).2
  have hnot : al.next (newCells al p.sizeuv h).2 ∉ (newCells al p.sizeuv h).1 := by
    intro hmem
    refine hf ?_
    rw [Heap.Live, hlook, if_pos hmem]; simp
  refine ⟨⟨p, (newCells al p.sizeuv h).1, newCells_length al p.sizeuv h⟩, by simp [loadbuffer],
    rfl, hnd, ?_, hnot, ?_, ?_⟩
  · intro hlive
    refine hf ?_
    rw [Heap.Live, hlook, if_neg hnot]
    exact hlive
  · intro x hx
    refine ⟨hfresh x hx, ?_⟩
    have hne : x ≠ al.next (newCells al p.sizeuv h).2 := fun heq => hnot (heq ▸ hx)
    rw [loadbuffer, lookup_cons_ne hne, hlook, if_pos hx]
  · intro x hx
    have hmem : x ∉ (newCells al p.sizeuv h).1 := fun hmem => hfresh x hmem hx
    have hne : x ≠ al.next (newCells al p.sizeuv h).2 := by
      rintro rfl
      refine hf ?_
      rw [Heap.Live, hlook, if_neg hmem]
      exact hx
    rw [loadbuffer, lookup_cons_ne hne, hlook, if_neg hmem]

/-! ## A heap only grows -/

namespace Heap

variable {h' : Heap} {n m : ℕ} {k v : Value} {f g : Addr}

/-- What is in use stays in use. -/
theorem Live.of_suffix (hx : h.Live x) (hs : h <:+ h') : h'.Live x := by
  obtain ⟨l, rfl⟩ := hs
  intro hnone
  rw [List.lookup_append, Option.or_eq_none_iff] at hnone
  exact hx hnone.2

theorem setupvalue_suffix (hset : h.setupvalue f n v = some h') : h <:+ h' := by
  obtain ⟨x, -, rfl⟩ := Option.map_eq_some_iff.mp hset
  exact List.suffix_cons _ _

theorem upvaluejoin_suffix (hjoin : h.upvaluejoin f n g m = some h') : h <:+ h' := by
  unfold upvaluejoin at hjoin
  split at hjoin
  · cases hjoin; exact List.suffix_cons _ _
  · cases hjoin

theorem rawset_suffix (hset : h.rawset a k v = some h') : h <:+ h' := by
  unfold rawset at hset
  split at hset
  · obtain ⟨t', -, rfl⟩ := Option.map_eq_some_iff.mp hset
    exact List.suffix_cons _ _
  · cases hset

end Heap

theorem newCells_suffix (al : Allocator) (n : ℕ) (h : Heap) : h <:+ (newCells al n h).2 := by
  induction n generalizing h with
  | zero => exact List.suffix_refl h
  | succ n ih => exact (List.suffix_cons _ _).trans (ih _)

theorem loadbuffer_suffix (al : Allocator) (p : Proto) (h : Heap) :
    h <:+ (loadbuffer al p h).2 :=
  (newCells_suffix al p.sizeuv h).trans (List.suffix_cons _ _)

end Lua

end Rushit
