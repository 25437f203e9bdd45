import Mathlib.Data.List.AList
import Mathlib.Data.List.MinMax
import Mathlib.Data.Nat.Notation
/-!
# Memory that is allocated and freed

Cells at addresses. What is freed may be handed out again, so that a
pointer can outlive what it pointed to; an access to what is not there,
or is of another kind, is a fault, and so is a second `free`.

`Holds` says what is allocated, cell for cell and up to order: each
operation replaces the cell it is applied to and leaves the rest, and
what is left at the end is what was not freed. `Returns` is how the
rules for single operations compose to one for a function.
-/

namespace Rushit

namespace Ram

/-- What a program must not do. -/
inductive Fault
  /-- A null pointer is followed. -/
  | null
  /-- Memory is used that is not allocated, or not for this. -/
  | dead
  deriving DecidableEq

end Ram

/-- What is allocated, by address. -/
structure Ram (Cell : Type) where
  cells : AList fun _ : ℕ => Cell

namespace Ram

variable {Cell α β : Type} {m m' : Ram Cell} {a : ℕ} {c d : Cell} {kind : Cell → Option β} {b : β}
variable {l l' k : List (Σ _ : ℕ, Cell)}

/-- Before anything is allocated. -/
def empty : Ram Cell := ⟨∅⟩

/-- A pointer that is followed. -/
def deref : Option ℕ → Except Fault ℕ
  | none => .error .null
  | some a => .ok a

/-- What is at an address, where it is of the kind. -/
def read (m : Ram Cell) (kind : Cell → Option β) (a : ℕ) : Except Fault β :=
  match (m.cells.lookup a).bind kind with
  | some b => .ok b
  | none => .error .dead

def write (m : Ram Cell) (a : ℕ) (c : Cell) : Except Fault (Ram Cell) :=
  if a ∈ m.cells then .ok ⟨m.cells.insert a c⟩ else .error .dead

def free (m : Ram Cell) (a : ℕ) : Except Fault (Ram Cell) :=
  if a ∈ m.cells then .ok ⟨m.cells.erase a⟩ else .error .dead

/-- A part of what is at an address is overwritten. -/
def modify (m : Ram Cell) (kind : Cell → Option β) (mk : β → Cell) (a : ℕ) (u : β → β) :
    Except Fault (Ram Cell) := do
  let b ← m.read kind a
  m.write a (mk (u b))

/-- How many cells are allocated. -/
def size (m : Ram Cell) : ℕ := m.cells.entries.length

/-- A policy of handing out addresses: any that are not in use. -/
structure Malloc (Cell : Type) where
  next : Ram Cell → ℕ
  next_notMem : ∀ m, next m ∉ m.cells

/-- A new cell, and its address. -/
def malloc (al : Malloc Cell) (c : Cell) (m : Ram Cell) : ℕ × Ram Cell :=
  (al.next m, ⟨m.cells.insert (al.next m) c⟩)

/-- The policy that hands out the address above all in use. -/
def Malloc.above (Cell : Type) : Malloc Cell where
  next m := m.cells.keys.foldr max 0 + 1
  next_notMem m hm := by
    have hle := List.le_max_of_le' 0 (AList.mem_keys.mp hm) le_rfl
    omega

/-! ## What is allocated -/

/-- **What exactly is allocated.** -/
def Holds (m : Ram Cell) (l : List (Σ _ : ℕ, Cell)) : Prop := m.cells.entries.Perm l

theorem Holds.empty : (empty : Ram Cell).Holds [] := .nil

theorem Holds.perm (h : m.Holds l) (hl : l.Perm l') : m.Holds l' := h.trans hl

/-- No two cells have one address. -/
theorem Holds.nodup (h : m.Holds l) : l.NodupKeys := (List.perm_nodupKeys h).mp m.cells.nodupKeys

/-- What is there takes no more than all there is. -/
theorem Holds.length_le (h : m.Holds (l ++ k)) : l.length ≤ m.size := by
  have hlength := List.Perm.length_eq h
  rw [List.length_append] at hlength
  exact Nat.le_of_add_right_le hlength.ge

theorem Holds.lookup (h : m.Holds l) (hc : ⟨a, c⟩ ∈ l) : m.cells.lookup a = some c :=
  AList.mem_lookup_iff.mpr (h.mem_iff.mpr hc)

theorem Holds.mem (h : m.Holds l) (hc : ⟨a, c⟩ ∈ l) : a ∈ m.cells := by
  rw [← AList.lookup_isSome, h.lookup hc]
  rfl

theorem Holds.read (h : m.Holds l) (hc : ⟨a, c⟩ ∈ l) (hb : kind c = some b) :
    m.read kind a = .ok b := by
  simp [Ram.read, h.lookup hc, hb]

/-- One address has one cell. -/
theorem Holds.eq_of_mem (h : m.Holds l) (hc : ⟨a, c⟩ ∈ l) (hd : ⟨a, d⟩ ∈ l) : c = d :=
  Option.some.inj ((h.lookup hc).symm.trans (h.lookup hd))

/-- What is left when a cell is taken out. -/
theorem Holds.kerase (h : m.Holds (⟨a, c⟩ :: l)) : (m.cells.entries.kerase a).Perm l := by
  have herase := List.Perm.kerase (a := a) m.cells.nodupKeys h
  rwa [List.kerase_cons_eq (β := fun _ => Cell) (a := a) (s := ⟨a, c⟩) rfl] at herase

/-- **An allocation.** -/
theorem Holds.malloc (h : m.Holds l) (al : Malloc Cell) (c : Cell) :
    (Ram.malloc al c m).2.Holds (⟨al.next m, c⟩ :: l) := by
  unfold Holds Ram.malloc
  rw [AList.entries_insert_of_notMem (al.next_notMem m)]
  exact h.cons _

/-- A new cell, and where it is. -/
theorem Holds.exists_malloc (h : m.Holds l) (al : Malloc Cell) (c : Cell) :
    ∃ a m', Ram.malloc al c m = (a, m') ∧ m'.Holds (⟨a, c⟩ :: l) := ⟨_, _, rfl, h.malloc al c⟩

/-! ## What a function returns -/

section Returns

variable {ε : Type} {x : Except ε α} {f : α → Except ε β} {P P' : α → Prop} {Q : β → Prop}

/-- The function returns, and what it returns is as `P` says. -/
def Returns (x : Except ε α) (P : α → Prop) : Prop := ∃ a, x = .ok a ∧ P a

theorem Returns.pure {a : α} (h : P a) : Returns (pure a : Except ε α) P := ⟨a, rfl, h⟩

theorem Returns.of_eq {a : α} (hx : x = .ok a) (h : P a) : Returns x P := ⟨a, hx, h⟩

theorem Returns.mono (h : Returns x P) (hP : ∀ a, P a → P' a) : Returns x P' :=
  h.imp fun a ha => ⟨ha.1, hP a ha.2⟩

/-- **One function after another.** -/
theorem Returns.bind (h : Returns x P) (hf : ∀ a, P a → Returns (f a) Q) :
    Returns (x >>= f) Q := by
  obtain ⟨a, rfl, ha⟩ := h
  exact hf a ha

theorem Returns.of_bind {a : α} (h : x = .ok a) (hf : Returns (f a) Q) : Returns (x >>= f) Q := by
  subst h
  exact hf

end Returns

/-- **A write**, to what is allocated. -/
theorem Holds.write (h : m.Holds (l ++ ⟨a, c⟩ :: k)) (d : Cell) :
    Returns (m.write a d) fun m' => m'.Holds (l ++ ⟨a, d⟩ :: k) := by
  have hfront := h.perm List.perm_middle
  refine .of_eq (if_pos (hfront.mem List.mem_cons_self)) ?_
  refine Holds.perm (l := ⟨a, d⟩ :: (l ++ k)) ?_ List.perm_middle.symm
  unfold Holds
  rw [AList.entries_insert]
  exact hfront.kerase.cons _

theorem Holds.modify {mk : β → Cell} (h : m.Holds (l ++ ⟨a, mk b⟩ :: k))
    (hb : kind (mk b) = some b) (u : β → β) :
    Returns (m.modify kind mk a u) fun m' => m'.Holds (l ++ ⟨a, mk (u b)⟩ :: k) :=
  .of_bind (h.read (List.mem_append_right _ List.mem_cons_self) hb) (h.write _)

/-- **A `free`**, of what is allocated. -/
theorem Holds.free (h : m.Holds (l ++ ⟨a, c⟩ :: k)) :
    Returns (m.free a) fun m' => m'.Holds (l ++ k) := by
  have hfront := h.perm List.perm_middle
  exact .of_eq (if_pos (hfront.mem List.mem_cons_self)) hfront.kerase

/-! ## Owners -/

/-- **One owner of several.** What `l` owns together is what one of them
owns and the rest, which stays the same when that one changes. -/
theorem exists_perm_flatMap_set {l : List α} {i : ℕ} {a : α} (F : α → List β)
    (h : l[i]? = some a) : ∃ rest, (l.flatMap F).Perm (F a ++ rest) ∧
      ∀ b, ((l.set i b).flatMap F).Perm (F b ++ rest) := by
  obtain ⟨hi, rfl⟩ := List.getElem?_eq_some_iff.mp h
  refine ⟨(l.take i).flatMap F ++ (l.drop (i + 1)).flatMap F, ?_, fun b => ?_⟩
  · have hl : l = l.take i ++ l[i] :: l.drop (i + 1) := by
      rw [← List.drop_eq_getElem_cons hi, List.take_append_drop]
    conv_lhs => rw [hl]
    rw [List.flatMap_append, List.flatMap_cons]
    exact List.perm_append_comm_assoc _ _ _
  · rw [List.set_eq_take_append_cons_drop, if_pos hi, List.flatMap_append, List.flatMap_cons]
    exact List.perm_append_comm_assoc _ _ _

/-- No two of them own an address. -/
theorem Holds.owner_eq {l : List α} {F : α → List (Σ _ : ℕ, Cell)} {rest : List (Σ _ : ℕ, Cell)}
    {x y : α} (h : m.Holds (l.flatMap F ++ rest)) (hx : x ∈ l) (hy : y ∈ l)
    (hc : ⟨a, c⟩ ∈ F x) (hd : ⟨a, d⟩ ∈ F y) : x = y := by
  by_contra hne
  have hkeys := h.nodup.sublist (List.sublist_append_left _ _)
  have hpair := (List.pairwise_flatMap.mp (List.nodupKeys_iff_pairwise.mp hkeys)).2
  have hsymm : Std.Symm fun x y : α => ∀ s ∈ F x, ∀ t ∈ F y, s.1 ≠ t.1 :=
    ⟨fun _ _ hab s hs t ht heq => hab t ht s hs heq.symm⟩
  exact hpair.forall hx hy hne _ hc _ hd rfl

/-! ## A program on values -/

section Mirrors

variable {ε : Type} {x : Except ε α} {f : α → Except ε β}

/-- How a program over memory ends early: with a fault, or for a reason
of its own. -/
inductive Stop (ε : Type)
  | memory (f : Fault)
  | other (e : ε)

/-- An access to memory. -/
def access : Except Fault α → Except (Stop ε) α
  | .ok a => .ok a
  | .error f => .error (.memory f)

/-- A part that is without memory. -/
def lift : Except ε α → Except (Stop ε) α
  | .ok a => .ok a
  | .error e => .error (.other e)

variable {γ δ : Type} {y : Except (Stop ε) γ} {g : γ → Except (Stop ε) δ}
variable {P P' : α → γ → Prop} {Q : β → δ → Prop}

/-- **The program over memory does what the one on values does**: it
returns where that returns, and ends early where that does and for the
same reason, so that it has no fault. -/
def Mirrors (x : Except ε α) (y : Except (Stop ε) γ) (P : α → γ → Prop) : Prop :=
  match x with
  | .ok a => Returns y (P a)
  | .error e => y = .error (.other e)

theorem Mirrors.pure {a : α} {c : γ} (h : P a c) :
    Mirrors (pure a : Except ε α) (pure c : Except (Stop ε) γ) P := Returns.pure h

theorem Mirrors.error {e : ε} :
    Mirrors (.error e : Except ε α) (.error (.other e) : Except (Stop ε) γ) P := rfl

theorem Mirrors.lift : Mirrors x (lift x) fun a c => c = a := by
  cases x with
  | ok a => exact .pure rfl
  | error e => exact .error

theorem Mirrors.mono (h : Mirrors x y P) (hP : ∀ a c, P a c → P' a c) : Mirrors x y P' := by
  cases x with
  | ok a => exact Returns.mono h (hP a)
  | error e => exact h

/-- **One function after another**, in both. -/
theorem Mirrors.bind (h : Mirrors x y P) (hf : ∀ a c, P a c → Mirrors (f a) (g c) Q) :
    Mirrors (x >>= f) (y >>= g) Q := by
  cases x with
  | ok a =>
    obtain ⟨c, rfl, hc⟩ := h
    exact hf a c hc
  | error e =>
    obtain rfl : y = .error (.other e) := h
    rfl

/-- What the program on values returns is packed up. -/
theorem Mirrors.then_pure {f : α → β} {Q : β → γ → Prop} (h : Mirrors x y fun a c => Q (f a) c) :
    Mirrors (x >>= fun a => Pure.pure (f a)) y Q := by
  cases x with
  | ok a => exact h
  | error e => exact h

/-- **A loop**, in both. -/
theorem Mirrors.foldlM {τ : Type} {xs : List τ} {f : α → τ → Except ε α}
    {g : γ → τ → Except (Stop ε) γ} {a : α} {c : γ}
    (hf : ∀ x ∈ xs, ∀ a c, P a c → Mirrors (f a x) (g c x) P) (h : P a c) :
    Mirrors (xs.foldlM f a) (xs.foldlM g c) P := by
  induction xs generalizing a c with
  | nil => exact .pure h
  | cons x xs ih =>
    rw [List.foldlM_cons, List.foldlM_cons]
    refine (hf x List.mem_cons_self a c h).bind fun a' c' h' => ?_
    exact ih (fun y hy => hf y (List.mem_cons_of_mem _ hy)) h'

theorem Mirrors.no_fault (h : Mirrors x y P) (f : Fault) : y ≠ .error (.memory f) := by
  rintro rfl
  cases x with
  | ok a =>
    obtain ⟨c, hc, -⟩ := h
    cases hc
  | error e => cases (h : Except.error (Stop.memory f) = .error (.other e))

variable {z : Except Fault β} {R : β → Prop} {h' : β → Except (Stop ε) γ} {S : γ → Prop}

theorem Returns.access (h : Returns z R) : Returns (access z : Except (Stop ε) β) R := by
  obtain ⟨b, rfl, hb⟩ := h
  exact ⟨b, rfl, hb⟩

/-- **An access**, and what follows it. -/
theorem Returns.of_access (h : Returns z R) (hg : ∀ b, R b → Returns (h' b) S) :
    Returns (Ram.access z >>= h') S := by
  obtain ⟨b, rfl, hb⟩ := h
  exact hg b hb

theorem Returns.of_read {b : β} (h : z = .ok b) (hg : Returns (h' b) S) :
    Returns (Ram.access z >>= h') S := by
  subst h
  exact hg

/-- A value that is read. -/
theorem Mirrors.read {b : β} (h : z = .ok b) (hg : Mirrors x (h' b) P) :
    Mirrors x (Ram.access z >>= h') P := by
  subst h
  exact hg

/-- A part that the program on values does not have. -/
theorem Mirrors.of_returns {y' : Except (Stop ε) δ} {R : δ → Prop} {g : δ → Except (Stop ε) γ}
    (h : Returns y' R) (hg : ∀ d, R d → Mirrors x (g d) P) : Mirrors x (y' >>= g) P := by
  obtain ⟨d, rfl, hd⟩ := h
  exact hg d hd

end Mirrors

end Ram

end Rushit
