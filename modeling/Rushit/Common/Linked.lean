import Rushit.Common.Ram
/-!
# Linked lists in memory

`Linked` says that a list is in memory as nodes that point to each
other. `forEach` is the loop over such a list that reads the pointer to
the next node before its body, so that the body may free the node, and
`lookup` is the search for a key. Their rules say what they do in terms
of the list.
-/

namespace Rushit

namespace Ram

variable {Cell α β σ ε : Type}

/-- The loop over a list. -/
def forEach (next : Cell → Option (Option ℕ)) (ram : σ → Ram Cell)
    (body : ℕ → σ → Except (Stop ε) σ) : ℕ → Option ℕ → σ → Except (Stop ε) σ
  | _, none, s => pure s
  -- out of fuel, which the number of nodes rules out
  | 0, some _, _ => .error (.memory .dead)
  | fuel + 1, some a, s => do
    let n ← access ((ram s).read next a)
    let s ← body a s
    forEach next ram body fuel n s

/-- The first node with the key, as the loop that returns from its body
finds it. -/
def lookup [DecidableEq α] (node : Cell → Option (Option ℕ × α × β)) (key : α) (m : Ram Cell) :
    ℕ → Option ℕ → Except Fault (Option β)
  | _, none => pure none
  | 0, some _ => .error .dead
  | fuel + 1, some a => do
    let n ← m.read node a
    if key = n.2.1 then pure (some n.2.2) else lookup node key m fuel n.1

/-- **A list in memory.** `item a next x l` says that the node at `a`
with the pointer `next` is for `x`, and has the cells `l`. -/
def Linked (item : ℕ → Option ℕ → α → List (Σ _ : ℕ, Cell) → Prop) :
    List α → Option ℕ → List (Σ _ : ℕ, Cell) → Prop
  | [], p, l => p = none ∧ l = []
  | x :: xs, p, l => ∃ a next lx lxs, p = some a ∧ item a next x lx ∧ Linked item xs next lxs ∧
      l = lx ++ lxs

variable {item : ℕ → Option ℕ → α → List (Σ _ : ℕ, Cell) → Prop} {x : α} {xs : List α}
variable {p next : Option ℕ} {l k lx lxs : List (Σ _ : ℕ, Cell)} {a fuel : ℕ} {m : Ram Cell}

theorem Linked.nil : Linked item ([] : List α) none [] := ⟨rfl, rfl⟩

/-- One more node in front. -/
theorem Linked.cons (hx : item a next x lx) (h : Linked item xs next lxs) :
    Linked item (x :: xs) (some a) (lx ++ lxs) := ⟨a, next, lx, lxs, rfl, hx, h, rfl⟩

section Free

variable {kind : Cell → Option (Option ℕ)} {body : ℕ → Ram Cell → Except (Stop ε) (Ram Cell)}

/-- **A loop that frees each node** leaves what there is besides. -/
theorem Linked.free
    (hnode : ∀ a next x l, item a next x l → ∃ c, ⟨a, c⟩ ∈ l ∧ kind c = some next)
    (hbody : ∀ a next x l k m, item a next x l → m.Holds (l ++ k) →
      Returns (body a m) fun m' => m'.Holds k)
    (h : Linked item xs p l) (hm : m.Holds (l ++ k)) (hfuel : l.length ≤ fuel) :
    Returns (forEach kind id body fuel p m) fun m' => m'.Holds k := by
  induction xs generalizing p l fuel m with
  | nil =>
    obtain ⟨rfl, rfl⟩ := h
    cases fuel <;> exact .pure hm
  | cons x xs ih =>
    obtain ⟨a, next, lx, lxs, rfl, hx, hxs, rfl⟩ := h
    obtain ⟨c, hc, hkind⟩ := hnode a next x lx hx
    have hpos : 0 < lx.length := List.length_pos_of_mem hc
    rw [List.length_append] at hfuel
    obtain ⟨fuel, rfl⟩ := Nat.exists_eq_succ_of_ne_zero (n := fuel) (by omega)
    rw [List.append_assoc] at hm
    obtain ⟨n, hn, rfl⟩ := Returns.access (ε := ε)
      (.of_eq (P := (· = next)) (hm.read (List.mem_append_left _ hc) hkind) rfl)
    refine .of_bind hn ((hbody a n x lx _ m hx hm).bind fun m' hm' => ?_)
    exact ih hxs hm' (by omega)

/-- A list of single cells. -/
theorem Linked.free_nodes
    (hnode : ∀ a next x l, item a next x l → ∃ c, l = [⟨a, c⟩] ∧ kind c = some next)
    (h : Linked item xs p l) (hm : m.Holds (l ++ k)) (hfuel : l.length ≤ fuel) :
    Returns (forEach (ε := ε) kind id (fun a m => access (m.free a)) fuel p m)
      fun m' => m'.Holds k := by
  refine Linked.free ?_ ?_ h hm hfuel
  · rintro a next x l hx
    obtain ⟨c, rfl, hkind⟩ := hnode a next x l hx
    exact ⟨c, List.mem_cons_self, hkind⟩
  · rintro a next x l k m hx hm
    obtain ⟨c, rfl, -⟩ := hnode a next x l hx
    exact (Holds.free (l := []) hm).access

end Free

section Loop

variable {δ : Type} {kind : Cell → Option (Option ℕ)} {ram : σ → Ram Cell}
variable {body : ℕ → σ → Except (Stop ε) σ} {f : δ → α → Except ε δ} {I : δ → σ → Prop}

/-- **A loop that leaves the list as it is** does for each of its
elements what `f` does. -/
theorem Linked.forEach {v : δ} {s : σ}
    (hnode : ∀ a next x l, item a next x l → ∃ c, ⟨a, c⟩ ∈ l ∧ kind c = some next)
    (hread : ∀ v s, I v s → ∃ k, l ⊆ k ∧ (ram s).Holds k)
    (hbody : ∀ a next x lx v s, item a next x lx → lx ⊆ l → I v s →
      Mirrors (f v x) (body a s) I)
    (h : Linked item xs p lxs) (hsub : lxs ⊆ l) (hfuel : lxs.length ≤ fuel) (hI : I v s) :
    Mirrors (xs.foldlM f v) (forEach kind ram body fuel p s) I := by
  induction xs generalizing p lxs fuel v s with
  | nil =>
    obtain ⟨rfl, rfl⟩ := h
    cases fuel <;> exact .pure hI
  | cons x xs ih =>
    obtain ⟨a, next, lx, lys, rfl, hx, hxs, rfl⟩ := h
    obtain ⟨c, hc, hkind⟩ := hnode a next x lx hx
    have hpos : 0 < lx.length := List.length_pos_of_mem hc
    rw [List.length_append] at hfuel
    obtain ⟨fuel, rfl⟩ := Nat.exists_eq_succ_of_ne_zero (n := fuel) (by omega)
    obtain ⟨k, hl, hk⟩ := hread v s hI
    have hmem := hl (hsub (List.mem_append_left _ hc))
    rw [List.foldlM_cons]
    refine .read (hk.read hmem hkind) (.bind
      (hbody a next x lx v s hx (fun y hy => hsub (List.mem_append_left _ hy)) hI) ?_)
    intro v' s' hI'
    exact ih hxs (fun y hy => hsub (List.mem_append_right _ hy)) (by omega) hI'

end Loop

section Lookup

variable {γ : Type} [DecidableEq α] {node : Cell → Option (Option ℕ × α × β)}
variable {pairs : List (α × γ)} {pair : ℕ → Option ℕ → α × γ → List (Σ _ : ℕ, Cell) → Prop}
variable {R : γ → β → List (Σ _ : ℕ, Cell) → Prop}

/-- **The search finds what `List.lookup` finds.** -/
theorem Linked.lookup {key : α}
    (hnode : ∀ a next x l, pair a next x l →
      ∃ c b, ⟨a, c⟩ ∈ l ∧ node c = some (next, x.1, b) ∧ R x.2 b l)
    (h : Linked pair pairs p l) (hm : m.Holds (l ++ k)) (hfuel : l.length ≤ fuel) :
    Returns (lookup node key m fuel p) fun r =>
      (pairs.lookup key = none ∧ r = none) ∨
        ∃ y b lx, pairs.lookup key = some y ∧ r = some b ∧ R y b lx ∧ lx ⊆ l := by
  induction pairs generalizing p l k fuel with
  | nil =>
    obtain ⟨rfl, rfl⟩ := h
    cases fuel <;> exact .pure (.inl ⟨rfl, rfl⟩)
  | cons x pairs ih =>
    obtain ⟨a, next, lx, lxs, rfl, hx, hxs, rfl⟩ := h
    obtain ⟨c, b, hc, hkind, hR⟩ := hnode a next x lx hx
    have hpos : 0 < lx.length := List.length_pos_of_mem hc
    rw [List.length_append] at hfuel
    obtain ⟨fuel, rfl⟩ := Nat.exists_eq_succ_of_ne_zero (n := fuel) (by omega)
    refine .of_bind (hm.read (List.mem_append_left _ (List.mem_append_left _ hc)) hkind) ?_
    rw [List.lookup_cons]
    by_cases hkey : key = x.1
    · rw [if_pos hkey, hkey, beq_self_eq_true]
      exact .pure (.inr ⟨x.2, b, lx, rfl, rfl, hR, List.subset_append_left _ _⟩)
    · rw [if_neg hkey, beq_eq_false_iff_ne.mpr hkey]
      have hrest : m.Holds (lxs ++ (lx ++ k)) := by
        rw [List.append_assoc] at hm
        exact hm.perm (List.perm_append_comm_assoc _ _ _)
      refine (ih hxs hrest (by omega)).mono fun r hr => hr.imp_right ?_
      rintro ⟨y, b, l, hy, hr, hR, hl⟩
      exact ⟨y, b, l, hy, hr, hR, fun z hz => List.mem_append_right _ (hl hz)⟩

end Lookup

end Ram

end Rushit
