import Rushit.Percentiles.Model
/-!
# Percentiles that are printed and parsed

The decimal numbers of a list, separated by commas, set what is in the
list (`parse_joined`), and what `print_percentiles` prints is such a
list, with its last comma taken away. It prints at most 10 numbers of one
digit, 90 of two and one of three, which fits.
-/

namespace Rushit

namespace Percentiles

open CString

variable {strerror : ℤ → String} {chosen : Chosen} {logged : List String} {vals : List (Fin 101)}
variable {v : Fin 101} {s : List UInt8} {n fuel : ℕ}

/-- The numbers of a list in decimal, separated by commas. -/
def joined (vals : List (Fin 101)) : List UInt8 :=
  [comma].intercalate (vals.map fun v : Fin 101 => decimal v)

/-- What `chosen` is after the numbers of a list. -/
def choose (chosen : Chosen) (vals : List (Fin 101)) : Chosen :=
  vals.foldl (fun chosen v => Function.update chosen v true) chosen

def chosenText (v : Fin 101) : String := toString (v : ℤ) ++ " percentile is chosen"

theorem choose_iff (chosen : Chosen) (vals : List (Fin 101)) (i : Fin 101) :
    choose chosen vals i = true ↔ chosen i = true ∨ i ∈ vals := by
  unfold choose
  induction vals generalizing chosen with
  | nil => simp
  | cons v vals ih =>
    rw [List.foldl_cons, ih, List.mem_cons]
    by_cases hi : i = v
    · subst hi
      simp
    · simp [hi]

theorem joined_cons (v : Fin 101) (hne : vals ≠ []) :
    joined (v :: vals) = decimal v ++ comma :: joined vals := by
  unfold joined
  rw [List.map_cons, List.intercalate_cons_of_ne_nil (by simpa using hne), List.append_assoc]
  rfl

/-! ## Parsing a list -/

/-- One number that is a percentile, and what follows it. -/
theorem parseTurn_decimal (v : Fin 101) {c : UInt8} (hc : isdigit c = false) (chosen : Chosen)
    (logged : List String) :
    parseTurn strerror (decimal v ++ c :: s) chosen logged =
      if c = 0 then .stop (.done (Function.update chosen v true) (logged ++ [chosenText v]))
      else .next s (Function.update chosen v true) (logged ++ [chosenText v]) := by
  have hv := v.isLt
  have hlong : ((v : ℕ) : ℤ) ≤ longMax := by
    unfold longMax
    omega
  have herror : ¬ ((0 : ℤ) = erange ∧ (((v : ℕ) : ℤ) = longMax ∨ ((v : ℕ) : ℤ) = longMin) ∨
      (0 : ℤ) ≠ 0 ∧ ((v : ℕ) : ℤ) = 0) := by
    rintro (⟨h, -⟩ | ⟨h, -⟩)
    · exact absurd h (by decide)
    · exact h rfl
  have hmoved : c :: s ≠ decimal v ++ c :: s := fun h => by
    have hlen := congrArg List.length h
    have hpos : (decimal v).length ≠ 0 := by
      unfold decimal
      rw [List.length_map]
      exact Nat.length_toDigits_pos.ne'
    rw [List.length_append] at hlen
    omega
  have hindex : (⟨((v : ℕ) : ℤ).toNat, by omega⟩ : Fin 101) = v := Fin.ext (Int.toNat_natCast _)
  unfold parseTurn
  rw [strtol_decimal hlong hc]
  dsimp only
  rw [if_neg herror, if_neg hmoved, if_neg (by omega), dif_pos (by omega), hindex]
  rfl

/-- **A list of percentiles is parsed**: each is chosen, and it is logged
that it is. -/
theorem parse_joined (vals : List (Fin 101)) (hfuel : vals.length < fuel) (chosen : Chosen)
    (logged : List String) :
    parse strerror fuel (joined vals ++ [0]) chosen logged =
      .done (choose chosen vals) (logged ++ vals.map chosenText) := by
  induction vals generalizing fuel chosen logged with
  | nil =>
    obtain ⟨fuel, rfl⟩ := Nat.exists_eq_add_one.mpr hfuel
    rw [List.map_nil, List.append_nil]
    rfl
  | cons v vals ih =>
    obtain ⟨fuel, rfl⟩ := Nat.exists_eq_add_one.mpr (Nat.zero_lt_of_lt hfuel)
    cases hvals : vals with
    | nil =>
      have hjoined : joined [v] ++ [0] = decimal v ++ 0 :: [] := by
        unfold joined
        rw [List.map_singleton, List.intercalate_singleton]
      rw [parse, hjoined, parseTurn_decimal v zero_not_isdigit]
      rfl
    | cons w rest =>
      rw [← hvals]
      have hne : vals ≠ [] := by
        rw [hvals]
        exact List.cons_ne_nil _ _
      rw [parse, joined_cons v hne, List.append_assoc, List.cons_append,
        parseTurn_decimal v (by decide), if_neg (by decide)]
      dsimp only
      rw [ih (Nat.lt_of_succ_lt_succ hfuel), List.map_cons, List.append_assoc]
      rfl

/-! ## Printing what is chosen -/

/-- What a percentile takes in `s`, with its comma. -/
def cost (v : Fin 101) : ℕ := (decimal v).length + 1

/-- The percentiles that are chosen, in the order in which they are
printed. -/
def chosenOf (chosen : Chosen) : List (Fin 101) := (List.finRange 101).filter chosen

/-- Numbers with a comma after each. -/
def withCommas (vals : List (Fin 101)) : List UInt8 :=
  vals.flatMap fun v : Fin 101 => decimal v ++ [comma]

theorem cost_le (v : Fin 101) : cost v ≤ 4 := by
  have hdigits : (Nat.toDigits 10 v).length ≤ 3 :=
    (Nat.length_toDigits_le_iff (by decide) (by decide)).mpr (v.isLt.trans (by decide))
  unfold cost decimal
  rw [List.length_map]
  omega

/-- All of them fit. -/
theorem cost_all : ((List.finRange 101).map cost).sum + 1 ≤ textSize := by
  decide

theorem withCommas_cons (v : Fin 101) (vals : List (Fin 101)) :
    withCommas (v :: vals) = decimal v ++ [comma] ++ withCommas vals := List.flatMap_cons

theorem withCommas_eq (hne : vals ≠ []) : withCommas vals = joined vals ++ [comma] := by
  induction vals with
  | nil => exact absurd rfl hne
  | cons v vals ih =>
    rw [withCommas_cons]
    cases hvals : vals with
    | nil =>
      unfold joined
      rw [List.map_singleton, List.intercalate_singleton]
      exact List.append_nil _
    | cons w rest =>
      rw [← hvals]
      have hne : vals ≠ [] := by
        rw [hvals]
        exact List.cons_ne_nil _ _
      rw [ih hne, joined_cons v hne, List.append_assoc, List.append_assoc]
      rfl

/-- **The loop prints what is chosen**, and all of it fits, where there
is room for all that it may come to. -/
theorem foldlM_printStep (chosen : Chosen) (s : List UInt8) (l : List (Fin 101))
    (hroom : s.length + (l.map cost).sum + 1 ≤ textSize) :
    l.foldlM (printStep chosen) s = some (s ++ withCommas (l.filter chosen)) ∧
      (s ++ withCommas (l.filter chosen)).length < textSize := by
  induction l generalizing s with
  | nil =>
    have hnone : withCommas ([].filter chosen) = [] := rfl
    rw [hnone, List.append_nil]
    exact ⟨rfl, hroom⟩
  | cons v l ih =>
    rw [List.map_cons, List.sum_cons] at hroom
    have hbuf := cost_le v
    have hlen : (decimal v ++ [comma]).length = cost v := by
      rw [List.length_append]
      rfl
    rw [List.foldlM_cons, printStep]
    by_cases hv : chosen v = true
    · have hfits : ¬ bufSize < (decimal v ++ [comma]).length + 1 := by
        unfold bufSize
        omega
      have hs : (s ++ (decimal v ++ [comma])).length + (l.map cost).sum + 1 ≤ textSize := by
        rw [List.length_append]
        omega
      obtain ⟨hloop, hlt⟩ := ih _ hs
      have hsplit : s ++ withCommas (v :: l.filter chosen) =
          s ++ (decimal v ++ [comma]) ++ withCommas (l.filter chosen) := by
        simp only [withCommas_cons, List.append_assoc]
      rw [if_pos hv]
      dsimp only
      rw [if_neg hfits, if_neg (by omega), Option.bind_eq_bind, Option.bind_some,
        List.filter_cons_of_pos hv, hsplit]
      exact ⟨hloop, hlt⟩
    · rw [if_neg hv, Option.bind_eq_bind, Option.bind_some, List.filter_cons_of_neg hv]
      exact ih s (by omega)

/-- **What is printed** is the list of what is chosen; it fits `s` with
its NUL. -/
theorem printPercentiles_eq (chosen : Chosen) :
    printPercentiles chosen = some (joined (chosenOf chosen)) ∧
      (joined (chosenOf chosen)).length < textSize := by
  obtain ⟨hloop, hlt⟩ := foldlM_printStep chosen [] (List.finRange 101) (by
    rw [List.length_nil, Nat.zero_add]
    exact cost_all)
  rw [List.nil_append] at hloop hlt
  unfold printPercentiles
  rw [hloop, Option.map_some]
  by_cases hne : chosenOf chosen = []
  · have hnone : (List.finRange 101).filter chosen = [] := hne
    rw [hne, hnone]
    exact ⟨rfl, by decide⟩
  · have hcommas : withCommas ((List.finRange 101).filter chosen) =
        joined (chosenOf chosen) ++ [comma] := withCommas_eq hne
    rw [hcommas, List.length_append] at hlt
    rw [hcommas, if_pos (by rw [List.length_append]; exact Nat.succ_pos _), List.dropLast_concat]
    exact ⟨rfl, Nat.lt_of_succ_lt hlt⟩

/-- No character of a number is a NUL. -/
theorem zero_notMem_decimal (n : ℕ) : 0 ∉ decimal n := by
  intro h
  obtain ⟨d, hd, hzero⟩ := List.mem_map.mp h
  obtain ⟨hval, hge, -⟩ := toNat_toUInt8
    (Nat.isDigit_of_mem_toDigits (by decide) (by decide) hd)
  rw [hzero] at hval
  have hnul : (0 : UInt8).toNat = 0 := rfl
  omega

theorem zero_notMem_joined (vals : List (Fin 101)) : 0 ∉ joined vals := by
  by_cases hne : vals = []
  · rw [hne]
    exact List.not_mem_nil
  · intro h
    have hmem : (0 : UInt8) ∈ withCommas vals := by
      rw [withCommas_eq hne]
      exact List.mem_append_left _ h
    obtain ⟨v, -, hv⟩ := List.mem_flatMap.mp hmem
    rcases List.mem_append.mp hv with hv | hv
    · exact zero_notMem_decimal v hv
    · exact absurd (List.mem_singleton.mp hv) (by decide)

/-- What is printed is chosen again. -/
theorem choose_chosenOf (chosen : Chosen) : choose (fun _ => false) (chosenOf chosen) = chosen := by
  funext i
  rw [Bool.eq_iff_iff, choose_iff, chosenOf, List.mem_filter]
  simp

/-- **A list is parsed** with the fuel of `parse_percentiles`, which is as
good as any that is enough. -/
theorem parsePercentiles_joined (strerror : ℤ → String) (vals : List (Fin 101))
    (chosen : Chosen) :
    parsePercentiles strerror (joined vals ++ [0]) chosen =
      .done (choose chosen vals) (vals.map chosenText) := by
  have hwithin : Within (joined vals ++ [0]) :=
    CStr.within ⟨joined vals, zero_notMem_joined vals⟩
  obtain ⟨r, -, hr⟩ := parse_ends strerror hwithin chosen []
  have hparse : parsePercentiles strerror (joined vals ++ [0]) chosen = r := hr _ le_rfl
  have hmore := hr ((joined vals ++ [0]).length + (vals.length + 1)) (Nat.le_add_right _ _)
  rw [hparse, ← hmore, parse_joined vals (by omega)]
  rfl

/-- **Percentiles are parsed and printed both ways.** A list of them in
decimal chooses what is in it besides what is chosen already; and what is
chosen is printed, within 400 bytes, as a text that chooses it again. -/
theorem percentiles_round_trip (strerror : ℤ → String) :
    (∀ (vals : List (Fin 101)) (chosen : Chosen), ∃ chosen' logged,
      parsePercentiles strerror (joined vals ++ [0]) chosen = .done chosen' logged ∧
        ∀ i, chosen' i = true ↔ chosen i = true ∨ i ∈ vals) ∧
    ∀ chosen : Chosen, ∃ s, printPercentiles chosen = some s ∧ s.length < textSize ∧ 0 ∉ s ∧
      ∃ logged, parsePercentiles strerror (s ++ [0]) (fun _ => false) = .done chosen logged := by
  refine ⟨fun vals chosen => ?_, fun chosen => ?_⟩
  · exact ⟨_, _, parsePercentiles_joined strerror vals chosen, choose_iff chosen vals⟩
  · obtain ⟨hprint, hlt⟩ := printPercentiles_eq chosen
    have hparse := parsePercentiles_joined strerror (chosenOf chosen) fun _ => false
    rw [choose_chosenOf] at hparse
    exact ⟨_, hprint, hlt, zero_notMem_joined _, _, hparse⟩

end Percentiles

end Rushit
