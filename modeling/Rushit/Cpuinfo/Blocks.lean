import Mathlib.Data.Fintype.EquivFin
import Mathlib.Order.Fin.Basic
import Mathlib.Order.WellFounded
import Rushit.Cpuinfo.Scan
/-!
# Which blocks become entries

The text is made of blocks, one for each CPU. A value goes into the entry
whose index is the number of lines without a value that stand before it,
since nothing but such a line ends an entry. So `get_cpuinfo` returns the
blocks exactly where those lines and the blocks go together
(`blocks_read_iff`): a block without such a line after its keys runs into
the next one, and the last one is not counted.
-/

namespace Rushit

namespace Cpuinfo

open CString

/-- The keys that `get_cpuinfo` looks for. -/
inductive Field
  | processor
  | physicalId
  | siblings
  | coreId
  | cpuCores
  deriving DecidableEq

def Field.all : List Field := [.processor, .physicalId, .siblings, .coreId, .cpuCores]

def Field.key : Field → List UInt8
  | .processor => literal "processor"
  | .physicalId => literal "physical id"
  | .siblings => literal "siblings"
  | .coreId => literal "core id"
  | .cpuCores => literal "cpu cores"

def Field.get (cpu : Cpuinfo) : Field → ℤ
  | .processor => cpu.processor
  | .physicalId => cpu.physicalId
  | .siblings => cpu.siblings
  | .coreId => cpu.coreId
  | .cpuCores => cpu.cpuCores

/-- A line with the key of `field`, whose value is the number `v`. -/
structure Line.Gives (l : Line) (field : Field) (v : ℤ) : Prop where
  key : l.key = field.key
  int : -2147483648 ≤ v ∧ v ≤ 2147483647
  value : ∃ blanks, Blank blanks ∧ l.rest = blanks ++ decimalInt v

/-- A block of lines that has each of the keys once. -/
structure Block where
  lines : List Line
  values : Cpuinfo
  once : ∀ field : Field, ∃ before l after, lines = before ++ l :: after ∧
    l.Gives field (field.get values) ∧ ∀ l' ∈ before ++ after, l'.key ≠ field.key

/-- The block, each line with its newline. -/
def Block.text (b : Block) : List UInt8 := b.lines.flatMap fun l => l.text ++ [newline]

/-- The text of the blocks, each with the blank lines after it. -/
def fileText (blocks : List (Block × List UInt8)) : List UInt8 :=
  blocks.flatMap fun (b, gap) => b.text ++ gap

/-- How many of the lines have no value. -/
def emptyLines (ls : List Line) : ℕ := ls.countP fun l => l.rest = []

/-- How many lines without a value stand before the key, in its block. -/
def Block.emptyBefore (b : Block) (field : Field) : ℕ :=
  emptyLines (b.lines.takeWhile fun l => l.key ≠ field.key)

/-- How many lines without a value stand in the first `i` blocks. -/
def emptyAbove (blocks : List Block) (i : ℕ) : ℕ :=
  emptyLines ((blocks.take i).flatMap Block.lines)

/-- **The lines without a value go with the blocks**: exactly `i` of them
stand before each of the keys of block `i`, and there are as many as
blocks, or more where the array is full then. -/
structure Delimited (blocks : List Block) (maxCpus : ℕ) : Prop where
  keys : ∀ i b field, blocks[i]? = some b → emptyAbove blocks i + b.emptyBefore field = i
  count : min maxCpus (emptyAbove blocks blocks.length) = blocks.length

variable {field field' : Field} {l : Line} {ls before after : List Line} {b : Block}
  {blocks : List Block} {cpu : Cpuinfo} {s : ℕ × (ℕ → Cpuinfo)} {v old : ℤ} {maxCpus i j : ℕ}

/-! ## The five keys -/

theorem ext_get {c d : Cpuinfo} (h : ∀ field : Field, field.get c = field.get d) : c = d := by
  obtain ⟨p, ph, si, co, cc⟩ := c
  obtain ⟨p', ph', si', co', cc'⟩ := d
  obtain rfl : p = p' := h .processor
  obtain rfl : ph = ph' := h .physicalId
  obtain rfl : si = si' := h .siblings
  obtain rfl : co = co' := h .coreId
  obtain rfl : cc = cc' := h .cpuCores
  rfl

/-- The number of a line is read. -/
theorem sscanfInt_decimalInt {blanks : List UInt8} (hb : Blank blanks)
    (hv : -2147483648 ≤ v ∧ v ≤ 2147483647) :
    sscanfInt (blanks ++ decimalInt v) old = v := by
  have hzero : 0 ∉ blanks ++ decimalInt v := by
    simp only [List.mem_append, not_or]
    exact ⟨hb.notMem isspace_zero, notMem_decimalInt zero_not_isdigit (by decide) v⟩
  have hread := strtol_decimalInt (q := []) hb (v := v) (by unfold longMin; omega)
    (by unfold longMax; omega) zero_not_isdigit
  have hmoved : [0] ≠ blanks ++ (decimalInt v ++ [0]) := by
    intro h
    have hlen := congrArg List.length h
    have hpos := List.length_pos_iff.mpr (decimalInt_ne_nil v)
    simp only [List.length_append, List.length_cons, List.length_nil] at hlen
    omega
  have hint : toInt v = v := Int.bmod_eq_of_le (by omega) (by omega)
  rw [sscanfInt, text_of_notMem hzero, List.append_assoc, hread]
  dsimp only
  rw [if_neg hmoved, hint]

/-- A value is put where its key says. -/
theorem get_enterField_self (hkey : l.key = field.key) (value : List UInt8) :
    field.get (enterField cpu l.key value) = sscanfInt value (field.get cpu) := by
  rw [enterField, l.trim, hkey]
  cases field with
  | processor => rw [Field.key, if_pos rfl]; rfl
  | physicalId => rw [Field.key, if_neg (by decide), if_pos rfl]; rfl
  | siblings => rw [Field.key, if_neg (by decide), if_neg (by decide), if_pos rfl]; rfl
  | coreId =>
    rw [Field.key, if_neg (by decide), if_neg (by decide), if_neg (by decide), if_pos rfl]
    rfl
  | cpuCores =>
    rw [Field.key, if_neg (by decide), if_neg (by decide), if_neg (by decide),
      if_neg (by decide), if_pos rfl]
    rfl

/-- **And nowhere else.** -/
theorem get_enterField_of_ne (hkey : l.key ≠ field.key) (value : List UInt8) :
    field.get (enterField cpu l.key value) = field.get cpu := by
  rw [enterField, l.trim]
  split_ifs with h₁ h₂ h₃ h₄ h₅
  · cases field <;> first | rfl | exact absurd h₁ hkey
  · cases field <;> first | rfl | exact absurd h₂ hkey
  · cases field <;> first | rfl | exact absurd h₃ hkey
  · cases field <;> first | rfl | exact absurd h₄ hkey
  · cases field <;> first | rfl | exact absurd h₅ hkey
  · rfl

theorem Line.Gives.rest_ne (h : l.Gives field v) : l.rest ≠ [] := by
  obtain ⟨blanks, -, hrest⟩ := h.value
  rw [hrest]
  exact fun hnil => decimalInt_ne_nil v (List.append_eq_nil_iff.mp hnil).2

/-! ## The lines of one block -/

theorem emptyLines_singleton : emptyLines [l] = if l.rest = [] then 1 else 0 := by
  rw [emptyLines, List.countP_singleton]
  exact if_congr decide_eq_true_iff rfl rfl

/-- A line without a value counts. -/
theorem step_fst (hs : s.1 ≤ maxCpus) :
    (step maxCpus s l).1 = min maxCpus (s.1 + emptyLines [l]) := by
  rw [emptyLines_singleton]
  unfold step Line.put
  by_cases hempty : l.rest = []
  · rw [if_pos hempty, if_pos hempty]
    by_cases hlt : s.1 < maxCpus
    · rw [if_pos hlt]
      exact (min_eq_right hlt).symm
    · rw [if_neg hlt]
      omega
  · rw [if_neg hempty, if_neg hempty, Nat.add_zero, min_eq_right hs]
    split_ifs <;> rfl

theorem emptyLines_cons (ls : List Line) :
    emptyLines (l :: ls) = emptyLines [l] + emptyLines ls := by
  unfold emptyLines
  rw [List.countP_cons, List.countP_cons, List.countP_nil]
  omega

theorem emptyLines_append : emptyLines (before ++ after) = emptyLines before + emptyLines after :=
  List.countP_append

/-- **As many entries are complete as lines without a value were read.** -/
theorem foldl_step_fst (ls : List Line) (hs : s.1 ≤ maxCpus) :
    (ls.foldl (step maxCpus) s).1 = min maxCpus (s.1 + emptyLines ls) := by
  induction ls generalizing s with
  | nil => simp [emptyLines, hs]
  | cons l ls ih =>
    have hstep := step_fst (l := l) hs
    rw [List.foldl_cons, ih (by omega), hstep, emptyLines_cons ls]
    omega

/-- What a line leaves in the entries. -/
theorem step_snd : (step maxCpus s l).2 =
    if s.1 < maxCpus ∧ l.rest ≠ []
    then Function.update s.2 s.1 (enterField (s.2 s.1) l.key l.rest) else s.2 := by
  unfold step Line.put
  by_cases hlt : s.1 < maxCpus <;> by_cases hempty : l.rest = [] <;> simp [hlt, hempty]

/-- A line with another key leaves the field alone. -/
theorem get_step_of_ne (hkey : l.key ≠ field.key) :
    field.get ((step maxCpus s l).2 i) = field.get (s.2 i) := by
  rw [step_snd]
  split_ifs
  · by_cases hi : i = s.1
    · rw [hi, Function.update_self, get_enterField_of_ne hkey]
    · rw [Function.update_of_ne hi]
  · rfl

theorem get_foldl_step_of_ne (hkey : ∀ l ∈ ls, l.key ≠ field.key) :
    field.get ((ls.foldl (step maxCpus) s).2 i) = field.get (s.2 i) := by
  induction ls generalizing s with
  | nil => rfl
  | cons l ls ih =>
    rw [List.foldl_cons, ih fun l' h => hkey l' (List.mem_cons_of_mem _ h),
      get_step_of_ne (hkey l List.mem_cons_self)]

/-- The line with the key gives the entry that is being filled its value. -/
theorem get_step_self (h : l.Gives field v) :
    field.get ((step maxCpus s l).2 i) =
      if i = s.1 ∧ i < maxCpus then v else field.get (s.2 i) := by
  obtain ⟨blanks, hb, hrest⟩ := h.value
  rw [step_snd]
  by_cases hlt : s.1 < maxCpus
  · rw [if_pos ⟨hlt, h.rest_ne⟩]
    by_cases hi : i = s.1
    · rw [if_pos ⟨hi, hi ▸ hlt⟩, hi, Function.update_self, get_enterField_self h.key, hrest,
        sscanfInt_decimalInt hb h.int]
    · rw [if_neg fun hh => hi hh.1, Function.update_of_ne hi]
  · rw [if_neg fun hh => hlt hh.1, if_neg (by omega)]

/-- **What a block does**: its value goes to the entry that was being
filled when the key was met. -/
theorem get_foldl_block (hs : s.1 ≤ maxCpus) :
    field.get ((b.lines.foldl (step maxCpus) s).2 i) =
      if i = s.1 + b.emptyBefore field ∧ i < maxCpus then field.get b.values
      else field.get (s.2 i) := by
  obtain ⟨before, l, after, hlines, hgives, hother⟩ := b.once field
  have hbefore : ∀ l' ∈ before, l'.key ≠ field.key := fun l' h =>
    hother l' (List.mem_append_left _ h)
  have hafter : ∀ l' ∈ after, l'.key ≠ field.key := fun l' h =>
    hother l' (List.mem_append_right _ h)
  have htake : b.lines.takeWhile (fun l => l.key ≠ field.key) = before := by
    rw [hlines]
    exact takeWhile_boundary (by simpa using hbefore) (by simp [hgives.key])
  have hcount := foldl_step_fst before hs
  rw [Block.emptyBefore, htake, hlines, List.foldl_append, List.foldl_cons,
    get_foldl_step_of_ne hafter, get_step_self hgives, get_foldl_step_of_ne hbefore, hcount]
  refine if_congr ?_ rfl rfl
  omega

/-! ## All blocks -/

/-- The entries after the blocks. -/
def runBlocks (maxCpus : ℕ) (blocks : List Block) (s : ℕ × (ℕ → Cpuinfo)) : ℕ × (ℕ → Cpuinfo) :=
  (blocks.flatMap Block.lines).foldl (step maxCpus) s

theorem runBlocks_cons : runBlocks maxCpus (b :: blocks) s =
    runBlocks maxCpus blocks (b.lines.foldl (step maxCpus) s) := by
  rw [runBlocks, List.flatMap_cons, List.foldl_append, runBlocks]

theorem emptyAbove_zero : emptyAbove blocks 0 = 0 := rfl

theorem emptyAbove_succ (h : blocks[j]? = some b) :
    emptyAbove blocks (j + 1) = emptyAbove blocks j + emptyLines b.lines := by
  rw [emptyAbove, emptyAbove, List.take_add_one, h, List.flatMap_append, emptyLines_append]
  simp

theorem emptyAbove_cons : emptyAbove (b :: blocks) (j + 1) =
    emptyLines b.lines + emptyAbove blocks j := by
  rw [emptyAbove, emptyAbove, List.take_succ_cons, List.flatMap_cons, emptyLines_append]

theorem emptyBefore_le (b : Block) (field : Field) : b.emptyBefore field ≤ emptyLines b.lines :=
  (List.takeWhile_sublist _).countP_le

theorem emptyAbove_mono (blocks : List Block) (h : i ≤ j) :
    emptyAbove blocks i ≤ emptyAbove blocks j := by
  obtain ⟨rest, hrest⟩ := List.take_prefix_take_left (l := blocks) h
  rw [emptyAbove, emptyAbove, ← hrest, List.flatMap_append, emptyLines_append]
  exact Nat.le_add_right _ _

/-- A later block has at least the lines above it of an earlier one. -/
theorem emptyAbove_add_emptyBefore_mono (blocks : List Block) (field : Field) :
    Monotone fun j : Fin blocks.length => emptyAbove blocks j + blocks[j].emptyBefore field := by
  intro j j' hle
  dsimp only
  rcases hle.eq_or_lt with rfl | hlt
  · exact le_rfl
  · have habove := emptyAbove_succ (List.getElem?_eq_getElem j.isLt)
    have hbefore := emptyBefore_le blocks[j] field
    have hmono := emptyAbove_mono blocks (Nat.succ_le_of_lt (Fin.lt_def.mp hlt))
    simp only [Fin.getElem_fin, Nat.succ_eq_add_one] at hbefore hmono ⊢
    omega

/-- **No block gives the entry its value** where none stands there. -/
theorem get_runBlocks_of_ne (hs : s.1 ≤ maxCpus) (hi : i < maxCpus)
    (h : ∀ j b, blocks[j]? = some b → s.1 + (emptyAbove blocks j + b.emptyBefore field) ≠ i) :
    field.get ((runBlocks maxCpus blocks s).2 i) = field.get (s.2 i) := by
  induction blocks generalizing s with
  | nil => rfl
  | cons b blocks ih =>
    have hfst := foldl_step_fst b.lines hs
    have hfirst := h 0 b rfl
    rw [emptyAbove_zero] at hfirst
    rw [runBlocks_cons, ih (by omega), get_foldl_block hs, if_neg (by omega)]
    intro j b' hj
    have hnext := h (j + 1) b' hj
    rw [emptyAbove_cons] at hnext
    omega

/-- **The last block that stands at the entry gives it its value.** -/
theorem get_runBlocks_of_eq (hs : s.1 ≤ maxCpus) (hi : i < maxCpus) (hb : blocks[j]? = some b)
    (heq : s.1 + (emptyAbove blocks j + b.emptyBefore field) = i)
    (h : ∀ j' b', j < j' → blocks[j']? = some b' →
      s.1 + (emptyAbove blocks j' + b'.emptyBefore field) ≠ i) :
    field.get ((runBlocks maxCpus blocks s).2 i) = field.get b.values := by
  induction blocks generalizing s j with
  | nil => cases hb
  | cons b₀ blocks ih =>
    have hfst := foldl_step_fst b₀.lines hs
    rw [runBlocks_cons]
    cases j with
    | zero =>
      obtain rfl : b₀ = b := Option.some.inj hb
      rw [emptyAbove_zero] at heq
      rw [get_runBlocks_of_ne (by omega) hi, get_foldl_block hs, if_pos ⟨by omega, hi⟩]
      intro j' b' hj'
      have hnext := h (j' + 1) b' (Nat.succ_pos j') hj'
      rw [emptyAbove_cons] at hnext
      omega
    | succ j =>
      rw [emptyAbove_cons] at heq
      refine ih (by omega) hb (by omega) fun j' b' hlt hj' => ?_
      have hnext := h (j' + 1) b' (Nat.succ_lt_succ hlt) hj'
      rw [emptyAbove_cons] at hnext
      omega

theorem reads_lines (ls : List Line) {ls' : List Line} {t : List UInt8} (h : Reads ls' t) :
    Reads (ls ++ ls') ((ls.flatMap fun l => l.text ++ [newline]) ++ t) := by
  induction ls with
  | nil => exact h
  | cons l ls ih =>
    have hline := Reads.line (fun _ hc => nomatch hc : Blank []) (l := l) ih
    simpa using hline

/-- A file of blocks is read line by line. -/
theorem reads_fileText {blocks : List (Block × List UInt8)} (hgaps : ∀ s ∈ blocks, Blank s.2) :
    Reads ((blocks.map Prod.fst).flatMap Block.lines) (fileText blocks) := by
  induction blocks with
  | nil => exact .done fun _ hc => nomatch hc
  | cons s blocks ih =>
    obtain ⟨b, gap⟩ := s
    have hrest := ih fun s hs => hgaps s (List.mem_cons_of_mem _ hs)
    have hgap : Blank gap := hgaps (b, gap) List.mem_cons_self
    have hblock := reads_lines b.lines (hrest.after hgap)
    simpa [fileText, Block.text] using hblock

theorem getCpuinfo_fileText {blocks : List (Block × List UInt8)} (hgaps : ∀ s ∈ blocks, Blank s.2)
    (maxCpus : ℕ) (cpus : ℕ → Cpuinfo) :
    getCpuinfo (some (.open (fileText blocks))) cpus maxCpus =
      some (((runBlocks maxCpus (blocks.map Prod.fst) (0, cpus)).1 : ℤ),
        (runBlocks maxCpus (blocks.map Prod.fst) (0, cpus)).2) := by
  have h := readEntries_reads cpus 0 maxCpus
    (f := .open (fileText blocks)) (reads_fileText hgaps) rfl rfl nofun
  rw [getCpuinfo, Int.toNat_natCast, h, Nat.zero_add, runBlocks]

/-- Where the entries that a block could stand at are all taken, in order,
each block stands at its own. -/
theorem eq_of_monotone_of_covers {k : ℕ} (place : Fin k → ℕ) (hmono : Monotone place)
    (hcovers : ∀ i : Fin k, ∃ j, place j = i) : ∀ j, place j = j := by
  choose at' hat using hcovers
  have hinj : Function.Injective at' := fun i j h => Fin.ext (by rw [← hat i, ← hat j, h])
  have hsurj : Function.Surjective at' := Finite.surjective_of_injective hinj
  have hstrict : StrictMono place := by
    refine hmono.strictMono_of_injective fun i j h => ?_
    obtain ⟨i, rfl⟩ := hsurj i
    obtain ⟨j, rfl⟩ := hsurj j
    rw [hat, hat] at h
    rw [Fin.ext h]
  have hrange : Set.range place = Set.range (Fin.val : Fin k → ℕ) := by
    ext n
    constructor
    · rintro ⟨j, rfl⟩
      obtain ⟨i, rfl⟩ := hsurj j
      exact ⟨i, (hat i).symm⟩
    · rintro ⟨i, rfl⟩
      exact ⟨at' i, hat i⟩
  intro j
  exact congrFun ((StrictMono.range_inj hstrict Fin.val_strictMono).mp hrange) j

/-- Where every block becomes an entry, whatever the array held, some
block stands at each entry. -/
theorem exists_block_at (hmax : blocks.length ≤ maxCpus)
    (h : ∀ cpus, ∀ i b, blocks[i]? = some b → (runBlocks maxCpus blocks (0, cpus)).2 i = b.values)
    (hi : i < blocks.length) (field : Field) :
    ∃ j b, blocks[j]? = some b ∧ emptyAbove blocks j + b.emptyBefore field = i := by
  by_contra hnone
  have hget := List.getElem?_eq_getElem hi
  -- an array that holds another value there
  let v := field.get blocks[i].values + 1
  have hrun := congrArg field.get (h (fun _ => ⟨v, v, v, v, v⟩) i _ hget)
  rw [get_runBlocks_of_ne (Nat.zero_le _) (by omega)] at hrun
  · have hv : field.get (⟨v, v, v, v, v⟩ : Cpuinfo) = v := by cases field <;> rfl
    rw [hv] at hrun
    omega
  · intro j b hj heq
    exact hnone ⟨j, b, hj, by omega⟩

/-- **`get_cpuinfo` returns the blocks exactly where the lines without a
value go with them.** -/
theorem blocks_read_iff (blocks : List (Block × List UInt8)) (hgaps : ∀ s ∈ blocks, Blank s.2)
    (maxCpus : ℕ) (hmax : blocks.length ≤ maxCpus) :
    (∀ cpus, ∃ cpus', getCpuinfo (some (.open (fileText blocks))) cpus maxCpus =
        some ((blocks.length : ℤ), cpus') ∧
      ∀ i b, (blocks.map Prod.fst)[i]? = some b → cpus' i = b.values) ↔
    Delimited (blocks.map Prod.fst) maxCpus := by
  have hrun := getCpuinfo_fileText hgaps maxCpus
  have hlen : (blocks.map Prod.fst).length = blocks.length := List.length_map _
  generalize hbs : blocks.map Prod.fst = bs at hrun hlen
  have hcount : ∀ cpus, (runBlocks maxCpus bs (0, cpus)).1 =
      min maxCpus (emptyAbove bs bs.length) := by
    intro cpus
    rw [runBlocks, foldl_step_fst _ (Nat.zero_le _), emptyAbove, List.take_length, Nat.zero_add]
  constructor
  · intro h
    have hvalues : ∀ cpus, ∀ i b, bs[i]? = some b →
        (runBlocks maxCpus bs (0, cpus)).2 i = b.values := by
      intro cpus
      obtain ⟨cpus', hget, hall⟩ := h cpus
      rw [hrun cpus] at hget
      obtain ⟨-, rfl⟩ := Prod.mk.inj (Option.some.inj hget)
      exact hall
    refine ⟨?_, ?_⟩
    · intro i b field hb
      have hi : i < bs.length := (List.getElem?_eq_some_iff.mp hb).1
      have hplaces := eq_of_monotone_of_covers
        (fun j : Fin bs.length => emptyAbove bs j + bs[j].emptyBefore field)
        (emptyAbove_add_emptyBefore_mono bs field) ?_ ⟨i, hi⟩
      · have hbi : bs[i] = b := (List.getElem?_eq_some_iff.mp hb).2
        simpa [hbi] using hplaces
      · intro i
        obtain ⟨j, b, hj, heq⟩ := exists_block_at (hlen ▸ hmax) hvalues i.isLt field
        obtain ⟨hlt, rfl⟩ := List.getElem?_eq_some_iff.mp hj
        exact ⟨⟨j, hlt⟩, heq⟩
    · obtain ⟨cpus', hget, -⟩ := h fun _ => ⟨0, 0, 0, 0, 0⟩
      rw [hrun] at hget
      have hfst := (Prod.mk.inj (Option.some.inj hget)).1
      rw [hcount] at hfst
      omega
  · rintro ⟨hkeys, htotal⟩ cpus
    refine ⟨(runBlocks maxCpus bs (0, cpus)).2, ?_, ?_⟩
    · rw [hrun, hcount, htotal, hlen]
    · intro i b hb
      have hi : i < bs.length := (List.getElem?_eq_some_iff.mp hb).1
      refine ext_get fun field => get_runBlocks_of_eq (Nat.zero_le _) (by omega) hb ?_ ?_
      · rw [Nat.zero_add, hkeys i b field hb]
      · intro j' b' hlt hj'
        rw [Nat.zero_add, hkeys j' b' field hj']
        omega

/-! ## A block without such a line -/

theorem Field.mem_all (field : Field) : field ∈ Field.all := by cases field <;> decide

theorem Field.nodup_all : Field.all.Nodup := by decide

theorem Field.key_injective : Function.Injective Field.key := by
  intro f g h
  cases f <;> cases g <;> first | rfl | exact absurd h (by decide)

theorem Field.key_chars (field : Field) : 0 ∉ field.key ∧ colon ∉ field.key := by
  cases field <;> decide

theorem isspace_of_all {o : Option UInt8} (h : o.all (fun c => !isspace c) = true) :
    ∀ c ∈ o, isspace c = false := by
  rintro c rfl
  simpa using h

theorem Field.key_first (field : Field) : ∀ c ∈ field.key.head?, isspace c = false :=
  isspace_of_all (by cases field <;> decide)

theorem Field.key_last (field : Field) : ∀ c ∈ field.key.getLast?, isspace c = false :=
  isspace_of_all (by cases field <;> decide)

/-- The line that the kernel prints for a field. -/
def numberLine (field : Field) (v : ℤ) : Line where
  key := field.key
  blanks := ['\t'.toUInt8]
  rest := ' '.toUInt8 :: decimalInt v
  key_ne := by cases field <;> exact List.cons_ne_nil _ _
  key_chars := field.key_chars
  key_first := field.key_first
  key_last := field.key_last
  blanks_blank := fun c hc => by rw [List.mem_singleton.mp hc]; decide
  rest_chars := by
    simp only [List.mem_cons, not_or]
    exact ⟨by decide, notMem_decimalInt (by decide) (by decide) v⟩

/-- The line that the kernel ends an entry with. -/
def powerManagement : Line where
  key := literal "power management"
  blanks := []
  rest := []
  key_ne := List.cons_ne_nil _ _
  key_chars := by decide
  key_first := isspace_of_all (by decide)
  key_last := isspace_of_all (by decide)
  blanks_blank := fun _ hc => nomatch hc
  rest_chars := List.not_mem_nil

theorem numberLine_gives (hv : -2147483648 ≤ v ∧ v ≤ 2147483647) :
    (numberLine field v).Gives field v :=
  ⟨rfl, hv, [' '.toUInt8], fun c hc => by rw [List.mem_singleton.mp hc]; decide, rfl⟩

/-- The values fit an `int`. -/
def Fits (cpu : Cpuinfo) : Prop :=
  ∀ field : Field, -2147483648 ≤ field.get cpu ∧ field.get cpu ≤ 2147483647

/-- The block that the kernel prints for a CPU, and other lines after
it. -/
def cpuBlock (cpu : Cpuinfo) (hcpu : Fits cpu) (extra : List Line)
    (h : ∀ l ∈ extra, ∀ field : Field, l.key ≠ field.key) : Block where
  lines := (Field.all.map fun field => numberLine field (field.get cpu)) ++ extra
  values := cpu
  once := by
    intro field
    obtain ⟨before, after, hall⟩ := List.append_of_mem field.mem_all
    have hnodup := Field.nodup_all
    rw [hall] at hnodup ⊢
    refine ⟨before.map fun f => numberLine f (f.get cpu), numberLine field (field.get cpu),
      (after.map fun f => numberLine f (f.get cpu)) ++ extra, by simp,
      numberLine_gives (hcpu field), fun l hl => ?_⟩
    simp only [List.mem_append, List.mem_map] at hl
    have hne : ∀ f ∈ before ++ after, f.key ≠ field.key := by
      intro f hf heq
      rw [Field.key_injective heq] at hf
      exact (List.nodup_middle.mp hnodup).notMem hf
    rcases hl with ⟨f, hf, rfl⟩ | ⟨f, hf, rfl⟩ | hl
    · exact hne f (List.mem_append_left _ hf)
    · exact hne f (List.mem_append_right _ hf)
    · exact h l hl field

theorem powerManagement_other : ∀ l ∈ [powerManagement], ∀ field : Field, l.key ≠ field.key := by
  intro l hl field
  rw [List.mem_singleton.mp hl]
  cases field <;> decide

/-- Two CPUs on one core, as the kernel prints them. -/
def twoCpus : List (Block × List UInt8) :=
  [(cpuBlock ⟨0, 0, 2, 5, 1⟩ (fun field => by cases field <;> decide) [powerManagement]
      powerManagement_other, [newline]),
    (cpuBlock ⟨1, 0, 2, 5, 1⟩ (fun field => by cases field <;> decide) [powerManagement]
      powerManagement_other, [newline])]

/-- The line at the end of an entry stands before the next one. -/
theorem delimited_twoCpus : Delimited (twoCpus.map Prod.fst) 8 where
  keys i b field hb := by
    rcases i with _ | _ | i
    · obtain rfl := Option.some.inj hb
      cases field <;> decide
    · obtain rfl := Option.some.inj hb
      cases field <;> decide
    · cases hb
  count := by decide

theorem blocks_read_iff_twoCpus : ∃ cpus',
    getCpuinfo (some (.open (fileText twoCpus))) (fun _ => ⟨0, 0, 0, 0, 0⟩) 8 = some (2, cpus') ∧
      cpus' 0 = ⟨0, 0, 2, 5, 1⟩ ∧ cpus' 1 = ⟨1, 0, 2, 5, 1⟩ := by
  have hgaps : ∀ s ∈ twoCpus, Blank s.2 := by
    simp only [twoCpus, List.forall_mem_cons]
    have hgap : Blank [newline] := fun c hc => by rw [List.mem_singleton.mp hc, isspace_newline]
    exact ⟨hgap, hgap, nofun⟩
  obtain ⟨cpus', hget, hall⟩ :=
    (blocks_read_iff twoCpus hgaps 8 (by decide)).mpr delimited_twoCpus fun _ => ⟨0, 0, 0, 0, 0⟩
  exact ⟨cpus', hget, hall 0 _ rfl, hall 1 _ rfl⟩

/-- **A block without an empty value is not counted**: of a text of one
such block nothing is returned. -/
theorem blocks_read_fails : ¬ ∀ blocks : List (Block × List UInt8), (∀ s ∈ blocks, Blank s.2) →
    ∀ maxCpus : ℕ, blocks.length ≤ maxCpus →
      ∀ cpus, ∃ cpus', getCpuinfo (some (.open (fileText blocks))) cpus maxCpus =
          some ((blocks.length : ℤ), cpus') ∧
        ∀ i b, (blocks.map Prod.fst)[i]? = some b → cpus' i = b.values := by
  intro h
  have hnone : ∀ l ∈ ([] : List Line), ∀ field : Field, l.key ≠ field.key := fun _ hl => nomatch hl
  have hzero : Fits ⟨0, 0, 0, 0, 0⟩ := fun field => by cases field <;> decide
  have hgap : ∀ s ∈ [(cpuBlock ⟨0, 0, 0, 0, 0⟩ hzero [] hnone, ([] : List UInt8))], Blank s.2 := by
    intro s hs
    rw [List.mem_singleton.mp hs]
    exact fun _ hc => nomatch hc
  obtain ⟨cpus', hget, -⟩ :=
    h [(cpuBlock ⟨0, 0, 0, 0, 0⟩ hzero [] hnone, [])] hgap 8 (Nat.succ_pos 7)
      fun _ => ⟨0, 0, 0, 0, 0⟩
  rw [getCpuinfo_fileText hgap] at hget
  have hfst := (Prod.mk.inj (Option.some.inj hget)).1
  rw [runBlocks, foldl_step_fst _ (Nat.zero_le _)] at hfst
  -- no line of the block is without a value
  have hcount : emptyLines (cpuBlock ⟨0, 0, 0, 0, 0⟩ hzero [] hnone).lines = 0 := by
    unfold emptyLines
    simp [cpuBlock, numberLine, Field.all]
  simp [hcount] at hfst

end Cpuinfo

end Rushit
