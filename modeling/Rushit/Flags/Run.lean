import Mathlib.Data.List.Nodup
import Rushit.Common.Fold
import Rushit.Flags.Model
/-!
# Each option sets its own flag

The sorted copy, the table of the long options and the string of the
short ones go together: the number that stands for a long option is its
flag's place in the copy, and a character finds the flag that put it into
the string. `getopt_long` reads the string back as it was meant
(`readShortopts_eq`). Where the names are distinct, an option so reaches
the flag that was registered under it (`run_applies`), also where the
flags come from calls that add and change them (`registered_run`). This
is for short names that `getopt_long` takes for options: `':'` tells how
an option takes its argument, and `'?'` stands for an error.
-/

namespace Rushit

namespace Flags

variable {Var D : Type}

/-- The flag has a short name that can be printed. -/
def Flag.Printable (flag : Flag Var D) : Prop := isgraph flag.shortName = true

instance (flag : Flag Var D) : Decidable flag.Printable :=
  inferInstanceAs (Decidable (isgraph flag.shortName = true))

/-- No two flags have one name. -/
structure Distinct (flags : List (Flag Var D)) : Prop where
  long : (flags.map Flag.longName).Nodup
  short : ((flags.filter fun flag => flag.Printable).map Flag.shortName).Nodup

/-- How `getopt_long` is told whether a flag takes an argument. -/
def HasArg.mode : HasArg → List ℤ
  | .noArgument => []
  | .requiredArgument => [colon]
  | .optionalArgument => [colon, colon]

/-- What a flag adds to the short options. -/
def Flag.entry (flag : Flag Var D) : List ℤ := flag.shortName :: flag.hasArg.mode

/-- **The option is the flag's**: its short name, or the number of a long
option that has its long name. -/
def Names (flags : List (Flag Var D)) (table : List LongOption) (report : Report)
    (flag : Flag Var D) : Prop :=
  flag ∈ flags ∧ (flag.Printable ∧ report.c = flag.shortName ∨
    ∃ i : ℕ, ∃ option, table[i]? = some option ∧ report.c = longOptionStart + (i : ℤ) ∧
      option.name = flag.longName)

/-- **The short names are options of `getopt_long`**: it takes the visible
ones for options, `'?'` is its error, and `'+'` is an option where it does
not stand in front. -/
structure OptionNames (shorts : List ℤ) : Prop where
  option : ∀ c ∈ shorts, isgraph c = true → isOption c = true
  not_error : questionMark ∉ shorts
  not_first : plus ∈ shorts → ∃ c ∈ shorts, isgraph c = true ∧ c < plus

/-- The flags that the options name, each applied to its argument. -/
def applyAll [DecidableEq Var] (libc : Libc D) (options : List (Report × Flag Var D))
    (st : State Var D) :
    Except End (State Var D) :=
  options.foldlM (fun st option => option.2.apply libc option.1.optarg st) st

variable {flags : List (Flag Var D)} {sorted : Array (Flag Var D)} {flag : Flag Var D}
  {report : Report} {i : ℕ} {c : ℤ}

theorem decide_printable (flag : Flag Var D) :
    decide flag.Printable = isgraph flag.shortName := by
  rw [Bool.eq_iff_iff, decide_eq_true_eq]
  exact Iff.rfl

/-! ## Registering flags -/

/-- The short and the long name of each flag. -/
def names (flags : List (Flag Var D)) : List (ℤ × String) :=
  flags.map fun flag => (flag.shortName, flag.longName)

/-- The names that a call adds, the long one after `'_'` has become `'-'`. -/
def Registration.name : Registration Var D → Option (ℤ × String)
  | .add shortName longName _ _ => some (shortName, remapLongName longName)
  | .setParser _ _ => none
  | .setHasArg _ _ => none

/-- What changes a flag's parser or argument mode keeps the names. -/
theorem names_map {f : Flag Var D → Flag Var D}
    (h : ∀ flag, (f flag).shortName = flag.shortName ∧ (f flag).longName = flag.longName) :
    names (flags.map f) = names flags := by
  rw [names, List.map_map]
  exact List.map_congr_left fun flag _ => Prod.ext (h flag).1 (h flag).2

/-- **One call** adds its names in front, if it adds a flag. -/
theorem names_register [DecidableEq Var] (flags : List (Flag Var D)) (call : Registration Var D) :
    names (register flags call) = call.name.toList ++ names flags := by
  cases call with
  | add shortName longName type var => rfl
  | setParser var parser =>
    exact names_map fun flag => by constructor <;> split_ifs <;> rfl
  | setHasArg var hasArg =>
    exact names_map fun flag => by constructor <;> split_ifs <;> rfl

theorem names_foldl_register [DecidableEq Var] (calls : List (Registration Var D)) :
    ∀ flags, names (calls.foldl register flags) =
      (calls.filterMap Registration.name).reverse ++ names flags := by
  induction calls with
  | nil => exact fun _ => rfl
  | cons call calls ih =>
    intro flags
    rw [List.foldl_cons, ih, names_register, List.filterMap_cons]
    cases call.name with
    | none => rfl
    | some name => simp

/-- **The flags have the names that were added**, the last one first. -/
theorem names_registered [DecidableEq Var] (calls : List (Registration Var D)) :
    names (registered calls) = (calls.filterMap Registration.name).reverse := by
  rw [registered, names_foldl_register, names, List.map_nil, List.append_nil]

theorem map_shortName_eq (flags : List (Flag Var D)) :
    flags.map Flag.shortName = (names flags).map Prod.fst := by
  rw [names, List.map_map]
  rfl

theorem map_longName_eq (flags : List (Flag Var D)) :
    flags.map Flag.longName = (names flags).map Prod.snd := by
  rw [names, List.map_map]
  rfl

/-- The short names that can be printed, told from the names alone. -/
theorem map_shortName_printable (flags : List (Flag Var D)) :
    (flags.filter fun flag => flag.Printable).map Flag.shortName =
      ((names flags).map Prod.fst).filter fun c => isgraph c := by
  simp only [← map_shortName_eq, List.filter_map, Function.comp_def, decide_printable]

/-- Flags that are added under different names are distinct. -/
theorem distinct_registered [DecidableEq Var] {calls : List (Registration Var D)}
    (hlong : ((calls.filterMap Registration.name).map Prod.snd).Nodup)
    (hshort : (((calls.filterMap Registration.name).map Prod.fst).filter
      fun c => isgraph c).Nodup) : Distinct (registered calls) := by
  constructor
  · rw [map_longName_eq, names_registered, List.map_reverse]
    exact List.nodup_reverse.mpr hlong
  · rw [map_shortName_printable, names_registered, List.map_reverse, List.filter_reverse]
    exact List.nodup_reverse.mpr hshort

/-- The order of the names does not matter. -/
theorem OptionNames.reverse {shorts : List ℤ} (h : OptionNames shorts) :
    OptionNames shorts.reverse := by
  refine ⟨fun c hc => h.option c (List.mem_reverse.mp hc),
    fun hc => h.not_error (List.mem_reverse.mp hc), fun hc => ?_⟩
  obtain ⟨c, hmem, hlt⟩ := h.not_first (List.mem_reverse.mp hc)
  exact ⟨c, List.mem_reverse.mpr hmem, hlt⟩

theorem optionNames_registered [DecidableEq Var] {calls : List (Registration Var D)}
    (h : OptionNames ((calls.filterMap Registration.name).map Prod.fst)) :
    OptionNames ((registered calls).map Flag.shortName) := by
  rw [map_shortName_eq, names_registered, List.map_reverse]
  exact h.reverse

/-! ## The tables -/

theorem perm_sortFlags (flags : List (Flag Var D)) : (sortFlags flags).toList.Perm flags :=
  perm_exchangeSort.toList

theorem pairwise_sortFlags (flags : List (Flag Var D)) :
    (sortFlags flags).toList.Pairwise fun x y => x.shortName ≤ y.shortName :=
  pairwise_exchangeSort _

/-- **A long option stands where its flag does.** -/
theorem getElem?_longopts : (longopts sorted)[i]? =
    sorted[i]?.map fun flag => ⟨flag.longName, flag.hasArg, longOptionStart + i⟩ := by
  rw [longopts, List.getElem?_mapIdx, Array.getElem?_toList]

theorem putChar_of_lt {size : ℕ} {s : List ℤ} (h : s.length < size) :
    putChar size s c = .ok (s ++ [c]) := if_pos h

/-- **What one flag adds** fits in three bytes. -/
theorem shortoptsTurn_eq {size : ℕ} {s : List ℤ} {option : LongOption}
    (harg : option.hasArg = flag.hasArg) (hsize : s.length + 3 ≤ size) :
    shortoptsTurn size s (flag, option) =
      .ok (s ++ if flag.Printable then flag.entry else []) := by
  unfold shortoptsTurn
  rw [harg]
  by_cases hp : flag.Printable
  · have hgraph : ¬ isgraph flag.shortName = false := by rw [hp]; decide
    rw [if_neg hgraph, putChar_of_lt (by omega), if_pos hp, Flag.entry]
    cases flag.hasArg with
    | noArgument => rfl
    | requiredArgument =>
      change (putChar size (s ++ [flag.shortName]) colon >>= fun s => _) = _
      rw [putChar_of_lt (by simp; omega), List.append_assoc]
      rfl
    | optionalArgument =>
      change (putChar size (s ++ [flag.shortName]) colon >>= fun s => _) = _
      rw [putChar_of_lt (by simp; omega)]
      change putChar size (s ++ [flag.shortName] ++ [colon]) colon = _
      rw [putChar_of_lt (by simp; omega), List.append_assoc, List.append_assoc]
      rfl
  · have hgraph : isgraph flag.shortName = false := by simpa [Flag.Printable] using hp
    rw [if_pos hgraph, if_neg hp, List.append_nil]
    rfl

theorem length_entry_le (flag : Flag Var D) :
    (if flag.Printable then flag.entry else []).length ≤ 3 := by
  unfold Flag.entry HasArg.mode
  split_ifs
  · cases flag.hasArg <;> simp
  · simp

/-- The string of the short options, for a part of the flags. -/
theorem foldlM_shortoptsTurn {size : ℕ} {turns : List (Flag Var D × LongOption)} {s : List ℤ}
    (harg : ∀ turn ∈ turns, turn.2.hasArg = turn.1.hasArg)
    (hsize : s.length + turns.length * 3 < size) :
    turns.foldlM (shortoptsTurn size) s = .ok (s ++
      turns.flatMap fun turn => if turn.1.Printable then turn.1.entry else []) := by
  induction turns generalizing s with
  | nil => simp [pure, Except.pure]
  | cons turn turns ih =>
    rw [List.length_cons] at hsize
    have hlen := length_entry_le turn.1
    have hturn := shortoptsTurn_eq
      (harg turn List.mem_cons_self) (show s.length + 3 ≤ size by omega)
    refine foldlM_cons_eq_ok.mpr ⟨_, hturn, ?_⟩
    rw [ih (fun t ht => harg t (List.mem_cons_of_mem _ ht)) (by rw [List.length_append]; omega),
      List.flatMap_cons, List.append_assoc]

/-- Each flag has the argument mode of its long option. -/
theorem hasArg_of_mem_zip {turn : Flag Var D × LongOption}
    (h : turn ∈ sorted.toList.zip (longopts sorted)) : turn.2.hasArg = turn.1.hasArg := by
  obtain ⟨i, hi, rfl⟩ := List.getElem_of_mem h
  simp [longopts]

theorem flatMap_filter_entry (l : List (Flag Var D)) :
    (l.filter fun flag => flag.Printable).flatMap Flag.entry =
      l.flatMap fun flag => if flag.Printable then flag.entry else [] := by
  induction l with
  | nil => rfl
  | cons flag l ih =>
    rw [List.flatMap_cons, ← ih]
    by_cases hp : flag.Printable
    · rw [if_pos hp, List.filter_cons_of_pos (by simpa using hp), List.flatMap_cons]
    · rw [if_neg hp, List.filter_cons_of_neg (by simpa using hp), List.nil_append]

theorem length_flatMap_entry_le (l : List (Flag Var D)) :
    (l.flatMap fun flag => if flag.Printable then flag.entry else []).length ≤ l.length * 3 := by
  induction l with
  | nil => exact le_rfl
  | cons flag l ih =>
    have hentry := length_entry_le flag
    rw [List.flatMap_cons, List.length_append, List.length_cons]
    omega

/-- **The short options**: each printable short name in order, with the
mode of its flag, and room for the NUL. -/
theorem shortopts_eq (sorted : Array (Flag Var D)) :
    shortopts sorted =
        .ok ((sorted.toList.filter fun flag => flag.Printable).flatMap Flag.entry) ∧
      ((sorted.toList.filter fun flag => flag.Printable).flatMap Flag.entry).length <
        sorted.size * 3 + 1 := by
  have hlen : (longopts sorted).length = sorted.toList.length := List.length_mapIdx
  have hfst : (sorted.toList.zip (longopts sorted)).map Prod.fst = sorted.toList :=
    List.map_fst_zip hlen.ge
  have hsize : sorted.size = sorted.toList.length := Array.length_toList.symm
  rw [flatMap_filter_entry]
  constructor
  · rw [shortopts, foldlM_shortoptsTurn fun turn => hasArg_of_mem_zip, List.nil_append]
    · congr 1
      conv_rhs => rw [← hfst]
      rw [List.flatMap_map]
    · rw [List.length_zip, hlen, min_self, List.length_nil]
      omega
  · have h := length_flatMap_entry_le sorted.toList
    omega

/-! ### What `getopt_long` reads -/

theorem ne_colon_of_isOption (h : isOption c = true) : c ≠ colon := by
  rintro rfl
  revert h
  decide

/-- A colon is no option. -/
theorem readOptions_colon (rest : List ℤ) : readOptions (colon :: rest) = readOptions rest :=
  if_neg (by decide)

/-- **An entry is read back**, where no colon stands behind it. -/
theorem readOptions_entry (hopt : isOption flag.shortName = true) {rest : List ℤ}
    (hrest : rest.head? ≠ some colon) :
    readOptions (flag.entry ++ rest) = (flag.shortName, flag.hasArg) :: readOptions rest := by
  rw [Flag.entry, List.cons_append, readOptions, if_pos hopt]
  cases flag.hasArg with
  | noArgument =>
    cases rest with
    | nil => rfl
    | cons c rest =>
      have hne : c ≠ colon := fun h => hrest (by rw [h, List.head?_cons])
      simp [HasArg.mode, readHasArg, hne.symm]
  | requiredArgument =>
    cases rest with
    | nil => simp [HasArg.mode, readHasArg, readOptions_colon]
    | cons c rest =>
      have hne : c ≠ colon := fun h => hrest (by rw [h, List.head?_cons])
      simp [HasArg.mode, readHasArg, hne.symm, readOptions_colon]
  | optionalArgument => simp [HasArg.mode, readHasArg, readOptions_colon]

/-- **The entries are read back**, each option with the mode of its flag. -/
theorem readOptions_flatMap_entry {l : List (Flag Var D)}
    (h : ∀ flag ∈ l, isOption flag.shortName = true) :
    readOptions (l.flatMap Flag.entry) = l.map fun flag => (flag.shortName, flag.hasArg) := by
  induction l with
  | nil => rfl
  | cons flag l ih =>
    have hrest : (l.flatMap Flag.entry).head? ≠ some colon := by
      cases l with
      | nil => simp
      | cons g l =>
        rw [List.flatMap_cons, Flag.entry, List.cons_append, List.head?_cons, ne_eq,
          Option.some.injEq]
        exact ne_colon_of_isOption (h g (by simp))
    rw [List.flatMap_cons, readOptions_entry (h flag List.mem_cons_self) hrest,
      ih fun g hg => h g (List.mem_cons_of_mem _ hg), List.map_cons]

theorem OptionNames.ne_questionMark (h : OptionNames (flags.map Flag.shortName)) :
    ∀ f ∈ flags, f.shortName ≠ questionMark := by
  intro f hf hq
  exact h.not_error (hq ▸ List.mem_map_of_mem hf)

/-- The first of the sorted short names is not `'+'`. -/
theorem OptionNames.head_ne_plus (h : OptionNames (flags.map Flag.shortName)) :
    (((sortFlags flags).toList.filter fun flag => flag.Printable).flatMap Flag.entry).head? ≠
      some plus := by
  have hsorted := (pairwise_sortFlags flags).filter fun flag => decide flag.Printable
  have hmem : ∀ f, f ∈ (sortFlags flags).toList.filter (fun flag => flag.Printable) ↔
      f ∈ flags ∧ f.Printable := fun f => by
    rw [List.mem_filter, (perm_sortFlags flags).mem_iff, decide_eq_true_eq]
  generalize (sortFlags flags).toList.filter (fun flag => flag.Printable) = l at hsorted hmem
  cases l with
  | nil => simp
  | cons f l =>
    rw [List.flatMap_cons, Flag.entry, List.cons_append, List.head?_cons, ne_eq, Option.some.injEq]
    intro hplus
    have hf := ((hmem f).mp List.mem_cons_self).1
    obtain ⟨c, hc, hgraph, hlt⟩ := h.not_first (hplus ▸ List.mem_map_of_mem hf)
    obtain ⟨g, hg, rfl⟩ := List.mem_map.mp hc
    -- a lesser name would have been sorted in front of it
    rcases List.mem_cons.mp ((hmem g).mpr ⟨hg, hgraph⟩) with rfl | hgl
    · omega
    · have := List.rel_of_pairwise_cons hsorted hgl
      omega

/-- **What `getopt_long` reads in the string**: each printable short name
in order, with the argument mode of its flag. -/
theorem readShortopts_eq (h : OptionNames (flags.map Flag.shortName)) :
    readShortopts (((sortFlags flags).toList.filter fun flag => flag.Printable).flatMap
      Flag.entry) = ((sortFlags flags).toList.filter fun flag => flag.Printable).map
        fun flag => (flag.shortName, flag.hasArg) := by
  rw [readShortopts, if_neg h.head_ne_plus, readOptions_flatMap_entry]
  intro flag hflag
  rw [List.mem_filter, (perm_sortFlags flags).mem_iff, decide_eq_true_eq] at hflag
  exact h.option _ (List.mem_map_of_mem hflag.1) hflag.2

/-- Each option stands in the list once. -/
theorem Distinct.nodup_options (h : Distinct flags) :
    (((sortFlags flags).toList.filter fun flag => flag.Printable).map Flag.shortName).Nodup :=
  (((perm_sortFlags flags).filter _).map _).nodup_iff.mpr h.short

/-! ## The options -/

/-- A printable short name has one flag. -/
theorem Distinct.eq_of_short (h : Distinct flags) {f g : Flag Var D} (hf : f ∈ flags)
    (hg : g ∈ flags) (hp : f.Printable) (heq : f.shortName = g.shortName) : f = g := by
  have hq : g.Printable := by rwa [Flag.Printable, ← heq]
  exact List.inj_on_of_nodup_map h.short (List.mem_filter.mpr ⟨hf, by simpa using hp⟩)
    (List.mem_filter.mpr ⟨hg, by simpa using hq⟩) heq

/-- **The option finds its flag** in the sorted copy. -/
theorem getElem?_optionIndex (h : Distinct flags)
    (hnames : Names flags (longopts (sortFlags flags)) report flag) :
    ((optionIndex (sortFlags flags) report.c).bind fun i => (sortFlags flags)[i]?) = some flag := by
  have hmem : ∀ f, f ∈ (sortFlags flags).toList ↔ f ∈ flags := fun f =>
    (perm_sortFlags flags).mem_iff
  obtain ⟨hflag, ⟨hp, hc⟩ | ⟨i, option, hoption, hc, hname⟩⟩ := hnames
  · -- the first flag with the character is the only one
    have hgraph : isgraph report.c = true := hc ▸ hp
    have hfound : ∃ f ∈ (sortFlags flags).toList, decide (f.shortName = report.c) = true :=
      ⟨flag, (hmem flag).mpr hflag, by simp [hc]⟩
    have hlt := List.findIdx_lt_length_of_exists hfound
    have hshort := List.findIdx_getElem (w := hlt)
    rw [decide_eq_true_eq] at hshort
    rw [optionIndex, if_pos hgraph, Option.bind_some, ← Array.getElem?_toList,
      List.getElem?_eq_getElem hlt, Option.some.injEq]
    exact (h.eq_of_short hflag ((hmem _).mp (List.getElem_mem hlt)) hp
      (hc.symm.trans hshort.symm)).symm
  · -- the number is the place of the flag
    have hgraph : ¬ isgraph report.c = true := by
      simp only [isgraph, hc, longOptionStart, decide_eq_true_eq]
      omega
    have hplace : (report.c - longOptionStart).toNat = i := by rw [hc]; omega
    rw [optionIndex, if_neg hgraph, if_pos (by rw [hc]; omega), Option.bind_some, hplace]
    rw [getElem?_longopts, Option.map_eq_some_iff] at hoption
    obtain ⟨g, hg, rfl⟩ := hoption
    have hgmem : g ∈ flags := by
      rw [← Array.getElem?_toList] at hg
      exact (hmem g).mp (List.mem_of_getElem? hg)
    rw [hg, List.inj_on_of_nodup_map h.long hgmem hflag hname]

variable [DecidableEq Var] {libc : Libc D}

/-- **One option sets its own flag.** -/
theorem applyOption_eq (h : Distinct flags) (hq : ∀ f ∈ flags, f.shortName ≠ questionMark)
    (hnames : Names flags (longopts (sortFlags flags)) report flag) (st : State Var D) :
    applyOption libc (sortFlags flags) st report = flag.apply libc report.optarg st := by
  have hne : report.c ≠ questionMark := by
    obtain ⟨hflag, ⟨-, hc⟩ | ⟨i, -, -, hc, -⟩⟩ := hnames
    · rw [hc]
      exact hq flag hflag
    · rw [hc, longOptionStart, questionMark]
      omega
  rw [applyOption, if_neg hne, getElem?_optionIndex h hnames]

/-- **The run lemma**: all options set their own flags, in turn. -/
theorem foldlM_applyOption (h : Distinct flags) (hq : ∀ f ∈ flags, f.shortName ≠ questionMark)
    {reports : List Report} {named : List (Flag Var D)}
    (hnames : List.Forall₂ (Names flags (longopts (sortFlags flags))) reports named)
    (st : State Var D) :
    reports.foldlM (applyOption libc (sortFlags flags)) st =
      applyAll libc (reports.zip named) st := by
  induction hnames generalizing st with
  | nil => rfl
  | @cons report flag reports named hname _ ih =>
    rw [List.zip_cons_cons, applyAll, List.foldlM_cons, List.foldlM_cons,
      applyOption_eq h hq hname]
    exact bind_congr fun st' => ih st'

/-- **The whole run**: the options that `getopt_long` reports, each
applied to its flag, and then the end. -/
theorem flagsParserRun_eq (h : Distinct flags) (hq : ∀ f ∈ flags, f.shortName ≠ questionMark)
    (hne : flags ≠ []) {getopt : List ℤ → List LongOption → List Report × List String}
    {help version : Var} {given : List Report × List String}
    (hgiven : given = getopt (((sortFlags flags).toList.filter fun flag => flag.Printable).flatMap
      Flag.entry) (longopts (sortFlags flags)))
    {named : List (Flag Var D)}
    (hnames : List.Forall₂ (Names flags (longopts (sortFlags flags))) given.1 named)
    (st : State Var D) :
    flagsParserRun libc getopt help version flags st =
      applyAll libc (given.1.zip named) st >>= finish help version given.2 := by
  have hpos : flags.length ≠ 0 := fun h0 => hne (List.length_eq_zero_iff.mp h0)
  rw [flagsParserRun, if_neg hpos]
  dsimp only
  rw [(shortopts_eq (sortFlags flags)).1]
  subst hgiven
  change (List.foldlM (applyOption libc (sortFlags flags)) st _ >>= finish help version _) = _
  rw [foldlM_applyOption h hq hnames]

/-- **Each option that is reported is applied to the flag registered under
its name**, by way of tables that go together. -/
theorem run_applies (flags : List (Flag Var D)) (h : Distinct flags)
    (ho : OptionNames (flags.map Flag.shortName)) :
    (sortFlags flags).toList.Perm flags ∧
    ((sortFlags flags).toList.Pairwise fun x y => x.shortName ≤ y.shortName) ∧
    (∃ short, shortopts (sortFlags flags) = .ok short ∧
      short.length + 1 ≤ flags.length * 3 + 1 ∧
      ((readShortopts short).map Prod.fst).Nodup ∧
      readShortopts short = ((sortFlags flags).toList.filter fun flag => flag.Printable).map
        fun flag => (flag.shortName, flag.hasArg)) ∧
    (∀ report flag, Names flags (longopts (sortFlags flags)) report flag → ∀ libc : Libc D, ∀ st,
      applyOption libc (sortFlags flags) st report = flag.apply libc report.optarg st) ∧
    ∀ short, shortopts (sortFlags flags) = .ok short →
      ∀ (libc : Libc D) getopt help version named st,
        List.Forall₂ (Names flags (longopts (sortFlags flags)))
          (getopt short (longopts (sortFlags flags))).1 named → flags ≠ [] →
        flagsParserRun libc getopt help version flags st =
          applyAll libc ((getopt short (longopts (sortFlags flags))).1.zip named) st >>=
            finish help version (getopt short (longopts (sortFlags flags))).2 := by
  have hsize : (sortFlags flags).size = flags.length := by
    rw [← Array.length_toList]
    exact (perm_sortFlags flags).length_eq
  obtain ⟨hshort, hlen⟩ := shortopts_eq (sortFlags flags)
  have hread := readShortopts_eq ho
  refine ⟨perm_sortFlags flags, pairwise_sortFlags flags,
    ⟨_, hshort, by omega, ?_, hread⟩,
    fun report flag hnames libc st => applyOption_eq h ho.ne_questionMark hnames st, ?_⟩
  · rw [hread, List.map_map]
    exact h.nodup_options
  · intro short heq libc getopt help version named st hnames hne
    obtain rfl : _ = short := Except.ok.inj (hshort.symm.trans heq)
    exact flagsParserRun_eq h ho.ne_questionMark hne rfl hnames st

/-- **Flags that a program registers** under different names, each an
option of `getopt_long`, are applied as the options name them, whatever
parsers and argument modes are set on the way. -/
theorem registered_run (calls : List (Registration Var D))
    (hlong : ((calls.filterMap Registration.name).map Prod.snd).Nodup)
    (hshort : (((calls.filterMap Registration.name).map Prod.fst).filter fun c => isgraph c).Nodup)
    (ho : OptionNames ((calls.filterMap Registration.name).map Prod.fst))
    (hne : registered calls ≠ []) :
    ∃ short, shortopts (sortFlags (registered calls)) = .ok short ∧
      (readShortopts short = ((sortFlags (registered calls)).toList.filter fun flag =>
        flag.Printable).map fun flag => (flag.shortName, flag.hasArg)) ∧
      ∀ (libc : Libc D) getopt help version named st,
        List.Forall₂ (Names (registered calls) (longopts (sortFlags (registered calls))))
          (getopt short (longopts (sortFlags (registered calls)))).1 named →
        flagsParserRun libc getopt help version (registered calls) st =
          applyAll libc ((getopt short (longopts (sortFlags (registered calls)))).1.zip named)
            st >>= finish help version
              (getopt short (longopts (sortFlags (registered calls)))).2 := by
  have hdist := distinct_registered hlong hshort
  have hnames := optionNames_registered ho
  refine ⟨_, (shortopts_eq _).1, readShortopts_eq hnames, ?_⟩
  intro libc getopt help version named st hgiven
  exact flagsParserRun_eq hdist hnames.ne_questionMark hne rfl hgiven st

/-- A flag of a variable that is a number. -/
def numberFlag (shortName : ℤ) (longName : String) (var : ℕ) : Flag ℕ ℕ :=
  ⟨shortName, longName, "int", longName, var, none, .requiredArgument⟩

/-- Two flags, one of them without a short name. -/
def twoFlags : List (Flag ℕ ℕ) := [numberFlag 108 "test-length" 0, numberFlag 0 "maxevents" 1]

theorem distinct_twoFlags : Distinct twoFlags := ⟨by decide, by decide⟩

theorem run_applies_twoFlags :
    Distinct twoFlags ∧ (sortFlags twoFlags).toList.Perm twoFlags ∧
      ∀ libc st, applyOption libc (sortFlags twoFlags) st ⟨108, some "10"⟩ =
        (numberFlag 108 "test-length" 0).apply libc (some "10") st :=
  have ho : OptionNames (twoFlags.map Flag.shortName) := ⟨by decide, by decide, by decide⟩
  have h := run_applies twoFlags distinct_twoFlags ho
  ⟨distinct_twoFlags, h.1, h.2.2.2.1 ⟨108, some "10"⟩ (numberFlag 108 "test-length" 0)
    ⟨List.mem_cons_self, .inl ⟨rfl, rfl⟩⟩⟩

/-- **A flag with the short name `'?'` is not applied**: the option ends
the program. And `'6'` without an argument and `':'` with one give `"6::"`,
which `getopt_long` reads as `'6'` with an optional argument. -/
theorem run_applies_fails :
    (¬ ∀ flags : List (Flag ℕ ℕ), Distinct flags → ∀ report flag,
      Names flags (longopts (sortFlags flags)) report flag → ∀ (libc : Libc ℕ) st,
        applyOption libc (sortFlags flags) st report = flag.apply libc report.optarg st) ∧
    ¬ ∀ flags : List (Flag ℕ ℕ), Distinct flags → ∀ short,
      shortopts (sortFlags flags) = .ok short →
        readShortopts short = ((sortFlags flags).toList.filter fun flag => flag.Printable).map
          fun flag => (flag.shortName, flag.hasArg) := by
  refine ⟨fun h => ?_, fun h => ?_⟩
  · have hdist : Distinct [numberFlag 63 "ask" 0] := ⟨by decide, by decide⟩
    have hrun := h [numberFlag 63 "ask" 0] hdist ⟨63, some "1"⟩ (numberFlag 63 "ask" 0)
      ⟨List.mem_cons_self, .inl ⟨rfl, rfl⟩⟩ ⟨fun _ => 0, fun _ => 0, fun _ => 0⟩ ⟨fun _ => none, []⟩
    cases hrun
  · let six : Flag ℕ ℕ := ⟨54, "six", "bool", "six", 0, none, .noArgument⟩
    have hdist : Distinct [six, numberFlag 58 "colon" 1] := ⟨by decide, by decide⟩
    have hread := h [six, numberFlag 58 "colon" 1] hdist [54, 58, 58] (by decide)
    revert hread
    decide

end Flags

end Rushit
