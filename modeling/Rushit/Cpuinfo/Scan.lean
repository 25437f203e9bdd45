import Rushit.Cpuinfo.Model
/-!
# What the format makes of a line

Each call of `fscanf` takes a line with a value off the text, with the
white space around it (`scanEntry_value`), and stops before the end of a
line without one (`scanEntry_empty`). So a text of lines is read line by
line (`readEntries_reads`): a value goes into the entry that is being
filled, and a line without a value moves on to the next entry.
-/

namespace Rushit

namespace Cpuinfo

open CString

/-- Only white space. -/
def Blank (text : List UInt8) : Prop := ∀ c ∈ text, isspace c = true

/-- A line `key<blanks>: value`, where `rest` is what follows the colon. -/
structure Line where
  key : List UInt8
  blanks : List UInt8
  rest : List UInt8
  key_ne : key ≠ []
  key_chars : 0 ∉ key ∧ colon ∉ key
  key_first : ∀ c ∈ key.head?, isspace c = false
  key_last : ∀ c ∈ key.getLast?, isspace c = false
  blanks_blank : Blank blanks
  rest_chars : newline ∉ rest

/-- The line, without the newline that ends it. -/
def Line.text (l : Line) : List UInt8 := l.key ++ l.blanks ++ colon :: l.rest

/-- A text of lines, with white space between them. -/
inductive Reads : List Line → List UInt8 → Prop
  | done {gap : List UInt8} : Blank gap → Reads [] gap
  | line {gap rest : List UInt8} {l : Line} {ls : List Line} : Blank gap → Reads ls rest →
      Reads (l :: ls) (gap ++ (l.text ++ newline :: rest))

variable {f f' : File} {gap t key value : List UInt8} {l : Line} {ls : List Line}
  {cpu : Cpuinfo} {cpus : ℕ → Cpuinfo} {n left a b : ℕ}

/-! ## Runs of characters -/

variable {α : Type*} {p : α → Bool} {xs ys : List α}

/-- A run ends where the next character is not of its kind. -/
theorem takeWhile_boundary (hx : ∀ x ∈ xs, p x = true) (hy : ∀ y ∈ ys.head?, p y = false) :
    (xs ++ ys).takeWhile p = xs := by
  rw [List.takeWhile_append_of_pos hx]
  cases ys with
  | nil => simp
  | cons y ys => simp [hy y rfl]

theorem dropWhile_boundary (hx : ∀ x ∈ xs, p x = true) (hy : ∀ y ∈ ys.head?, p y = false) :
    (xs ++ ys).dropWhile p = ys := by
  rw [List.dropWhile_append_of_pos hx]
  cases ys with
  | nil => rfl
  | cons y ys => simp [hy y rfl]

theorem rdropWhile_boundary (hy : ∀ y ∈ ys, p y = true) (hx : ∀ x ∈ xs.getLast?, p x = false) :
    (xs ++ ys).rdropWhile p = xs := by
  have hrun : ∀ y ∈ ys.reverse, p y = true := fun y h => hy y (List.mem_reverse.mp h)
  have hend : ∀ x ∈ xs.reverse.head?, p x = false := by rwa [List.head?_reverse]
  rw [List.rdropWhile, List.reverse_append, dropWhile_boundary hrun hend, List.reverse_reverse]

/-! ## White space -/

theorem isspace_newline : isspace newline = true := by decide

theorem isspace_zero : isspace 0 = false := by decide

theorem isspace_colon : isspace colon = false := by decide

theorem Blank.notMem {c : UInt8} (h : Blank gap) (hc : isspace c = false) : c ∉ gap := by
  intro hmem
  rw [h c hmem] at hc
  cases hc

theorem Blank.append (h : Blank gap) (ht : Blank t) : Blank (gap ++ t) := fun c hc =>
  (List.mem_append.mp hc).elim (h c) (ht c)

theorem Blank.newline (h : Blank gap) : Blank (newline :: gap) := fun c hc =>
  (List.mem_cons.mp hc).elim (fun heq => heq ▸ isspace_newline) (h c)

/-- A key and what follows it begin with the key's first character. -/
theorem Line.first (l : Line) : ∀ c ∈ (l.key ++ t).head?, isspace c = false := by
  intro c hc
  rw [List.head?_append_of_ne_nil _ l.key_ne] at hc
  exact l.key_first c hc

theorem text_of_notMem (h : 0 ∉ t) : text t = t := by
  refine List.takeWhile_eq_self_iff.mpr fun c hc => ?_
  have hne : c ≠ 0 := fun heq => h (heq ▸ hc)
  simpa using hne

/-- **The blanks around a key are trimmed.** -/
theorem trim_key (h : Blank gap) : ltrim (rtrim (gap ++ (l.key ++ l.blanks))) = l.key := by
  have hzero : 0 ∉ gap ++ (l.key ++ l.blanks) := by
    simp only [List.mem_append, not_or]
    exact ⟨h.notMem isspace_zero, l.key_chars.1, l.blanks_blank.notMem isspace_zero⟩
  have htext : text (gap ++ (l.key ++ l.blanks)) = gap ++ l.key ++ l.blanks := by
    rw [text_of_notMem hzero, List.append_assoc]
  have hlast : ∀ c ∈ (gap ++ l.key).getLast?, isspace c = false := by
    intro c hc
    rw [List.getLast?_append_of_ne_nil _ l.key_ne] at hc
    exact l.key_last c hc
  have hfirst : ∀ c ∈ l.key.head?, isspace c = false := l.key_first
  rw [rtrim, htext, rdropWhile_boundary l.blanks_blank hlast, ltrim, dropWhile_boundary h hfirst]

/-- A key alone stays as it is. -/
theorem Line.trim (l : Line) : ltrim (rtrim l.key) = l.key := by
  have hlast : (l.key ++ []).rdropWhile isspace = l.key :=
    rdropWhile_boundary (fun _ hc => nomatch hc) l.key_last
  have hfirst : ([] ++ l.key).dropWhile isspace = l.key :=
    dropWhile_boundary (fun _ hc => nomatch hc) l.key_first
  rw [List.append_nil] at hlast
  rw [rtrim, text_of_notMem l.key_chars.1, hlast]
  exact hfirst

/-- White space may stand before the lines. -/
theorem Reads.after (h : Reads ls t) (hgap : Blank gap) : Reads ls (gap ++ t) := by
  cases h with
  | done ht => exact .done (hgap.append ht)
  | @line gap' rest l ls hgap' hrest =>
    rw [← List.append_assoc]
    exact .line (hgap.append hgap') hrest

/-- And it may be skipped. -/
theorem Reads.dropWhile (h : Reads ls t) : Reads ls (t.dropWhile isspace) := by
  cases h with
  | done ht =>
    rw [List.dropWhile_eq_nil_iff.mpr ht]
    exact .done fun _ hc => nomatch hc
  | @line gap rest l ls hgap hrest =>
    have hfirst : ∀ c ∈ (l.text ++ newline :: rest).head?, isspace c = false := by
      unfold Line.text
      rw [List.append_assoc, List.append_assoc]
      exact l.first
    rw [dropWhile_boundary hgap hfirst]
    exact Reads.line (fun _ hc => nomatch hc : Blank []) hrest

/-! ## One call -/

/-- Where the end is not reached nothing but the rest changes. -/
theorem setRest_of_ne (h : t ≠ []) : f.setRest t = { f with rest := t } := if_neg h

/-- **What a call takes** off a text that begins with a line. -/
theorem scanEntry_line (hgap : Blank gap) (hrest : f.rest = gap ++ (l.text ++ newline :: t)) :
    f.scanEntry = if l.rest = [] then (none, { f with rest := newline :: t })
      else (some (gap ++ (l.key ++ l.blanks), l.rest),
        f.setRest (t.dropWhile isspace)) := by
  have hsplit : f.rest = (gap ++ (l.key ++ l.blanks)) ++ colon :: (l.rest ++ newline :: t) := by
    rw [hrest, Line.text]
    simp
  have hcolon : ∀ c ∈ gap ++ (l.key ++ l.blanks), decide (c ≠ colon) = true := by
    intro c hc
    rw [decide_eq_true_eq]
    rintro rfl
    simp only [List.mem_append] at hc
    rcases hc with hc | hc | hc
    · exact hgap.notMem isspace_colon hc
    · exact l.key_chars.2 hc
    · exact l.blanks_blank.notMem isspace_colon hc
  have hvalue : ∀ c ∈ l.rest, decide (c ≠ newline) = true := by
    intro c hc
    rw [decide_eq_true_eq]
    rintro rfl
    exact l.rest_chars hc
  have hne : gap ++ (l.key ++ l.blanks) ≠ [] := by simp [l.key_ne]
  have hkey : f.scanUntil colon = (gap ++ (l.key ++ l.blanks),
      { f with rest := colon :: (l.rest ++ newline :: t) }) := by
    rw [File.scanUntil, hsplit, takeWhile_boundary hcolon (by simp),
      dropWhile_boundary hcolon (by simp), setRest_of_ne (by simp)]
  have hval : ({ f with rest := l.rest ++ newline :: t } : File).scanUntil newline =
      (l.rest, { f with rest := newline :: t }) := by
    rw [File.scanUntil]
    dsimp only
    rw [takeWhile_boundary hvalue (by simp), dropWhile_boundary hvalue (by simp),
      setRest_of_ne (by simp)]
  have hskip : ({ f with rest := newline :: t } : File).skipSpace =
      f.setRest (t.dropWhile isspace) := by
    rw [File.skipSpace]
    simp [isspace_newline, File.setRest, File.hitEnd]
  simp only [File.scanEntry, hkey, if_neg hne, hval, hskip]

theorem hitEnd_hitEnd : f.hitEnd.hitEnd = f.hitEnd := by
  unfold File.hitEnd
  cases f.broken <;> simp

theorem hitEnd_rest : f.hitEnd.rest = f.rest := by
  unfold File.hitEnd
  split <;> rfl

theorem setRest_rest : (f.setRest t).rest = t := by
  unfold File.setRest
  split_ifs
  · exact hitEnd_rest
  · rfl

/-- At the end of the text there is nothing to take. -/
theorem scanEntry_blank (hrest : Blank f.rest) :
    f.scanEntry = (none, { f with rest := [] }.hitEnd) := by
  have hcolon : ∀ c ∈ f.rest, decide (c ≠ colon) = true := by
    intro c hc
    rw [decide_eq_true_eq]
    rintro rfl
    exact hrest.notMem isspace_colon hc
  have hkey : f.scanUntil colon = (f.rest, { f with rest := [] }.hitEnd) := by
    rw [File.scanUntil, List.takeWhile_eq_self_iff.mpr hcolon,
      List.dropWhile_eq_nil_iff.mpr hcolon, File.setRest, if_pos rfl]
  simp only [File.scanEntry, hkey, hitEnd_rest, hitEnd_hitEnd, ite_self]

/-- **Each entry takes some of the text.** -/
theorem scanEntry_length (h : f.scanEntry = (some (key, value), f')) :
    f'.rest.length < f.rest.length := by
  have hkey : (f.scanUntil colon).2.rest = f.rest.dropWhile (· ≠ colon) := setRest_rest
  have hlen : (f.rest.dropWhile (· ≠ colon)).length ≤ f.rest.length :=
    (List.dropWhile_sublist _).length_le
  simp only [File.scanEntry] at h
  split at h
  · cases h
  split at h
  · cases h
  · next c rest hrest =>
    rw [hkey] at hrest
    rw [hrest, List.length_cons] at hlen
    split at h
    · cases h
    obtain ⟨-, rfl⟩ := Prod.mk.inj h
    rw [File.skipSpace, setRest_rest, File.scanUntil, setRest_rest]
    have hskip := (List.dropWhile_sublist (l := rest.dropWhile (· ≠ newline)) isspace).length_le
    have hvalue := (List.dropWhile_sublist (l := rest) (· ≠ newline)).length_le
    dsimp only at hskip hvalue ⊢
    omega

/-! ## The inner loop -/

/-- Enough fuel is enough. -/
theorem readEntry_fuel (ha : f.rest.length < a) (hb : f.rest.length < b) :
    readEntry a f cpu = readEntry b f cpu := by
  induction a generalizing f cpu b with
  | zero => omega
  | succ a ih =>
    cases b with
    | zero => omega
    | succ b =>
      unfold readEntry
      split
      · next key value f' hscan =>
        have hlt := scanEntry_length hscan
        exact ih (by omega) (by omega)
      · rfl

/-- **The inner loop ends.** -/
theorem readEntry_ends (ha : f.rest.length < a) : ∃ r, readEntry a f cpu = some r := by
  induction a generalizing f cpu with
  | zero => omega
  | succ a ih =>
    unfold readEntry
    split
    · next key value f' hscan =>
      have hlt := scanEntry_length hscan
      exact ih (by omega)
    · exact ⟨_, rfl⟩

/-- **And so does `get_cpuinfo`**, on every text. -/
theorem readEntries_ends : ∃ r, readEntries f cpus n left = some r := by
  induction left generalizing f cpus n with
  | zero => exact ⟨_, rfl⟩
  | succ left ih =>
    obtain ⟨⟨cpu, f'⟩, hread⟩ := readEntry_ends (Nat.lt_succ_self _)
    unfold readEntries
    rw [hread, Option.bind_eq_bind, Option.bind_some]
    dsimp only
    split_ifs
    · exact ⟨_, rfl⟩
    · exact ⟨_, rfl⟩
    · exact ih

/-- An entry's values go into the element that is being filled. -/
theorem readEntries_value (hscan : f.scanEntry = (some (key, value), f')) :
    readEntries f cpus n (left + 1) =
      readEntries f' (Function.update cpus n (enterField (cpus n) key value)) n (left + 1) := by
  have hlt := scanEntry_length hscan
  have hread : readEntry (f.rest.length + 1) f (cpus n) =
      readEntry (f'.rest.length + 1) f' (enterField (cpus n) key value) := by
    rw [readEntry, hscan]
    exact readEntry_fuel (by omega) (by omega)
  rw [readEntries, readEntries, hread, Function.update_self]
  simp only [Function.update_idem]

/-- Where there is no entry the loop moves on to the next element. -/
theorem readEntries_none (hscan : f.scanEntry = (none, f')) :
    readEntries f cpus n (left + 1) =
      if f'.error then some ((-1 : ℤ), cpus)
      else if f'.eof then some ((n : ℤ), cpus) else readEntries f' cpus (n + 1) left := by
  have hread : readEntry (f.rest.length + 1) f (cpus n) = some (cpus n, f') := by
    rw [readEntry, hscan]
  rw [readEntries, hread, Option.bind_eq_bind, Option.bind_some]
  dsimp only
  rw [Function.update_eq_self]
  rfl

/-! ## A text of lines -/

/-- What a line does to the entries, of which `n` are complete. -/
def Line.put (l : Line) (s : ℕ × (ℕ → Cpuinfo)) : ℕ × (ℕ → Cpuinfo) :=
  if l.rest = [] then (s.1 + 1, s.2)
  else (s.1, Function.update s.2 s.1 (enterField (s.2 s.1) l.key l.rest))

/-- The same, where no line is read once the array is full. -/
def step (maxCpus : ℕ) (s : ℕ × (ℕ → Cpuinfo)) (l : Line) : ℕ × (ℕ → Cpuinfo) :=
  if s.1 < maxCpus then l.put s else s

theorem foldl_step_full {s : ℕ × (ℕ → Cpuinfo)} {maxCpus : ℕ} (h : maxCpus ≤ s.1) :
    ls.foldl (step maxCpus) s = s := by
  induction ls with
  | nil => rfl
  | cons l ls ih =>
    rw [List.foldl_cons, step, if_neg (by omega)]
    exact ih

/-- The blanks around the key make no difference. -/
theorem enterField_trim (hgap : Blank gap) :
    enterField cpu (gap ++ (l.key ++ l.blanks)) value = enterField cpu l.key value := by
  rw [enterField, enterField, trim_key hgap, l.trim]

/-- **The lines are read one after the other.** -/
theorem readEntries_reads (cpus : ℕ → Cpuinfo) (n left : ℕ) (h : Reads ls f.rest)
    (hb : f.broken = false) (he : f.error = false) (heof : f.eof = true → f.rest = []) :
    readEntries f cpus n left =
      some (((ls.foldl (step (n + left)) (n, cpus)).1 : ℤ),
        (ls.foldl (step (n + left)) (n, cpus)).2) := by
  induction ls generalizing f cpus n left with
  | nil =>
    cases left with
    | zero => rfl
    | succ left =>
      cases h with
      | done hblank =>
        rw [readEntries_none (scanEntry_blank hblank)]
        simp [File.hitEnd, hb, he]
  | cons l ls ih =>
    cases left with
    | zero => rw [foldl_step_full (by simp)]; rfl
    | succ left =>
      generalize hrest : f.rest = text at h
      cases h with
      | @line gap rest _ _ hgap hreads =>
        have hopen : f.eof = false := by
          refine Bool.eq_false_iff.mpr fun h => ?_
          have hnil := (heof h).symm.trans hrest
          simp [Line.text] at hnil
        have hscan := scanEntry_line hgap hrest
        rw [List.foldl_cons, step, if_pos (by simp), Line.put]
        by_cases hempty : l.rest = []
        · -- the newline is left for the next key
          rw [if_pos hempty] at hscan ⊢
          have hnext : Reads ls ({ f with rest := newline :: rest } : File).rest :=
            hreads.after (Blank.newline fun _ hc => nomatch hc : Blank [newline])
          rw [readEntries_none hscan, if_neg (by simp [he]), if_neg (by simp [hopen]),
            ih _ _ _ hnext hb he (by simp [hopen]),
            Nat.add_right_comm, Nat.add_assoc]
        · rw [if_neg hempty] at hscan ⊢
          have hrest' : (f.setRest (rest.dropWhile isspace)).rest = rest.dropWhile isspace :=
            setRest_rest
          have hflags : (f.setRest (rest.dropWhile isspace)).broken = false ∧
              (f.setRest (rest.dropWhile isspace)).error = false ∧
              ((f.setRest (rest.dropWhile isspace)).eof = true → rest.dropWhile isspace = []) := by
            unfold File.setRest File.hitEnd
            split_ifs <;> simp_all
          rw [readEntries_value hscan, enterField_trim hgap]
          exact ih _ _ _ (by rw [hrest']; exact hreads.dropWhile) hflags.1 hflags.2.1
            (by rw [hrest']; exact hflags.2.2)

end Cpuinfo

end Rushit
