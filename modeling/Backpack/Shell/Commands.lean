import Backpack.Shell.Glob

/-!
# Small commands

`read`, `echo`, `basename`, `cut` and `ls`, as far as the scripts use them. Arguments are
words: what an unquoted `$VAR` becomes is `words VAR` (names that the scripts pass around
carry no pattern characters, so pathname expansion leaves them alone).
-/

namespace Shell

/-! ## Words -/

/-- The characters of the default `IFS`. -/
def isBlank (c : Char) : Bool := c == ' ' || c == '\t' || c == '\n'

/-- Word splitting of an unquoted expansion. -/
def words (t : Text) : List Text := (t.splitOnP isBlank).filter (· ≠ [])

/-- No blanks, so that an unquoted expansion is a single word. -/
def NoBlank (t : Text) : Prop := ∀ c ∈ t, isBlank c = false

instance (t : Text) : Decidable (NoBlank t) := inferInstanceAs (Decidable (∀ c ∈ t, _))

/-- A text without blanks is one word. -/
theorem words_of_noBlank {t : Text} (h : NoBlank t) (hne : t ≠ []) : words t = [t] := by
  rw [words, List.splitOnP_eq_singleton h]
  simp [hne]

theorem words_append_blank {w : Text} (hw : NoBlank w) (hne : w ≠ []) {c : Char}
    (hc : isBlank c = true) (t : Text) : words (w ++ c :: t) = w :: words t := by
  rw [words, List.splitOnP_append_cons_of_forall_mem hw c hc, List.filter_cons, words]
  simp [hne]

theorem noBlank_of_mem_splitOnP {w t : Text} (h : w ∈ t.splitOnP isBlank) : NoBlank w := by
  induction t generalizing w with
  | nil =>
    rw [List.splitOnP_nil, List.mem_singleton] at h
    subst h
    exact fun c hc => absurd hc List.not_mem_nil
  | cons c t ih =>
    rw [List.splitOnP_cons_eq_if_modifyHead] at h
    split_ifs at h with hc
    · rcases List.mem_cons.mp h with rfl | h
      · exact fun c hc => absurd hc List.not_mem_nil
      · exact ih h
    · cases hs : t.splitOnP isBlank with
      | nil => exact absurd hs (List.splitOnP_ne_nil _ _)
      | cons p ps =>
        rw [hs, List.modifyHead_cons] at h
        rw [hs] at ih
        rcases List.mem_cons.mp h with rfl | h
        · intro d hd
          rcases List.mem_cons.mp hd with rfl | hd
          · simpa using hc
          · exact ih List.mem_cons_self d hd
        · exact ih (List.mem_cons_of_mem _ h)

/-- The words of a text are parts of it. -/
theorem mem_of_mem_words {w t : Text} {c : Char} (hw : w ∈ words t) (hc : c ∈ w) : c ∈ t := by
  have hparts : ∀ v, v ∈ t.splitOnP isBlank → ∀ d ∈ v, d ∈ t := by
    clear hw hc
    induction t with
    | nil => simp [List.splitOnP_nil]
    | cons a t ih =>
      intro v hv d hd
      rw [List.splitOnP_cons_eq_if_modifyHead] at hv
      split_ifs at hv with ha
      · rcases List.mem_cons.mp hv with rfl | hv
        · exact absurd hd List.not_mem_nil
        · exact List.mem_cons_of_mem a (ih v hv d hd)
      · cases hs : t.splitOnP isBlank with
        | nil => exact absurd hs (List.splitOnP_ne_nil _ _)
        | cons p ps =>
          rw [hs, List.modifyHead_cons] at hv
          rw [hs] at ih
          rcases List.mem_cons.mp hv with rfl | hv
          · rcases List.mem_cons.mp hd with rfl | hd
            · exact List.mem_cons_self
            · exact List.mem_cons_of_mem a (ih p List.mem_cons_self d hd)
          · exact List.mem_cons_of_mem a (ih v (List.mem_cons_of_mem p hv) d hd)
  exact hparts w (List.mem_of_mem_filter hw) c hc

/-- The words after joining. -/
def joinWords (ws : List Text) : Text := [' '].intercalate ws

theorem infix_joinWords_iff {w : Text} {ws : List Text} (hw : ' ' ∉ w) (hne : w ≠ []) :
    w <:+: joinWords ws ↔ ∃ v ∈ ws, w <:+: v :=
  infix_intercalate_iff hw hne

theorem newline_not_mem_joinWords {ws : List Text} (h : ∀ w ∈ ws, '\n' ∉ w) :
    '\n' ∉ joinWords ws := by
  rw [← List.singleton_infix_iff, infix_joinWords_iff (by decide) (List.cons_ne_nil _ _)]
  rintro ⟨w, hw, hmem⟩
  exact h w hw ((List.singleton_infix_iff _ _).mp hmem)

theorem words_cons_blank {c : Char} (hc : isBlank c = true) (t : Text) :
    words (c :: t) = words t := by
  rw [words, List.splitOnP_cons_eq_if_modifyHead, if_pos hc, List.filter_cons_of_neg (by simp),
    words]

/-- A blank ends a word. -/
theorem words_append_cons {c : Char} (hc : isBlank c = true) (s t : Text) :
    words (s ++ c :: t) = words s ++ words t := by
  rw [words, List.splitOnP_append_cons s t hc, List.filter_append, words, words]

theorem words_unlines {ws : List Text} (h : ∀ w ∈ ws, NoBlank w ∧ w ≠ []) :
    words (unlines ws) = ws := by
  induction ws with
  | nil => rfl
  | cons w ws ih =>
    rw [List.forall_mem_cons] at h
    have hcons : unlines (w :: ws) = w ++ '\n' :: unlines ws := by simp [unlines]
    rw [hcons, words_append_blank h.1.1 h.1.2 rfl, ih h.2]

theorem joinWords_cons (w : Text) (ws : List Text) :
    joinWords (w :: ws) = w ++ ws.flatMap (' ' :: ·) := by
  unfold joinWords
  induction ws generalizing w with
  | nil => simp
  | cons v ws ih =>
    rw [List.intercalate_cons_of_ne_nil (List.cons_ne_nil _ _), ih]
    simp

/-- Words that are set apart by spaces. -/
theorem words_flatMap_space {ws : List Text} (h : ∀ w ∈ ws, NoBlank w ∧ w ≠ []) :
    words (ws.flatMap (' ' :: ·)) = ws := by
  induction ws with
  | nil => rfl
  | cons w ws ih =>
    rw [List.forall_mem_cons] at h
    rw [List.flatMap_cons, List.cons_append, words_cons_blank rfl]
    cases ws with
    | nil => simpa using words_of_noBlank h.1.1 h.1.2
    | cons v vs =>
      have htail := ih h.2
      rw [List.flatMap_cons, List.cons_append] at htail ⊢
      rw [words_append_blank h.1.1 h.1.2 rfl, ← @words_cons_blank ' ' rfl, htail]

/-- Joined words are split again. -/
theorem words_joinWords {ws : List Text} (h : ∀ w ∈ ws, NoBlank w ∧ w ≠ []) :
    words (joinWords ws) = ws := by
  cases ws with
  | nil => rfl
  | cons w ws =>
    rw [joinWords_cons, ← @words_cons_blank ' ' rfl, ← List.cons_append,
      ← List.flatMap_cons]
    exact words_flatMap_space h

/-- Text that the shell passes around as a single word: no blanks and no characters of
shell patterns. -/
def IsWord (t : Text) : Prop := ∀ c ∈ t, isBlank c = false ∧ globOrdinary c = true

instance (t : Text) : Decidable (IsWord t) := inferInstanceAs (Decidable (∀ c ∈ t, _))

theorem IsWord.noBlank {t : Text} (h : IsWord t) : NoBlank t := fun c hc => (h c hc).1

theorem IsWord.no_backslash {t : Text} (h : IsWord t) : '\\' ∉ t := fun hc =>
  absurd (h _ hc).2 (by decide)

theorem IsWord.no_newline {t : Text} (h : IsWord t) : '\n' ∉ t := fun hc =>
  absurd (h _ hc).1 (by decide)

theorem IsWord.append {s t : Text} (hs : IsWord s) (ht : IsWord t) : IsWord (s ++ t) := by
  intro c hc
  rcases List.mem_append.mp hc with h | h
  · exact hs c h
  · exact ht c h

theorem IsWord.cons {c : Char} {t : Text} (hc : isBlank c = false ∧ globOrdinary c = true)
    (ht : IsWord t) : IsWord (c :: t) := by
  intro d hd
  rcases List.mem_cons.mp hd with rfl | h
  · exact hc
  · exact ht d h

/-! ## `read` -/

/-- Removes the blanks at both ends. -/
def trim (t : Text) : Text := (t.dropWhile isBlank).rdropWhile isBlank

/-- The lines that `read` delivers from `t`, without `-r`: a backslash quotes the next
character, and before a newline it joins two lines. `acc` is the line read so far. -/
def readFrom : Text → Text → List Text
  | _, [] => []
  | acc, '\n' :: cs => trim acc.reverse :: readFrom [] cs
  | _, ['\\'] => []
  | acc, '\\' :: '\n' :: cs => readFrom acc cs
  | acc, '\\' :: c :: cs => readFrom (c :: acc) cs
  | acc, c :: cs => readFrom (c :: acc) cs

/-- The values of `LINE` for which `while read LINE` runs its body. -/
def readValues (t : Text) : List Text := readFrom [] t

theorem trim_of_noBlank {t : Text} (h : NoBlank t) : trim t = t := by
  have hdrop : t.dropWhile isBlank = t := by
    cases t with
    | nil => rfl
    | cons c t => simp [List.dropWhile, h c (by simp)]
  rw [trim, hdrop, List.rdropWhile_eq_self_iff]
  intro hne
  simp [h _ (List.getLast_mem hne)]

/-- Without backslashes, read takes line after line. -/
theorem readFrom_of_no_backslash {acc t : Text} (h : '\\' ∉ t) :
    readFrom acc t =
      ((t.splitOn '\n').modifyHead (acc.reverse ++ ·)).dropLast.map trim := by
  induction t generalizing acc with
  | nil => simp [readFrom]
  | cons c t ih =>
    have ht : '\\' ∉ t := fun hm => h (by simp [hm])
    have hc : c ≠ '\\' := fun hm => h (by simp [hm])
    rw [List.splitOn_cons_eq_if_modifyHead]
    by_cases hn : c = '\n'
    · subst hn
      have hne : t.splitOn '\n' ≠ [] := List.splitOn_ne_nil _ _
      rw [readFrom, ih ht]
      cases hs : t.splitOn '\n' with
      | nil => exact absurd hs hne
      | cons p ps => simp
    · have hstep : readFrom acc (c :: t) = readFrom (c :: acc) t := by
        rw [readFrom] <;> simp_all
      rw [hstep, ih ht]
      cases hs : t.splitOn '\n' with
      | nil => exact absurd hs (List.splitOn_ne_nil _ _)
      | cons p ps => simp [hn]

/-- Without backslashes `read` only trims the lines. -/
theorem readValues_of_no_backslash {t : Text} (hb : '\\' ∉ t) :
    readValues t = (readLines t).map trim := by
  have hhead : (t.splitOn '\n').modifyHead (([] : Text).reverse ++ ·) = t.splitOn '\n' := by
    cases t.splitOn '\n' <;> simp
  rw [readValues, readFrom_of_no_backslash hb, hhead, ← readLines]

/-- Without backslashes and blanks `read` delivers the lines as they are. -/
theorem readValues_eq_readLines {t : Text} (hb : '\\' ∉ t)
    (hl : ∀ l ∈ readLines t, NoBlank l) : readValues t = readLines t := by
  rw [readValues_of_no_backslash hb]
  calc (readLines t).map trim = (readLines t).map id :=
        List.map_congr_left fun l hm => trim_of_noBlank (hl l hm)
    _ = readLines t := List.map_id _

/-- The output of `while read LINE; do body; done` on the text `t`. -/
def whileRead (t : Text) (body : Text → Text) : Text := (readValues t).flatMap body

/-- Lines without blanks at their ends are read back unchanged. -/
theorem readValues_unlines_of_trim {ls : List Text}
    (h : ∀ l ∈ ls, '\n' ∉ l ∧ '\\' ∉ l ∧ trim l = l) : readValues (unlines ls) = ls := by
  have hlines := (pieces_unlines fun l hl => (h l hl).1).1
  have hb : '\\' ∉ unlines ls := by
    intro hb
    obtain ⟨l, hl, hc⟩ := List.mem_flatMap.mp hb
    rcases List.mem_append.mp hc with hc | hc
    · exact (h l hl).2.1 hc
    · exact absurd hc (by decide)
  rw [readValues_of_no_backslash hb, hlines]
  calc ls.map trim = ls.map id := List.map_congr_left fun l hl => (h l hl).2.2
    _ = ls := List.map_id _

/-- Words written line by line are read back unchanged. -/
theorem readValues_unlines {ps : List Text} (h : ∀ p ∈ ps, IsWord p) :
    readValues (unlines ps) = ps :=
  readValues_unlines_of_trim fun p hp =>
    ⟨(h p hp).no_newline, (h p hp).no_backslash, trim_of_noBlank (h p hp).noBlank⟩

/-- The loop goes over the lines that were printed. -/
theorem whileRead_unlines {ps : List Text} (h : ∀ p ∈ ps, IsWord p) (body : Text → Text) :
    whileRead (unlines ps) body = ps.flatMap body := by
  rw [whileRead, readValues_unlines h]

/-- A backslash is either quoted by another one or goes. -/
theorem count_readFrom (acc t : Text) :
    2 * ((readFrom acc t).map (List.count '\\')).sum ≤ 2 * acc.count '\\' + t.count '\\' := by
  have htrim : ∀ s : Text, (trim s).Sublist s := fun s =>
    (List.rdropWhile_prefix _ _).sublist.trans (List.dropWhile_suffix _).sublist
  induction acc, t using readFrom.induct with
  | case1 => simp [readFrom]
  | case2 acc cs ih =>
    have hline : (trim acc.reverse).count '\\' ≤ acc.count '\\' := by
      simpa using (htrim acc.reverse).count_le '\\'
    rw [readFrom, List.map_cons, List.sum_cons, List.count_cons_of_ne (by decide)]
    rw [List.count_nil] at ih
    omega
  | case3 => simp [readFrom]
  | case4 acc cs ih =>
    rw [readFrom, List.count_cons_self, List.count_cons_of_ne (by decide)]
    omega
  | case5 acc c cs hc ih =>
    rw [readFrom.eq_5 _ _ _ hc, List.count_cons_self]
    rw [List.count_cons] at ih ⊢
    split_ifs at ih ⊢ <;> omega
  | case6 acc c cs hnl hlast hnext hpair ih =>
    have hc : c ≠ '\\' := by
      intro heq
      cases cs with
      | nil => exact hlast heq rfl
      | cons d ds => exact hpair d ds heq rfl
    rw [readFrom.eq_6 _ _ _ hnl hlast hnext hpair, List.count_cons_of_ne hc]
    rwa [List.count_cons_of_ne hc] at ih

/-- A line has the characters of the text, without newlines. -/
theorem mem_of_mem_readFrom {acc t l : Text} (hl : l ∈ readFrom acc t) {c : Char} (hc : c ∈ l) :
    c ∈ acc ∨ c ∈ t ∧ c ≠ '\n' := by
  have htrim : ∀ s : Text, ∀ d ∈ trim s, d ∈ s := fun s d hd =>
    (List.dropWhile_suffix _).mem ((List.rdropWhile_prefix _ _).mem hd)
  induction acc, t using readFrom.induct with
  | case1 => exact absurd hl (by simp [readFrom])
  | case2 acc cs ih =>
    rw [readFrom, List.mem_cons] at hl
    rcases hl with rfl | hl
    · exact Or.inl (by simpa using htrim _ c hc)
    · exact Or.inr (((ih hl).resolve_left List.not_mem_nil).imp_left (List.mem_cons_of_mem _))
  | case3 => exact absurd hl (by simp [readFrom])
  | case4 acc cs ih =>
    rw [readFrom] at hl
    exact (ih hl).imp_right
      (And.imp_left fun h => List.mem_cons_of_mem _ (List.mem_cons_of_mem _ h))
  | case5 acc d cs hd ih =>
    rw [readFrom.eq_5 _ _ _ hd] at hl
    rcases ih hl with h | h
    · rcases List.mem_cons.mp h with rfl | h
      · exact Or.inr ⟨by simp, hd⟩
      · exact Or.inl h
    · exact Or.inr (h.imp_left fun h => List.mem_cons_of_mem _ (List.mem_cons_of_mem _ h))
  | case6 acc d cs hnl hlast hnext hpair ih =>
    rw [readFrom.eq_6 _ _ _ hnl hlast hnext hpair] at hl
    rcases ih hl with h | h
    · rcases List.mem_cons.mp h with rfl | h
      · exact Or.inr ⟨by simp, hnl⟩
      · exact Or.inl h
    · exact Or.inr (h.imp_left (List.mem_cons_of_mem _))

/-! ## Loops that change a state -/

/-- `R` holds of every turn: of the state before it, the line and the state after it. -/
def EveryTurn {σ α : Type} (step : σ → α → σ) (R : σ → α → σ → Prop) : σ → List α → Prop
  | _, [] => True
  | s, a :: as => R s a (step s a) ∧ EveryTurn step R (step s a) as

theorem EveryTurn.imp {σ α : Type} {step : σ → α → σ} {R R' : σ → α → σ → Prop}
    (h : ∀ s a s', R s a s' → R' s a s') {as : List α} {s : σ} (hs : EveryTurn step R s as) :
    EveryTurn step R' s as := by
  induction as generalizing s with
  | nil => trivial
  | cons a as ih => exact ⟨h _ _ _ hs.1, ih hs.2⟩

/-- What is shown for one turn under an invariant holds of every turn. -/
theorem everyTurn_iff {σ α : Type} {step : σ → α → σ} {R : σ → α → σ → Prop} {U C : σ → α → Prop}
    {Inv : σ → Prop} {as : List α} (hinv : ∀ s, ∀ a ∈ as, Inv s → Inv (step s a))
    (hturn : ∀ s, ∀ a ∈ as, Inv s → U s a → (R s a (step s a) ↔ C s a)) {s : σ} (hs : Inv s)
    (hU : EveryTurn step (fun s a _ => U s a) s as) :
    EveryTurn step R s as ↔ EveryTurn step (fun s a _ => C s a) s as := by
  induction as generalizing s with
  | nil => exact Iff.rfl
  | cons a as ih =>
    rw [EveryTurn, EveryTurn, hturn s a List.mem_cons_self hs hU.1,
      ih (fun s b hb => hinv s b (List.mem_cons_of_mem a hb))
        (fun s b hb => hturn s b (List.mem_cons_of_mem a hb))
        (hinv s a List.mem_cons_self hs) hU.2]

/-! ## `echo` -/

def isEchoOption : Text → Bool
  | '-' :: c :: cs => (c :: cs).all fun d => d == 'n' || d == 'e' || d == 'E'
  | _ => false

/-- The output of `echo`. Leading options are not printed; `-n` leaves the newline off. -/
def echo (args : List Text) : Text :=
  joinWords (args.dropWhile isEchoOption) ++
    if (args.takeWhile isEchoOption).any (·.contains 'n') then [] else ['\n']

theorem echo_singleton {w : Text} (h : isEchoOption w = false) : echo [w] = w ++ ['\n'] := by
  simp [echo, List.dropWhile, List.takeWhile, h, joinWords]

/-- Only the arguments in front can be options. -/
theorem echo_cons {w : Text} (h : isEchoOption w = false) (ws : List Text) :
    echo (w :: ws) = joinWords (w :: ws) ++ ['\n'] := by
  simp [echo, List.dropWhile, List.takeWhile, h]

theorem echo_of_no_options {ws : List Text} (h : ∀ w ∈ ws, isEchoOption w = false) :
    echo ws = joinWords ws ++ ['\n'] := by
  cases ws with
  | nil => rfl
  | cons w ws => exact echo_cons (h w List.mem_cons_self) ws

theorem isEchoOption_of_slash {w : Text} (h : '/' ∈ w) : isEchoOption w = false := by
  unfold isEchoOption
  split
  · rename_i c cs
    rw [Bool.eq_false_iff, ne_eq, List.all_eq_true]
    intro hall
    have hmem : '/' ∈ c :: cs := by
      rcases List.mem_cons.mp h with h' | h'
      · exact absurd h' (by decide)
      · exact h'
    exact absurd (hall '/' hmem) (by decide)
  · rfl

/-! ## `basename` -/

/-- What follows the last slash, trailing slashes not counted. -/
def lastComponent (path : Text) : Text := ((path.rdropWhile (· == '/')).splitOn '/').getLastD []

/-- A suffix is removed unless it is the whole name. -/
def stripSuffix (suffix name : Text) : Text :=
  if suffix <:+ name ∧ suffix.length < name.length then
    name.take (name.length - suffix.length)
  else name

/-- A word that a command takes for an option. -/
def isOption (w : Text) : Bool := w.head? == some '-' && w != ['-']

/-- The output of `basename`: nothing when the operands are not one or two, or when the
first one is taken for an option. -/
def basename : List Text → Text
  | [path] => if isOption path then [] else lastComponent path
  | [path, suffix] =>
    if isOption path then [] else stripSuffix suffix (lastComponent path)
  | _ => []

section
variable {line : Text} (hline : NoBlank line) (hne : line ≠ []) (hoption : isOption line = false)
include hline hne hoption

/-- A single word is a single operand, also without quotes around it. -/
theorem basename_words : basename (words line) = lastComponent line := by
  rw [words_of_noBlank hline hne, basename, hoption, if_neg Bool.false_ne_true]

theorem basename_words_suffix (suffix : Text) :
    basename (words line ++ [suffix]) = stripSuffix suffix (lastComponent line) := by
  rw [words_of_noBlank hline hne, List.singleton_append, basename, hoption,
    if_neg Bool.false_ne_true]

end

/-- The last part of a path is what stands after the last slash. -/
theorem lastComponent_append {dir name : Text} (hname : '/' ∉ name) (hne : name ≠ []) :
    lastComponent (dir ++ '/' :: name) = name := by
  have hstrip : (dir ++ '/' :: name).rdropWhile (· == '/') = dir ++ '/' :: name := by
    rw [List.rdropWhile_eq_self_iff]
    intro h
    have hlast : (dir ++ '/' :: name).getLast h = name.getLast hne := by
      rw [List.getLast_append_of_ne_nil _ (List.cons_ne_nil _ _), List.getLast_cons hne]
    rw [hlast]
    simp only [beq_iff_eq]
    intro heq
    exact hname (heq ▸ List.getLast_mem hne)
  rw [lastComponent, hstrip, List.splitOn_append_cons_self, List.splitOn_eq_singleton hname]
  simp

theorem lastComponent_of_no_slash {name : Text} (hname : '/' ∉ name) :
    lastComponent name = name := by
  have hstrip : name.rdropWhile (· == '/') = name := by
    rw [List.rdropWhile_eq_self_iff]
    intro h
    simp only [beq_iff_eq]
    intro heq
    exact hname (heq ▸ List.getLast_mem h)
  rw [lastComponent, hstrip, List.splitOn_eq_singleton hname]
  rfl

theorem slash_not_mem_lastComponent (path : Text) : '/' ∉ lastComponent path := by
  unfold lastComponent
  rw [List.getLastD_eq_getLast?]
  cases hlast : ((path.rdropWhile (· == '/')).splitOn '/').getLast? with
  | none => exact List.not_mem_nil
  | some w => exact not_mem_of_mem_splitOn (List.mem_of_getLast? hlast)

theorem mem_of_mem_lastComponent {path : Text} {c : Char} (h : c ∈ lastComponent path) :
    c ∈ path := by
  unfold lastComponent at h
  have hsub : ∀ ps : List Text, c ∈ ps.getLastD [] → ∃ p ∈ ps, c ∈ p := by
    intro ps hps
    cases hl : ps.getLast? with
    | none => simp [List.getLastD_eq_getLast?, hl] at hps
    | some p =>
      rw [List.getLastD_eq_getLast?, hl] at hps
      exact ⟨p, List.mem_of_getLast? hl, hps⟩
  rcases hsub _ h with ⟨p, hp, hc⟩
  rcases (mem_splitOn_iff.mp hp).1 with ⟨pre, post, heq, -, -⟩
  have hmem : c ∈ path.rdropWhile (· == '/') := by
    rw [heq]
    simp [hc]
  exact (List.rdropWhile_prefix _ _).mem hmem

theorem mem_of_mem_stripSuffix {suffix name : Text} {c : Char}
    (h : c ∈ stripSuffix suffix name) : c ∈ name := by
  unfold stripSuffix at h
  split_ifs at h
  · exact List.mem_of_mem_take h
  · exact h

theorem stripSuffix_append {name suffix : Text} (hne : name ≠ []) :
    stripSuffix suffix (name ++ suffix) = name := by
  have hpos : 0 < name.length := List.length_pos_iff.mpr hne
  rw [stripSuffix, if_pos ⟨List.suffix_append _ _, by simp; omega⟩]
  simp

/-! ## `cut` -/

/-- `cut -d a -f 1`, on one line -/
def cutFirst (a : Char) (line : Text) : Text := line.takeWhile (· != a)

/-- `cut -d a -f 2-`, on one line. A line without the delimiter is passed on. -/
def cutRest (a : Char) (line : Text) : Text :=
  if a ∈ line then (line.dropWhile (· != a)).drop 1 else line

theorem cutFirst_append {a : Char} {s t : Text} (h : a ∉ s) : cutFirst a (s ++ a :: t) = s := by
  have hs : ∀ c ∈ s, (c != a) = true := fun c hc => bne_iff_ne.mpr fun heq => h (heq ▸ hc)
  rw [cutFirst, List.takeWhile_append_of_pos hs]
  simp

theorem cutRest_append {a : Char} {s t : Text} (h : a ∉ s) : cutRest a (s ++ a :: t) = t := by
  have hs : ∀ c ∈ s, (c != a) = true := fun c hc => bne_iff_ne.mpr fun heq => h (heq ▸ hc)
  rw [cutRest, if_pos (by simp), List.dropWhile_append_of_pos hs]
  simp

/-! ## Command substitution -/

/-- `` -z "`command`" `` for a command that prints these lines: trailing newlines do not
count. -/
def noOutput (ls : List Text) : Bool := ls.all List.isEmpty

/-- A command has output when one of its lines is not empty. -/
theorem noOutput_eq_false_iff {ls : List Text} :
    noOutput ls = false ↔ ∃ l ∈ ls, l ≠ [] := by
  simp [noOutput]

/-- What `` `command` `` leaves of the text that the command prints. -/
def captured (t : Text) : Text := t.rdropWhile (· == '\n')

theorem captured_unlines_singleton {l : Text} (h : '\n' ∉ l) : captured (unlines [l]) = l := by
  have hline : unlines [l] = l ++ ['\n'] := by simp [unlines]
  rw [captured, hline, List.rdropWhile_concat_pos _ _ _ (by decide), List.rdropWhile_eq_self_iff]
  intro hne
  simp only [beq_iff_eq]
  intro heq
  exact h (heq ▸ List.getLast_mem hne)

/-- Nothing is captured when the output is all newlines. -/
theorem captured_eq_nil_iff {t : Text} : captured t = [] ↔ ∀ c ∈ t, c = '\n' := by
  simp [captured, List.rdropWhile_eq_nil_iff]

/-- Only newlines are cut off. -/
theorem mem_captured {t : Text} {c : Char} (hc : c ∈ t) (hne : c ≠ '\n') : c ∈ captured t := by
  induction t using List.reverseRecOn with
  | nil => exact absurd hc List.not_mem_nil
  | append_singleton t a ih =>
    rw [captured, List.rdropWhile_concat]
    split_ifs with ha
    · refine ih ((List.mem_append.mp hc).resolve_right fun hca => hne ?_)
      rw [List.mem_singleton.mp hca, ← beq_iff_eq]
      exact ha
    · exact hc

theorem captured_unlines_eq_nil_iff {ls : List Text} (h : ∀ l ∈ ls, '\n' ∉ l) :
    captured (unlines ls) = [] ↔ noOutput ls = true := by
  rw [captured_eq_nil_iff, ← Bool.not_eq_false, noOutput_eq_false_iff]
  simp only [unlines, List.mem_flatMap, List.mem_append, List.mem_singleton, not_exists, not_and,
    not_not]
  constructor
  · intro hall l hl
    refine List.eq_nil_iff_forall_not_mem.mpr fun c hc => h l hl ?_
    rwa [← hall c ⟨l, hl, Or.inl hc⟩]
  · rintro hnil c ⟨l, hl, hc | hc⟩
    · rw [hnil l hl] at hc
      exact absurd hc List.not_mem_nil
    · exact hc

theorem captured_grep_eq_nil_iff {fl : Flavour} {pat file : Text} :
    captured (unlines (grep fl pat file)) = [] ↔ noOutput (grep fl pat file) = true :=
  captured_unlines_eq_nil_iff fun _ hl => newline_not_mem_fileLines (List.mem_of_mem_filter hl)

/-- Newlines inside a text stay. -/
theorem captured_append {s t : Text} (ht : captured t ≠ []) :
    captured (s ++ t) = s ++ captured t := by
  have hne : t.reverse.dropWhile (· == '\n') ≠ [] := by
    simpa [captured, List.rdropWhile] using ht
  rw [captured, captured, List.rdropWhile, List.rdropWhile, List.reverse_append,
    List.dropWhile_append, if_neg (by simpa using hne)]
  simp

/-- Trailing newlines are no words. -/
theorem words_append_captured (s t : Text) : words (s ++ captured t) = words (s ++ t) := by
  induction t using List.reverseRecOn with
  | nil => rfl
  | append_singleton t c ih =>
    by_cases hc : c = '\n'
    · subst hc
      have hnil : words [] = [] := rfl
      rw [captured, List.rdropWhile_concat_pos _ _ _ (by decide), ← captured, ih,
        ← List.append_assoc, words_append_cons rfl, hnil, List.append_nil]
    · rw [captured, List.rdropWhile_concat_neg _ _ _ (by simpa using hc)]

/-! ## `ls` -/

/-- The byte order in which `ls` sorts. -/
def byteLe : Text → Text → Bool
  | [], _ => true
  | _ :: _, [] => false
  | a :: s, b :: t => if a = b then byteLe s t else a.toNat < b.toNat

/-- Of two texts, one comes first. -/
theorem byteLe_total (s t : Text) : byteLe s t = true ∨ byteLe t s = true := by
  induction s generalizing t with
  | nil => exact Or.inl rfl
  | cons a s ih =>
    cases t with
    | nil => exact Or.inr rfl
    | cons b t =>
      by_cases hab : a = b
      · subst hab
        simpa [byteLe] using ih t
      · have hne : a.toNat ≠ b.toNat := fun h => hab (Char.toNat_inj.mp h)
        simp only [byteLe, hab, Ne.symm hab, if_false, decide_eq_true_eq]
        omega

theorem byteLe_trans {s t u : Text} (hst : byteLe s t = true) (htu : byteLe t u = true) :
    byteLe s u = true := by
  induction s generalizing t u with
  | nil => rfl
  | cons a s ih =>
    cases t with
    | nil => simp [byteLe] at hst
    | cons b t =>
      cases u with
      | nil => simp [byteLe] at htu
      | cons c u =>
        simp only [byteLe] at hst htu ⊢
        split_ifs at hst htu ⊢ with h1 h2 h3 h4 h5 <;> simp_all
        · exact ih hst htu
        · omega
        · omega

/-- Two texts that both come first are the same. -/
theorem byteLe_antisymm {s t : Text} (hst : byteLe s t = true) (hts : byteLe t s = true) :
    s = t := by
  induction s generalizing t with
  | nil =>
    cases t with
    | nil => rfl
    | cons b t => simp [byteLe] at hts
  | cons a s ih =>
    cases t with
    | nil => simp [byteLe] at hst
    | cons b t =>
      by_cases hab : a = b
      · subst hab
        rw [ih (by simpa [byteLe] using hst) (by simpa [byteLe] using hts)]
      · simp only [byteLe, hab, Ne.symm hab, if_false, decide_eq_true_eq] at hst hts
        omega

/-- The paths `ls` prints, in its order. -/
def lsSort (paths : List Text) : List Text := paths.insertionSort fun s t => byteLe s t = true

instance : Std.Total fun s t : Text => byteLe s t = true := ⟨byteLe_total⟩

instance : IsTrans Text fun s t => byteLe s t = true := ⟨fun _ _ _ => byteLe_trans⟩

theorem lsSort_perm (paths : List Text) : (lsSort paths).Perm paths := List.perm_insertionSort _ _

theorem lsSort_pairwise (paths : List Text) :
    (lsSort paths).Pairwise fun s t => byteLe s t = true :=
  List.pairwise_insertionSort _ _

/-- The output of `ls` depends only on which paths there are. -/
theorem lsSort_eq_of_perm {ps qs : List Text} (h : ps.Perm qs) : lsSort ps = lsSort qs :=
  List.Perm.eq_of_pairwise (fun _ _ _ _ hpq hqp => byteLe_antisymm hpq hqp) (lsSort_pairwise ps)
    (lsSort_pairwise qs) ((lsSort_perm ps).trans (h.trans (lsSort_perm qs).symm))

/-- Sorting and leaving out may be done in either order. -/
theorem lsSort_filter (p : Text → Bool) (ps : List Text) :
    (lsSort ps).filter p = lsSort (ps.filter p) :=
  List.Perm.eq_of_pairwise (fun _ _ _ _ hpq hqp => byteLe_antisymm hpq hqp)
    ((lsSort_pairwise ps).filter p) (lsSort_pairwise _)
    (((lsSort_perm ps).filter p).trans (lsSort_perm _).symm)

theorem byteLe_append (u s t : Text) : byteLe (u ++ s) (u ++ t) = byteLe s t := by
  induction u with
  | nil => rfl
  | cons a u ih => simpa [byteLe] using ih

end Shell
