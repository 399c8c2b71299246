import Backpack.Shell.Regex

/-!
# Patterns made of ordinary characters

A script that splices a name into a pattern usually means the name itself. For names made
of ordinary characters the pattern does mean that, and the theorems here say what `grep`
then tests: the whole line (`^name$`), a part of the line, or one element of a
comma separated list.
-/

namespace Shell

namespace Re

/-! ## Matching -/

theorem mem_rests_seq {n : ℕ} {r r' : Re} {s t : Text} :
    t ∈ (Re.seq r r').rests n s ↔ ∃ u ∈ r.rests n s, t ∈ r'.rests n u := by
  simp [rests]

theorem mem_rests_alt {n : ℕ} {r r' : Re} {s t : Text} :
    t ∈ (Re.alt r r').rests n s ↔ t ∈ r.rests n s ∨ t ∈ r'.rests n s := by
  simp [rests]

theorem mem_rests_eps {n : ℕ} {s t : Text} : t ∈ Re.eps.rests n s ↔ t = s := by
  simp [rests]

theorem mem_rests_bol {n : ℕ} {s t : Text} :
    t ∈ Re.bol.rests n s ↔ s.length = n ∧ t = s := by
  simp only [rests]
  split_ifs with h <;> simp [h]

theorem mem_rests_eol {n : ℕ} {s t : Text} : t ∈ Re.eol.rests n s ↔ s = [] ∧ t = [] := by
  simp only [rests]
  split_ifs with h <;> simp [h]

theorem mem_rests_sat {n : ℕ} {p : Char → Bool} {s t : Text} :
    t ∈ (Re.sat p).rests n s ↔ ∃ c, s = c :: t ∧ p c = true := by
  cases s with
  | nil => simp [rests]
  | cons d s =>
    simp only [rests]
    constructor
    · intro ht
      split_ifs at ht with h
      · exact ⟨d, by rw [List.mem_singleton.mp ht], h⟩
      · exact absurd ht List.not_mem_nil
    · rintro ⟨c, hs, hc⟩
      obtain ⟨rfl, rfl⟩ := List.cons.inj hs
      simp [hc]

theorem mem_rests_lit {n : ℕ} {c : Char} {s t : Text} :
    t ∈ (lit c).rests n s ↔ s = c :: t := by
  simp [lit, mem_rests_sat]

/-- A literal prefix of a sequence takes exactly its own characters away. -/
theorem mem_rests_lits {n : ℕ} {w : Text} {rs : List Re} {s t : Text} :
    t ∈ (seqAll (w.map lit ++ rs)).rests n s ↔ ∃ u, s = w ++ u ∧ t ∈ (seqAll rs).rests n u := by
  induction w generalizing s with
  | nil => simp
  | cons c w ih =>
    rw [List.map_cons, List.cons_append, seqAll, List.foldr_cons, ← seqAll, mem_rests_seq]
    constructor
    · rintro ⟨v, hv, ht⟩
      obtain ⟨u, rfl, hu⟩ := ih.mp ht
      exact ⟨u, mem_rests_lit.mp hv, hu⟩
    · rintro ⟨u, rfl, hu⟩
      exact ⟨w ++ u, mem_rests_lit.mpr rfl, ih.mpr ⟨u, rfl, hu⟩⟩

theorem mem_rests_cons {n : ℕ} {r : Re} {rs : List Re} {s t : Text} :
    t ∈ (seqAll (r :: rs)).rests n s ↔ ∃ u ∈ r.rests n s, t ∈ (seqAll rs).rests n u :=
  mem_rests_seq

theorem mem_rests_nil {n : ℕ} {s t : Text} : t ∈ (seqAll []).rests n s ↔ t = s :=
  mem_rests_eps

theorem mem_rests_word {n : ℕ} {w s t : Text} :
    t ∈ (seqAll (w.map lit)).rests n s ↔ s = w ++ t := by
  rw [← List.append_nil (w.map lit), mem_rests_lits]
  simp only [mem_rests_nil]
  constructor
  · rintro ⟨_, rfl, rfl⟩
    rfl
  · rintro rfl
    exact ⟨t, rfl, rfl⟩

/-- A search succeeds when the expression matches at some split of the line. -/
theorem found_iff {r : Re} {line : Text} :
    r.found line = true ↔ ∃ pre s t, line = pre ++ s ∧ t ∈ r.rests line.length s := by
  simp only [found, List.any_eq_true, List.mem_tails, Bool.not_eq_true',
    List.isEmpty_eq_false_iff_exists_mem]
  constructor
  · rintro ⟨s, ⟨pre, rfl⟩, t, ht⟩
    exact ⟨pre, s, t, rfl, ht⟩
  · rintro ⟨pre, s, t, rfl, ht⟩
    exact ⟨s, ⟨pre, rfl⟩, t, ht⟩

end Re

/-! ## Reading ordinary characters -/

theorem nextTok_of_ordinary {fl : Flavour} {c : Char} (hc : fl.ordinary c = true) (prev : Prev)
    (cs : Text) : nextTok fl prev c cs = some (.atom (.lit c), 0) := by
  simp [nextTok, hc]

/-- Letters and digits are ordinary characters. -/
theorem ordinary_of_isAlphanum {fl : Flavour} {c : Char} (h : c.isAlphanum = true) :
    fl.ordinary c = true := by
  have hspecial : ∀ d ∈ ['\\', '[', '.', '*', '^', '$', '+', '?', '(', ')', '|', '{'],
      d.isAlphanum = false := by
    decide
  cases fl with
  | basic =>
    simp only [Flavour.ordinary, decide_eq_true_eq]
    intro hmem
    have hc := hspecial c (List.mem_append_left ['+', '?', '(', ')', '|', '{'] hmem)
    exact absurd h (by simp [hc])
  | extended =>
    simp only [Flavour.ordinary, decide_eq_true_eq]
    intro hmem
    exact absurd h (by simp [hspecial c hmem])

theorem lex_cons {fl : Flavour} {prev : Prev} {c : Char} {cs : Text} {tok : Tok}
    (h : nextTok fl prev c cs = some (tok, 0)) :
    lex fl 0 prev (c :: cs) = (lex fl 0 tok.prev cs).map (tok :: ·) := by
  rw [lex, h]
  cases hl : lex fl 0 tok.prev cs <;> simp [hl]

/-- Ordinary characters are read one by one, as themselves. -/
theorem lex_ordinary {fl : Flavour} {w : Text} (hw : ∀ c ∈ w, fl.ordinary c = true)
    (prev : Prev) (cs : Text) :
    lex fl 0 prev (w ++ cs) =
      (lex fl 0 (if w = [] then prev else .other) cs).map
        ((w.map fun c => Tok.atom (.lit c)) ++ ·) := by
  induction w generalizing prev with
  | nil => simp
  | cons c w ih =>
    have hprev : (Tok.atom (.lit c)).prev = .other := rfl
    rw [List.cons_append, lex_cons (nextTok_of_ordinary (hw c (by simp)) prev (w ++ cs)), hprev,
      ih fun d hd => hw d (by simp [hd])]
    simp [Function.comp_def]

theorem foldlM_atoms (rs : List Re) (f : Frame) (fs : List Frame) :
    (rs.map Tok.atom).foldlM parseTok (f :: fs) =
      some ({ f with cur := rs.reverse ++ f.cur } :: fs) := by
  induction rs generalizing f with
  | nil => rfl
  | cons r rs ih =>
    rw [List.map_cons, List.foldlM_cons, parseTok, Option.bind_eq_bind, Option.bind_some, ih]
    simp

/-- A pattern without operators is the sequence of its atoms. -/
theorem parseRe_of_atoms {fl : Flavour} {pat : Text} {rs : List Re}
    (h : lex fl 0 .opening pat = some (rs.map Tok.atom)) :
    parseRe fl pat = some (Re.seqAll rs) := by
  rw [parseRe, h]
  simp only [Option.bind_eq_bind, Option.bind_some, foldlM_atoms]
  simp [Frame.close, Re.altAll]

theorem parseRe_ordinary {fl : Flavour} {w : Text} (hw : ∀ c ∈ w, fl.ordinary c = true) :
    parseRe fl w = some (Re.seqAll (w.map Re.lit)) := by
  have hlex := lex_ordinary hw .opening []
  rw [List.append_nil] at hlex
  refine parseRe_of_atoms (hlex.trans ?_)
  simp [lex]

theorem lex_escaped {fl : Flavour} {c : Char} (h : escaped fl c = some (.atom (.lit c)))
    (prev : Prev) (cs : Text) :
    lex fl 0 prev ('\\' :: c :: cs) = (lex fl 0 .other cs).map (Tok.atom (.lit c) :: ·) := by
  have hord : fl.ordinary '\\' = false := by cases fl <;> rfl
  have hnext : nextTok fl prev '\\' (c :: cs) = some (.atom (.lit c), 1) := by
    simp [nextTok, hord, h]
  rw [lex, hnext]
  show (lex fl 0 .other cs).bind _ = _
  cases lex fl 0 .other cs <;> rfl

theorem lex_skip (fl : Flavour) (prev : Prev) (w cs : Text) :
    lex fl w.length prev (w ++ cs) = lex fl 0 prev cs := by
  induction w with
  | nil => rfl
  | cons c w ih => rw [List.length_cons, List.cons_append, lex, ih]

/-- A bracket expression in a pattern. -/
theorem lex_bracket {fl : Flavour} {p : Char → Bool} {w cs : Text}
    (h : bracket ['^'] (w ++ cs) = some (p, w.length)) (prev : Prev) :
    lex fl 0 prev ('[' :: (w ++ cs)) = (lex fl 0 .other cs).map (Tok.atom (.sat p) :: ·) := by
  have hord : fl.ordinary '[' = false := by cases fl <;> rfl
  have hnext : nextTok fl prev '[' (w ++ cs) = some (.atom (.sat p), w.length) := by
    simp [nextTok, hord, h]
  have hprev : (Tok.atom (.sat p)).prev = .other := rfl
  rw [lex, hnext]
  simp only [Option.bind_eq_bind, Option.bind_some, lex_skip, hprev]
  cases lex fl 0 .other cs <;> rfl

/-- `[[:digit:]I]` in a pattern. -/
theorem lex_versionSet (fl : Flavour) (prev : Prev) : ∃ p,
    lex fl 0 prev ('[' :: versionSet) = some [.atom (.sat p)] ∧ ∀ c, p c = isVersion c := by
  rcases bracket_versionSet (show '[' ∉ ['^'] by decide) [] with ⟨p, hp, hversion⟩
  have hlex := @lex_bracket fl p versionSet [] hp prev
  rw [List.append_nil] at hlex
  exact ⟨p, hlex, hversion⟩

/-! ## What `grep` then tests -/

theorem grepLine_of_lex {fl : Flavour} {pat : Text} {rs : List Re}
    (h : lex fl 0 .opening pat = some (rs.map Tok.atom)) (line : Text) :
    grepLine fl pat line = true ↔
      ∃ pre s t, line = pre ++ s ∧ t ∈ (Re.seqAll rs).rests line.length s := by
  rw [grepLine, parseRe_of_atoms h]
  exact Re.found_iff

/-- What the expressions of `word[[:digit:]I]` find. -/
theorem found_version {w : Text} {p : Char → Bool} (hp : ∀ c, p c = isVersion c) (line : Text) :
    (∃ pre s t, line = pre ++ s ∧
      t ∈ (Re.seqAll (w.map Re.lit ++ [.sat p])).rests line.length s) ↔
    ∃ c, isVersion c = true ∧ w ++ [c] <:+: line := by
  simp only [Re.mem_rests_lits, Re.mem_rests_cons, Re.mem_rests_nil, Re.mem_rests_sat, hp]
  refine ⟨?_, ?_⟩
  · rintro ⟨pre, s, t, rfl, u, rfl, v, ⟨c, rfl, hc⟩, rfl⟩
    exact ⟨c, hc, pre, t, by simp⟩
  · rintro ⟨c, hc, pre, t, rfl⟩
    exact ⟨pre, w ++ c :: t, t, by simp, c :: t, rfl, t, ⟨c, rfl, hc⟩, rfl⟩

/-- `grep word[[:digit:]I]` -/
theorem grepLine_version {fl : Flavour} {w : Text} (hw : ∀ c ∈ w, fl.ordinary c = true)
    (line : Text) : grepLine fl (w ++ '[' :: versionSet) line = true ↔
      ∃ c, isVersion c = true ∧ w ++ [c] <:+: line := by
  rcases lex_versionSet fl (if w = [] then .opening else .other) with ⟨p, hlex, hversion⟩
  have hatoms : lex fl 0 .opening (w ++ '[' :: versionSet) =
      some ((w.map Re.lit ++ [Re.sat p]).map Tok.atom) := by
    rw [lex_ordinary hw, hlex]
    simp
  rw [grepLine_of_lex hatoms, found_version hversion]

/-- `grep "\/name\-[[:digit:]I]"` -/
theorem grepLine_escaped_version {w : Text} (hw : ∀ c ∈ w, Flavour.basic.ordinary c = true)
    (line : Text) : grepLine .basic ("\\/".toList ++ (w ++ ("\\-".toList ++ '[' :: versionSet)))
      line = true ↔ ∃ c, isVersion c = true ∧ '/' :: (w ++ ['-', c]) <:+: line := by
  rcases lex_versionSet .basic .other with ⟨p, hlex, hversion⟩
  have hatoms : lex .basic 0 .opening ("\\/".toList ++ (w ++ ("\\-".toList ++ '[' :: versionSet))) =
      some ((('/' :: (w ++ ['-'])).map Re.lit ++ [Re.sat p]).map Tok.atom) := by
    show lex .basic 0 .opening ('\\' :: '/' :: (w ++ '\\' :: '-' :: '[' :: versionSet)) = _
    rw [lex_escaped rfl, lex_ordinary hw, lex_escaped rfl, hlex]
    simp
  rw [grepLine_of_lex hatoms, found_version hversion]
  simp

/-- `grep word` prints the lines that contain `word`. -/
theorem grepLine_ordinary {fl : Flavour} {w : Text} (hw : ∀ c ∈ w, fl.ordinary c = true)
    (line : Text) : grepLine fl w line = true ↔ w <:+: line := by
  rw [grepLine, parseRe_ordinary hw, Re.found_iff]
  constructor
  · rintro ⟨pre, s, t, rfl, ht⟩
    rw [← List.append_nil (w.map Re.lit), Re.mem_rests_lits] at ht
    obtain ⟨u, rfl, -⟩ := ht
    exact ⟨pre, u, by simp⟩
  · rintro ⟨pre, u, rfl⟩
    refine ⟨pre, w ++ u, u, by simp, ?_⟩
    rw [← List.append_nil (w.map Re.lit), Re.mem_rests_lits]
    exact ⟨u, rfl, Re.mem_rests_nil.mpr rfl⟩

/-- `grep ^word$` prints the lines equal to `word`. -/
theorem grepLine_whole {fl : Flavour} {w : Text} (hw : ∀ c ∈ w, fl.ordinary c = true)
    (line : Text) : grepLine fl ('^' :: (w ++ ['$'])) line = true ↔ line = w := by
  have hbol : nextTok fl .opening '^' (w ++ ['$']) = some (.atom .bol, 0) := by
    cases fl <;> simp [nextTok, Flavour.ordinary]
  have heol : ∀ prev, lex fl 0 prev ['$'] = some [.atom .eol] := by
    intro prev
    cases fl <;> cases prev <;> rfl
  have hlex : lex fl 0 .opening ('^' :: (w ++ ['$'])) =
      some ((.bol :: (w.map Re.lit ++ [.eol])).map Tok.atom) := by
    rw [lex_cons hbol, lex_ordinary hw, heol]
    simp
  rw [grepLine_of_lex hlex]
  simp only [Re.mem_rests_cons, Re.mem_rests_bol, Re.mem_rests_lits]
  constructor
  · rintro ⟨pre, s, t, rfl, u, ⟨hlen, rfl⟩, v, rfl, x, hx, -⟩
    have hpre : pre = [] := by simpa using hlen
    rw [hpre, (Re.mem_rests_eol.mp hx).1]
    simp
  · rintro rfl
    refine ⟨[], line, [], rfl, line, ⟨rfl, rfl⟩, [], by simp, [], ?_, Re.mem_rests_nil.mpr rfl⟩
    exact Re.mem_rests_eol.mpr ⟨rfl, rfl⟩

section
variable {w : Text} (hw : ∀ c ∈ w, Flavour.extended.ordinary c = true)
include hw

theorem lex_delimited : lex .extended 0 .opening ("(^|,)".toList ++ w ++ "($|,)".toList) =
    some ([Tok.lpar, .atom .bol, .bar, .atom (.lit ','), .rpar] ++
      ((w.map Re.lit).map Tok.atom ++
        [Tok.lpar, .atom .eol, .bar, .atom (.lit ','), .rpar])) := by
  have hopen : ∀ cs, lex .extended 0 .opening ("(^|,)".toList ++ cs) =
      (lex .extended 0 .other cs).map
        ([Tok.lpar, .atom .bol, .bar, .atom (.lit ','), .rpar] ++ ·) := by
    intro cs
    show lex .extended 0 .opening ('(' :: '^' :: '|' :: ',' :: ')' :: cs) = _
    rw [lex_cons (show nextTok _ _ _ _ = some (.lpar, 0) from rfl),
      lex_cons (show nextTok _ _ _ _ = some (.atom .bol, 0) from rfl),
      lex_cons (show nextTok _ _ _ _ = some (.bar, 0) from rfl),
      lex_cons (show nextTok _ _ _ _ = some (.atom (.lit ','), 0) from rfl),
      lex_cons (show nextTok _ _ _ _ = some (.rpar, 0) from rfl)]
    simp [Function.comp_def, Tok.prev]
  have hclose : ∀ prev, lex .extended 0 prev "($|,)".toList =
      some [.lpar, .atom .eol, .bar, .atom (.lit ','), .rpar] := by
    intro prev
    cases prev <;> rfl
  rw [List.append_assoc, hopen, lex_ordinary hw, hclose]
  simp

/-- The two groups become alternatives, the word a sequence of characters. -/
theorem parseRe_delimited : parseRe .extended ("(^|,)".toList ++ w ++ "($|,)".toList) =
    some (Re.seqAll (Re.alt (Re.seqAll [.bol]) (Re.seqAll [Re.lit ',']) ::
      (w.map Re.lit ++ [Re.alt (Re.seqAll [.eol]) (Re.seqAll [Re.lit ','])]))) := by
  have hopen : [Tok.lpar, .atom .bol, .bar, .atom (.lit ','), .rpar].foldlM parseTok
      [⟨[], []⟩] = some [⟨[], [Re.alt (Re.seqAll [.bol]) (Re.seqAll [Re.lit ','])]⟩] := rfl
  have hclose : ∀ f : Frame, [Tok.lpar, .atom .eol, .bar, .atom (.lit ','), .rpar].foldlM
      parseTok [f] = some [{ f with
        cur := Re.alt (Re.seqAll [.eol]) (Re.seqAll [Re.lit ',']) :: f.cur }] := fun _ => rfl
  rw [parseRe, lex_delimited hw]
  simp only [Option.bind_eq_bind, Option.bind_some, List.foldlM_append, foldlM_atoms, hopen,
    hclose]
  simp [Frame.close, Re.altAll]

/-- `egrep "(^|,)word($|,)"` looks for `word` between commas. -/
theorem grepLine_delimited (line : Text) :
    grepLine .extended ("(^|,)".toList ++ w ++ "($|,)".toList) line = true ↔
      Delimited ',' w line := by
  have hbound : ∀ n (r : Re) (s t : Text),
      t ∈ (Re.alt (Re.seqAll [r]) (Re.seqAll [Re.lit ','])).rests n s ↔
        t ∈ r.rests n s ∨ s = ',' :: t := by
    intro n r s t
    simp [Re.mem_rests_alt, Re.mem_rests_cons, Re.mem_rests_nil, Re.mem_rests_lit]
  rw [grepLine, parseRe_delimited hw]
  simp only [Re.found_iff, Re.mem_rests_cons, hbound, Re.mem_rests_lits, Re.mem_rests_nil,
    Re.mem_rests_bol, Re.mem_rests_eol]
  constructor
  · rintro ⟨pre, s, t, rfl, u, hu, v, rfl, x, hx, -⟩
    have hpost : v = [] ∨ ∃ q, v = ',' :: q := by
      rcases hx with ⟨hv, -⟩ | hv
      · exact Or.inl hv
      · exact Or.inr ⟨x, hv⟩
    rcases hu with ⟨hlen, rfl⟩ | rfl
    · have hpre : pre = [] := by simpa using hlen
      exact ⟨[], v, by simp [hpre], Or.inl rfl, hpost⟩
    · exact ⟨pre ++ [','], v, by simp, Or.inr ⟨pre, rfl⟩, hpost⟩
  · rintro ⟨pre, post, rfl, hpre, hpost⟩
    have hx : ∃ x, (post = [] ∧ x = []) ∨ post = ',' :: x := by
      rcases hpost with h | ⟨q, h⟩
      · exact ⟨[], Or.inl ⟨h, rfl⟩⟩
      · exact ⟨q, Or.inr h⟩
    obtain ⟨x, hx⟩ := hx
    rcases hpre with rfl | ⟨p, rfl⟩
    · exact ⟨[], w ++ post, x, by simp, w ++ post, Or.inl ⟨by simp, rfl⟩, post, rfl, x, hx, rfl⟩
    · exact ⟨p, ',' :: (w ++ post), x, by simp, w ++ post, Or.inr rfl, post, rfl, x, hx, rfl⟩

end

/-! ## Names with dots -/

/-- Every dot of `w` stands for one character of the line, everything else for itself. -/
def dotMatch : Text → Text → Bool
  | [], [] => true
  | a :: w, b :: line => (a == '.' || a == b) && dotMatch w line
  | _, _ => false

theorem dotMatch_self (w : Text) : dotMatch w w = true := by
  induction w with
  | nil => rfl
  | cons a w ih => simp [dotMatch, ih]

theorem dotMatch_ne_nil {w line : Text} (hw : w ≠ []) (h : dotMatch w line = true) :
    line ≠ [] := by
  cases w with
  | nil => exact absurd rfl hw
  | cons a w =>
    cases line with
    | nil => exact absurd h (by simp [dotMatch])
    | cons b line => exact List.cons_ne_nil b line

/-- The expression that one character of a dotted name is read as. -/
def dotItem (c : Char) : Re := if c = '.' then .sat fun _ => true else .lit c

/-- Behind the opening `^` the characters of a dotted name are read one by one. -/
theorem lex_dots {w : Text} (hw : ∀ c ∈ w, c ∉ ['\\', '[', '*']) {prev : Prev}
    (hprev : prev ≠ .opening) :
    lex .basic 0 prev (w ++ ['$']) = some ((w.map dotItem ++ [Re.eol]).map Tok.atom) := by
  induction w generalizing prev with
  | nil =>
    cases prev <;> rfl
  | cons c w ih =>
    have hc : c ≠ '\\' ∧ c ≠ '[' ∧ c ≠ '*' := by simpa using hw c (by simp)
    have htail : ∀ d ∈ w, d ∉ ['\\', '[', '*'] := fun d hd => hw d (by simp [hd])
    have hnext : nextTok .basic prev c (w ++ ['$']) = some (.atom (dotItem c), 0) := by
      unfold nextTok dotItem
      by_cases hdot : c = '.'
      · subst hdot
        simp [Flavour.ordinary]
      by_cases hbol : c = '^'
      · subst hbol
        simp [Flavour.ordinary, hprev]
      by_cases heol : c = '$'
      · -- the `$` that closes the pattern comes later, so this one is an ordinary character
        subst heol
        have h2 : ∀ d, (w ++ ['$']).take 2 ≠ ['\\', d] := by
          intro d h
          cases w with
          | nil => simp at h
          | cons e w =>
            have he : e = '\\' := by simpa using (List.cons.inj h).1
            exact absurd (htail e (by simp)) (by simp [he])
        simp [Flavour.ordinary, h2]
      · simp [Flavour.ordinary, hdot, hbol, heol, hc]
    have hnotOpen : (Tok.atom (dotItem c)).prev ≠ .opening := by
      unfold dotItem
      split_ifs <;> simp [Tok.prev, Re.lit]
    rw [List.cons_append, lex_cons hnext, ih htail hnotOpen]
    rfl

/-- What remains after the dotted name is taken away. -/
theorem mem_rests_dots {n : ℕ} {w : Text} {rs : List Re} {s t : Text} :
    t ∈ (Re.seqAll (w.map dotItem ++ rs)).rests n s ↔
      ∃ v u, s = v ++ u ∧ dotMatch w v = true ∧ t ∈ (Re.seqAll rs).rests n u := by
  induction w generalizing s with
  | nil =>
    constructor
    · intro h
      exact ⟨[], s, rfl, rfl, h⟩
    · rintro ⟨v, u, rfl, hv, ht⟩
      cases v with
      | nil => exact ht
      | cons b v => exact absurd hv (by simp [dotMatch])
  | cons c w ih =>
    have hitem : ∀ x, x ∈ (dotItem c).rests n s ↔ ∃ b, s = b :: x ∧ (c = '.' ∨ c = b) := by
      intro x
      unfold dotItem
      split_ifs with hc
      · simp [Re.mem_rests_sat, hc]
      · rw [Re.mem_rests_lit]
        constructor
        · intro h
          exact ⟨c, h, Or.inr rfl⟩
        · rintro ⟨b, h, h' | h'⟩
          · exact absurd h' hc
          · rw [h', h]
    rw [List.map_cons, List.cons_append, Re.mem_rests_cons]
    constructor
    · rintro ⟨x, hx, ht⟩
      rcases (hitem x).mp hx with ⟨b, rfl, hb⟩
      rcases ih.mp ht with ⟨v, u, rfl, hv, hu⟩
      exact ⟨b :: v, u, rfl, by simpa [dotMatch, hv] using hb, hu⟩
    · rintro ⟨v, u, rfl, hv, ht⟩
      cases v with
      | nil => exact absurd hv (by simp [dotMatch])
      | cons b v =>
        have hbv : (c = '.' ∨ c = b) ∧ dotMatch w v = true := by simpa [dotMatch] using hv
        exact ⟨v ++ u, (hitem _).mpr ⟨b, rfl, hbv.1⟩, ih.mpr ⟨v, u, rfl, hbv.2, ht⟩⟩

/-- What a dotted name between `^` and `$` tests. -/
theorem grepLine_of_dots {fl : Flavour} {w : Text}
    (hlex : lex fl 0 .opening ('^' :: (w ++ ['$'])) =
      some ((Re.bol :: (w.map dotItem ++ [Re.eol])).map Tok.atom)) (line : Text) :
    grepLine fl ('^' :: (w ++ ['$'])) line = true ↔ dotMatch w line = true := by
  rw [grepLine_of_lex hlex]
  simp only [Re.mem_rests_cons, Re.mem_rests_bol, mem_rests_dots]
  constructor
  · rintro ⟨pre, s, t, rfl, x, ⟨hlen, rfl⟩, v, u, rfl, hv, y, hy, -⟩
    have hpre : pre = [] := by simpa using hlen
    rw [hpre, (Re.mem_rests_eol.mp hy).1]
    simpa using hv
  · intro h
    exact ⟨[], line, [], rfl, line, ⟨rfl, rfl⟩, line, [], by simp, h, [],
      Re.mem_rests_eol.mpr ⟨rfl, rfl⟩, Re.mem_rests_nil.mpr rfl⟩

/-- `grep ^name$` when only the dots of the name have a meaning of their own. -/
theorem grepLine_dots {w : Text} (hw : ∀ c ∈ w, c ∉ ['\\', '[', '*']) (line : Text) :
    grepLine .basic ('^' :: (w ++ ['$'])) line = true ↔ dotMatch w line = true := by
  have hbol : nextTok .basic .opening '^' (w ++ ['$']) = some (.atom .bol, 0) := by
    simp [nextTok, Flavour.ordinary]
  refine grepLine_of_dots ?_ line
  rw [lex_cons hbol, lex_dots hw (by decide)]
  rfl

/-- In the extended notation `$` is always an anchor. -/
theorem lex_extended_dots {w : Text} (hw : ∀ c ∈ w, Flavour.extended.ordinary c = true ∨ c = '.')
    (prev : Prev) :
    lex .extended 0 prev (w ++ ['$']) = some ((w.map dotItem ++ [Re.eol]).map Tok.atom) := by
  induction w generalizing prev with
  | nil =>
    cases prev <;> rfl
  | cons c w ih =>
    have hnext : nextTok .extended prev c (w ++ ['$']) = some (.atom (dotItem c), 0) := by
      rcases hw c List.mem_cons_self with hc | rfl
      · have hdot : c ≠ '.' := by
          rintro rfl
          exact absurd hc (by decide)
        rw [nextTok_of_ordinary hc, dotItem, if_neg hdot]
      · simp [nextTok, Flavour.ordinary, dotItem]
    rw [List.cons_append, lex_cons hnext, ih fun d hd => hw d (List.mem_cons_of_mem c hd)]
    rfl

/-- `egrep ^name$` -/
theorem grepLine_extended_dots {w : Text}
    (hw : ∀ c ∈ w, Flavour.extended.ordinary c = true ∨ c = '.') (line : Text) :
    grepLine .extended ('^' :: (w ++ ['$'])) line = true ↔ dotMatch w line = true := by
  have hbol : nextTok .extended .opening '^' (w ++ ['$']) = some (.atom .bol, 0) := by
    simp [nextTok, Flavour.ordinary]
  refine grepLine_of_dots ?_ line
  rw [lex_cons hbol, lex_extended_dots hw]
  rfl

theorem dotMatch_length {w line : Text} (h : dotMatch w line = true) : w.length = line.length := by
  induction w generalizing line with
  | nil =>
    cases line with
    | nil => rfl
    | cons b line => exact absurd h (by simp [dotMatch])
  | cons a w ih =>
    cases line with
    | nil => exact absurd h (by simp [dotMatch])
    | cons b line =>
      have hrest : dotMatch w line = true := by
        simp only [dotMatch, Bool.and_eq_true] at h
        exact h.2
      rw [List.length_cons, List.length_cons, ih hrest]

theorem dotMatch_append {v w s t : Text} (h : v.length = s.length) :
    dotMatch (v ++ w) (s ++ t) = (dotMatch v s && dotMatch w t) := by
  induction v generalizing s with
  | nil =>
    cases s with
    | nil => simp [dotMatch]
    | cons b s => simp at h
  | cons a v ih =>
    cases s with
    | nil => simp at h
    | cons b s => simp [dotMatch, ih (by simpa using h), Bool.and_assoc]

/-- Without dots only the name itself matches. -/
theorem dotMatch_eq_true_iff {w line : Text} (hw : '.' ∉ w) : dotMatch w line = true ↔ line = w := by
  refine ⟨fun h => ?_, fun h => h ▸ dotMatch_self w⟩
  induction w generalizing line with
  | nil =>
    cases line with
    | nil => rfl
    | cons b line => exact absurd h (by simp [dotMatch])
  | cons a w ih =>
    cases line with
    | nil => exact absurd h (by simp [dotMatch])
    | cons b line =>
      rw [List.mem_cons, not_or] at hw
      simp only [dotMatch, Bool.and_eq_true, Bool.or_eq_true, beq_iff_eq] at h
      obtain ⟨ha | ha, hrest⟩ := h
      · exact absurd ha.symm hw.1
      · rw [ih hw.2 hrest, ha]

end Shell
