import Backpack.Shell.Commands
import Backpack.Shell.Sed

/-!
# The kernel command line

`cmdline_value` and `cmdline_parameter` look for a token of `/proc/cmdline`. Both are made of
`egrep_o`, which leaves of each line the last text that a pattern matches.
-/

namespace Backpack.Boot

open Shell

/-! ## The functions of `liblinuxlive` -/

/-- `cat | egrep "$1" | sed -r "s/.*($1).*/\\1/"` -/
def egrepO (pat t : Text) : Text := unlines ((grep .extended pat t).map (sedLast pat))

def tokenStart : Text := "(^|[[:space:]]+)".toList

def tokenEnd : Text := "($|=|[[:space:]]+)".toList

def equalsValue : Text := "=([^[:space:]]+)".toList

def equalsAny : Text := "=.*".toList

/-- The output of `cmdline_parameter name file`, where `t` is in the file. -/
def cmdlineParameter (name t : Text) : Text :=
  egrepO name (egrepO (tokenStart ++ name ++ tokenEnd) t)

/-- The output of `cmdline_value name file`: `cut -b 2-` and `tail -n 1` come after the two calls
of `egrep_o`. -/
def cmdlineValue (name t : Text) : Text :=
  unlines (((fileLines (egrepO equalsAny (egrepO (tokenStart ++ name ++ equalsValue) t))).map
    (·.drop 1)).getLast?.toList)

/-! ## Tokens -/

/-- The parts of a line between white space. -/
def tokens (line : Text) : List Text := (line.splitOnP isSpace).filter (· ≠ [])

/-- The value of a token `name=v`. -/
def valueOf (name token : Text) : Option Text :=
  if name ++ ['='] <+: token ∧ token.drop (name.length + 1) ≠ [] then
    some (token.drop (name.length + 1))
  else none

/-- The token is the name or begins with `name=`. -/
def isParameter (name token : Text) : Prop := token = name ∨ name ++ ['='] <+: token

instance (name token : Text) : Decidable (isParameter name token) :=
  inferInstanceAs (Decidable (_ ∨ _))

/-- Letters, digits and underscores. -/
def IsName (name : Text) : Prop := ∀ c ∈ name, c.isAlphanum = true ∨ c = '_'

instance (name : Text) : Decidable (IsName name) := inferInstanceAs (Decidable (∀ c ∈ name, _))

/-! ## Reading the patterns -/

/-- No character of a name is special in a pattern. -/
theorem IsName.ordinary {name : Text} (h : IsName name) {c : Char} (hc : c ∈ name) :
    Flavour.extended.ordinary c = true := by
  rcases h c hc with h | rfl
  · exact ordinary_of_isAlphanum h
  · rfl

/-- `[[:space:]]` in a pattern. -/
theorem lex_spaceSet (prev : Prev) (cs : Text) :
    lex .extended 0 prev ('[' :: (spaceSet ++ cs)) =
      (lex .extended 0 .other cs).map (.atom (.sat isSpace) :: ·) := by
  rcases bracket_spaceSet (show '[' ∉ ['^'] by decide) cs with ⟨p, hp, hspace⟩
  obtain rfl : p = isSpace := funext hspace
  exact lex_bracket hp prev

/-- `[^[:space:]]` in a pattern. -/
theorem lex_nonSpaceSet (prev : Prev) (cs : Text) :
    lex .extended 0 prev ('[' :: (nonSpaceSet ++ cs)) =
      (lex .extended 0 .other cs).map (.atom (.sat fun c => !isSpace c) :: ·) := by
  rcases bracket_nonSpaceSet (show '^' ∈ ['^'] by decide) cs with ⟨p, hp, hspace⟩
  obtain rfl : p = fun c => !isSpace c := funext hspace
  exact lex_bracket hp prev

/-- The group in front of the name. -/
theorem lex_tokenStart (cs : Text) : lex .extended 0 .opening (tokenStart ++ cs) =
    (lex .extended 0 .other cs).map
      ([.lpar, .atom .bol, .bar, .atom (.sat isSpace), .plus, .rpar] ++ ·) := by
  have htext : tokenStart ++ cs = '(' :: '^' :: '|' :: '[' :: (spaceSet ++ '+' :: ')' :: cs) := rfl
  rw [htext, lex_cons (show nextTok _ _ _ _ = some (.lpar, 0) from rfl),
    lex_cons (show nextTok _ _ _ _ = some (.atom .bol, 0) from rfl),
    lex_cons (show nextTok _ _ _ _ = some (.bar, 0) from rfl), lex_spaceSet,
    lex_cons (show nextTok _ _ _ _ = some (.plus, 0) from rfl),
    lex_cons (show nextTok _ _ _ _ = some (.rpar, 0) from rfl)]
  simp [Function.comp_def, Tok.prev]

/-- The tokens of the pattern after the name. -/
theorem lex_equalsValue (prev : Prev) : lex .extended 0 prev equalsValue =
    some [.atom (.lit '='), .lpar, .atom (.sat fun c => !isSpace c), .plus, .rpar] := by
  have htext : equalsValue = '=' :: '(' :: '[' :: (nonSpaceSet ++ ['+', ')']) := rfl
  rw [htext, lex_cons (show nextTok _ _ _ _ = some (.atom (.lit '='), 0) from rfl),
    lex_cons (show nextTok _ _ _ _ = some (.lpar, 0) from rfl), lex_nonSpaceSet]
  rfl

/-- The tokens of the pattern at the end of a parameter. -/
theorem lex_tokenEnd (prev : Prev) : lex .extended 0 prev tokenEnd =
    some [.lpar, .atom .eol, .bar, .atom (.lit '='), .bar, .atom (.sat isSpace), .plus,
      .rpar] := by
  have htext : tokenEnd = '(' :: '$' :: '|' :: '=' :: '|' :: '[' :: (spaceSet ++ ['+', ')']) := rfl
  rw [htext, lex_cons (show nextTok _ _ _ _ = some (.lpar, 0) from rfl),
    lex_cons (show nextTok _ _ _ _ = some (.atom .eol, 0) from rfl),
    lex_cons (show nextTok _ _ _ _ = some (.bar, 0) from rfl),
    lex_cons (show nextTok _ _ _ _ = some (.atom (.lit '='), 0) from rfl),
    lex_cons (show nextTok _ _ _ _ = some (.bar, 0) from rfl), lex_spaceSet]
  rfl

/-- `[[:space:]]+` and its like -/
def someOf (p : Char → Bool) : Re := .seq (.sat p) (.star (.sat p))

/-- `(^|[[:space:]]+)` -/
def beforeToken : Re := .alt (Re.seqAll [.bol]) (Re.seqAll [someOf isSpace])

/-- `=([^[:space:]]+)`, behind the name -/
def nameAndValue (name : Text) : Re :=
  Re.seqAll (name.map Re.lit ++ [Re.lit '=', Re.seqAll [someOf fun c => !isSpace c]])

/-- `($|=|[[:space:]]+)`, behind the name -/
def nameAndEnd (name : Text) : Re :=
  Re.seqAll (name.map Re.lit ++ [.alt (Re.seqAll [.eol])
    (.alt (Re.seqAll [Re.lit '=']) (Re.seqAll [someOf isSpace]))])

section

variable {name : Text} (h : IsName name)
include h

/-- The pattern of `cmdline_value` as an expression. -/
theorem parseRe_value : parseRe .extended (tokenStart ++ name ++ equalsValue) =
    some (.seq beforeToken (nameAndValue name)) := by
  have hopen : [Tok.lpar, .atom .bol, .bar, .atom (.sat isSpace), .plus, .rpar].foldlM parseTok
      [⟨[], []⟩] = some [⟨[], [beforeToken]⟩] := rfl
  have hvalue : ∀ f : Frame, [Tok.atom (.lit '='), .lpar, .atom (.sat fun c => !isSpace c), .plus,
      .rpar].foldlM parseTok [f] = some [{ f with
        cur := Re.seqAll [someOf fun c => !isSpace c] :: Re.lit '=' :: f.cur }] := fun _ => rfl
  have hlex : lex .extended 0 .opening (tokenStart ++ name ++ equalsValue) = some
      ([Tok.lpar, .atom .bol, .bar, .atom (.sat isSpace), .plus, .rpar] ++
        ((name.map Re.lit).map Tok.atom ++
          [Tok.atom (.lit '='), .lpar, .atom (.sat fun c => !isSpace c), .plus, .rpar])) := by
    rw [List.append_assoc, lex_tokenStart, lex_ordinary fun c hc => h.ordinary hc, lex_equalsValue]
    simp
  rw [parseRe, hlex]
  simp only [Option.bind_eq_bind, Option.bind_some, List.foldlM_append, foldlM_atoms, hopen,
    hvalue]
  simp [Frame.close, Re.altAll, nameAndValue, Re.seqAll]

/-- The pattern of `cmdline_parameter` as an expression. -/
theorem parseRe_parameter : parseRe .extended (tokenStart ++ name ++ tokenEnd) =
    some (.seq beforeToken (nameAndEnd name)) := by
  have hopen : [Tok.lpar, .atom .bol, .bar, .atom (.sat isSpace), .plus, .rpar].foldlM parseTok
      [⟨[], []⟩] = some [⟨[], [beforeToken]⟩] := rfl
  have hend : ∀ f : Frame, [Tok.lpar, .atom .eol, .bar, .atom (.lit '='), .bar,
      .atom (.sat isSpace), .plus, .rpar].foldlM parseTok [f] = some [{ f with
        cur := .alt (Re.seqAll [.eol]) (.alt (Re.seqAll [Re.lit '='])
          (Re.seqAll [someOf isSpace])) :: f.cur }] := fun _ => rfl
  have hlex : lex .extended 0 .opening (tokenStart ++ name ++ tokenEnd) = some
      ([Tok.lpar, .atom .bol, .bar, .atom (.sat isSpace), .plus, .rpar] ++
        ((name.map Re.lit).map Tok.atom ++
          [Tok.lpar, .atom .eol, .bar, .atom (.lit '='), .bar, .atom (.sat isSpace), .plus,
            .rpar])) := by
    rw [List.append_assoc, lex_tokenStart, lex_ordinary fun c hc => h.ordinary hc, lex_tokenEnd]
    simp
  rw [parseRe, hlex]
  simp only [Option.bind_eq_bind, Option.bind_some, List.foldlM_append, foldlM_atoms, hopen, hend]
  simp [Frame.close, Re.altAll, nameAndEnd, Re.seqAll]

end

/-! ## What the patterns match -/

/-- Before a token there is the start of the line, or space. -/
theorem mem_rests_beforeToken {n : ℕ} {s u : Text} : u ∈ beforeToken.rests n s ↔
    (s.length = n ∧ u = s) ∨ ∃ w : Text, w ≠ [] ∧ (∀ c ∈ w, isSpace c = true) ∧ s = w ++ u := by
  simp [beforeToken, someOf, Re.mem_rests_alt, Re.mem_rests_cons, Re.mem_rests_nil,
    Re.mem_rests_bol, Re.mem_rests_plus_sat]

/-- A value is what stands after the sign, up to the space. -/
theorem mem_rests_nameAndValue {name : Text} {n : ℕ} {u t : Text} :
    t ∈ (nameAndValue name).rests n u ↔
      ∃ v : Text, v ≠ [] ∧ (∀ c ∈ v, isSpace c = false) ∧ u = name ++ '=' :: (v ++ t) := by
  simp only [nameAndValue, someOf, Re.mem_rests_lits, Re.mem_rests_cons, Re.mem_rests_nil,
    Re.mem_rests_lit, Re.mem_rests_plus_sat, Bool.not_eq_true']
  constructor
  · rintro ⟨_, rfl, _, rfl, _, ⟨_, ⟨v, hne, hv, rfl⟩, rfl⟩, rfl⟩
    exact ⟨v, hne, hv, rfl⟩
  · rintro ⟨v, hne, hv, rfl⟩
    exact ⟨_, rfl, _, rfl, t, ⟨t, ⟨v, hne, hv, rfl⟩, rfl⟩, rfl⟩

/-- A parameter ends at the line's end, at a sign or at space. -/
theorem mem_rests_nameAndEnd {name : Text} {n : ℕ} {u t : Text} :
    t ∈ (nameAndEnd name).rests n u ↔ (u = name ∧ t = []) ∨ u = name ++ '=' :: t ∨
      ∃ w : Text, w ≠ [] ∧ (∀ c ∈ w, isSpace c = true) ∧ u = name ++ (w ++ t) := by
  simp only [nameAndEnd, someOf, Re.mem_rests_lits, Re.mem_rests_cons, Re.mem_rests_nil,
    Re.mem_rests_alt, Re.mem_rests_eol, Re.mem_rests_lit, Re.mem_rests_plus_sat]
  constructor
  · rintro ⟨_, rfl, _, ⟨_, ⟨rfl, rfl⟩, rfl⟩ | ⟨_, rfl, rfl⟩ | ⟨_, ⟨w, hne, hw, rfl⟩, rfl⟩, rfl⟩
    · exact Or.inl ⟨List.append_nil name, rfl⟩
    · exact Or.inr (Or.inl rfl)
    · exact Or.inr (Or.inr ⟨w, hne, hw, rfl⟩)
  · rintro (⟨rfl, rfl⟩ | rfl | ⟨w, hne, hw, rfl⟩)
    · exact ⟨[], by simp, [], Or.inl ⟨[], ⟨rfl, rfl⟩, rfl⟩, rfl⟩
    · exact ⟨_, rfl, t, Or.inr (Or.inl ⟨t, rfl, rfl⟩), rfl⟩
    · exact ⟨_, rfl, t, Or.inr (Or.inr ⟨t, ⟨w, hne, hw, rfl⟩, rfl⟩), rfl⟩

/-! ## The first piece of a text -/

/-- `u` begins with the piece `p`, and white space or nothing follows. -/
structure FirstPiece (p rest u : Text) : Prop where
  text : u = p ++ rest
  piece : ∀ c ∈ p, isSpace c = false
  stops : ∀ c ∈ rest.head?, isSpace c = true

/-- The first word of a line is what stands before its first space. -/
theorem firstPiece_of_splitOnP {u p : Text} {ps : List Text} (h : u.splitOnP isSpace = p :: ps) :
    ∃ rest, FirstPiece p rest u := by
  induction u generalizing p ps with
  | nil =>
    obtain ⟨rfl, -⟩ : p = [] ∧ ps = [] := by simpa [List.splitOnP_nil] using h.symm
    exact ⟨[], rfl, by simp, by simp⟩
  | cons c u ih =>
    rw [List.splitOnP_cons_eq_if_modifyHead] at h
    split_ifs at h with hc
    · obtain ⟨rfl, -⟩ := List.cons.inj h
      exact ⟨c :: u, rfl, by simp, by simpa using hc⟩
    · cases hu : u.splitOnP isSpace with
      | nil => exact absurd hu (List.splitOnP_ne_nil _ _)
      | cons q qs =>
        rw [hu, List.modifyHead_cons] at h
        obtain ⟨rfl, -⟩ := List.cons.inj h
        obtain ⟨rest, htext, hpiece, hstops⟩ := ih hu
        refine ⟨rest, by rw [htext]; rfl, ?_, hstops⟩
        intro d hd
        rcases List.mem_cons.mp hd with rfl | hd
        · simpa using hc
        · exact hpiece d hd

/-- A text without white space that `u` begins with is a part of the first piece. -/
theorem FirstPiece.prefix_iff {p rest u : Text} (h : FirstPiece p rest u) {w t : Text}
    (hw : ∀ c ∈ w, isSpace c = false) : u = w ++ t ↔ ∃ y, p = w ++ y ∧ t = y ++ rest := by
  obtain ⟨rfl, hpiece, hstops⟩ := h
  constructor
  · intro heq
    rcases List.append_eq_append_iff.mp heq with ⟨y, rfl, hrest⟩ | ⟨y, rfl, rfl⟩
    · cases y with
      | nil => exact ⟨[], by simp, hrest.symm⟩
      | cons c y =>
        have hspace : isSpace c = true := hstops c (by simp [hrest])
        exact absurd (hw c (by simp)) (by simp [hspace])
    · exact ⟨y, rfl, rfl⟩
  · rintro ⟨y, rfl, rfl⟩
    exact List.append_assoc w y rest

/-! ## The last piece of a line -/

/-- The last hit of a list is the last one of its tail, or the first element's. -/
theorem getLast?_filterMap_cons {α β : Type} (f : α → Option β) (a : α) (l : List α) :
    ((a :: l).filterMap f).getLast? = ((l.filterMap f).getLast?).or (f a) := by
  cases hf : f a with
  | none => rw [List.filterMap_cons_none hf, Option.or_none]
  | some b =>
    rw [List.filterMap_cons_some hf, List.getLast?_cons]
    cases (l.filterMap f).getLast? <;> rfl

section

variable {n : ℕ} {r : Re} (hspace : ∀ c s t, isSpace c = true → t ∉ r.rests n (c :: s))

include hspace in
/-- One white space character and no match further on: the rest stands right behind it. -/
theorem mem_rests_behind_space {c : Char} {s : Text} (hc : isSpace c = true)
    (hs : (Re.seq beforeToken r).lastMatch n s = none) (t : Text) :
    t ∈ (Re.seq beforeToken r).rests n (c :: s) ↔ t ∈ r.rests n s := by
  rw [Re.mem_rests_seq]
  constructor
  · rintro ⟨u, hu, ht⟩
    rcases mem_rests_beforeToken.mp hu with ⟨-, rfl⟩ | ⟨w, hne, hw, hsplit⟩
    · exact absurd ht (hspace c s t hc)
    · cases w with
      | nil => exact absurd rfl hne
      | cons d w =>
        obtain ⟨-, rfl⟩ := List.cons.inj hsplit
        cases w with
        | nil => exact ht
        | cons e w =>
          -- with more white space the match would begin later
          have hlater : u ∈ beforeToken.rests n (e :: w ++ u) :=
            mem_rests_beforeToken.mpr (Or.inr ⟨e :: w, List.cons_ne_nil _ _,
              (List.forall_mem_cons.mp hw).2, rfl⟩)
          exact absurd (Re.mem_rests_seq.mpr ⟨u, hlater, ht⟩)
            (Re.lastMatch_eq_none_iff.mp hs _ t (List.suffix_refl _))
  · intro ht
    have hbefore : s ∈ beforeToken.rests n (c :: s) :=
      mem_rests_beforeToken.mpr (Or.inr ⟨[c], List.cons_ne_nil _ _, by simpa using hc, rfl⟩)
    exact ⟨s, hbefore, ht⟩

/-- Without white space in front only the beginning of the line is left. -/
theorem mem_rests_no_space {c : Char} {s : Text} (hc : isSpace c = false) (t : Text) :
    t ∈ (Re.seq beforeToken r).rests n (c :: s) ↔
      (c :: s).length = n ∧ t ∈ r.rests n (c :: s) := by
  rw [Re.mem_rests_seq]
  constructor
  · rintro ⟨u, hu, ht⟩
    rcases mem_rests_beforeToken.mp hu with ⟨hlen, rfl⟩ | ⟨w, hne, hw, hsplit⟩
    · exact ⟨hlen, ht⟩
    · cases w with
      | nil => exact absurd rfl hne
      | cons d w =>
        obtain ⟨rfl, -⟩ := List.cons.inj hsplit
        exact absurd (hw c (by simp)) (by simp [hc])
  · rintro ⟨hlen, ht⟩
    exact ⟨c :: s, mem_rests_beforeToken.mpr (Or.inl ⟨hlen, rfl⟩), ht⟩

/-- From the right: the last piece that `g` accepts is the one that is found. The first piece
counts only at the beginning of the line, where no white space stands before it. -/
theorem lastMatch_pieces {β : Type} {f : Text → β} {g : Text → Option β} {s : Text}
    (hspace : ∀ c s t, isSpace c = true → t ∉ r.rests n (c :: s)) (hnil : ∀ t, t ∉ r.rests n [])
    (hg : g [] = none)
    (hfirst : ∀ pre p rest u, FirstPiece p rest u →
      (∀ t, t ∈ (Re.seq beforeToken r).rests n (pre ++ u) ↔ t ∈ r.rests n u) →
        ((Re.seq beforeToken r).matchAt n (pre ++ u)).map f = g p)
    (hs : s.length ≤ n) :
    ((Re.seq beforeToken r).lastMatch n s).map f =
      ((if s.length = n then s.splitOnP isSpace else (s.splitOnP isSpace).tail).filterMap
        g).getLast? := by
  induction s with
  | nil =>
    have hnone : (Re.seq beforeToken r).matchAt n [] = none := by
      rw [Re.matchAt_eq_none_iff]
      intro t ht
      obtain ⟨u, hu, ht⟩ := Re.mem_rests_seq.mp ht
      rw [List.suffix_nil.mp (Re.rests_suffix _ n _ u hu)] at ht
      exact hnil t ht
    have hvalues : (if ([] : Text).length = n then ([] : Text).splitOnP isSpace
        else (([] : Text).splitOnP isSpace).tail).filterMap g = [] := by
      rw [List.splitOnP_nil]
      split_ifs <;> simp [hg]
    rw [Re.lastMatch, hnone, hvalues]
    rfl
  | cons c s ih =>
    have hlt : s.length < n := hs
    specialize ih hlt.le
    rw [if_neg hlt.ne] at ih
    cases hps : s.splitOnP isSpace with
    | nil => exact absurd hps (List.splitOnP_ne_nil _ _)
    | cons p qs =>
      rw [hps, List.tail_cons] at ih
      obtain ⟨rest, hpiece⟩ := firstPiece_of_splitOnP hps
      rw [Re.lastMatch]
      by_cases hc : isSpace c = true
      · have hpieces : (c :: s).splitOnP isSpace = [] :: p :: qs := by
          rw [List.splitOnP_cons_eq_if_modifyHead, if_pos hc, hps]
        have hvalues : (if (c :: s).length = n then [] :: p :: qs else (p :: qs)).filterMap g =
            (p :: qs).filterMap g := by
          split_ifs
          · exact List.filterMap_cons_none hg
          · rfl
        rw [hpieces, List.tail_cons, hvalues, getLast?_filterMap_cons, Option.map_or, ih]
        cases hlast : (Re.seq beforeToken r).lastMatch n s with
        | some m =>
          rw [hlast, Option.map_some] at ih
          rw [← ih, Option.some_or, Option.some_or]
        | none =>
          have hmatch := hfirst [c] p rest s hpiece (mem_rests_behind_space hspace hc hlast)
          rw [List.singleton_append] at hmatch
          rw [hmatch]
      · rw [Bool.not_eq_true] at hc
        have hpieces : (c :: s).splitOnP isSpace = (c :: p) :: qs := by
          rw [List.splitOnP_cons_eq_if_modifyHead, if_neg (by simp [hc]), hps, List.modifyHead_cons]
        rw [hpieces, List.tail_cons, Option.map_or, ih]
        by_cases hlen : (c :: s).length = n
        · have hcons : FirstPiece (c :: p) rest (c :: s) :=
            ⟨by rw [hpiece.text]; rfl, List.forall_mem_cons.mpr ⟨hc, hpiece.piece⟩, hpiece.stops⟩
          have hmatch := hfirst [] (c :: p) rest (c :: s) hcons
            fun t => by simp [mem_rests_no_space hc, hlen]
          rw [List.nil_append] at hmatch
          rw [if_pos hlen, getLast?_filterMap_cons, hmatch]
        · have hnone : (Re.seq beforeToken r).matchAt n (c :: s) = none := by
            rw [Re.matchAt_eq_none_iff]
            intro t ht
            exact hlen ((mem_rests_no_space hc t).mp ht).1
          rw [if_neg hlen, hnone, Option.map_none, Option.or_none]

/-- A search over a whole line sees all its pieces. -/
theorem lastMatch_line {β : Type} {f : Text → β} {g : Text → Option β} {line : Text}
    (hspace : ∀ c s t, isSpace c = true → t ∉ r.rests line.length (c :: s))
    (hnil : ∀ t, t ∉ r.rests line.length []) (hg : g [] = none)
    (hfirst : ∀ pre p rest u, FirstPiece p rest u →
      (∀ t, t ∈ (Re.seq beforeToken r).rests line.length (pre ++ u) ↔
        t ∈ r.rests line.length u) →
          ((Re.seq beforeToken r).matchAt line.length (pre ++ u)).map f = g p) :
    ((Re.seq beforeToken r).lastMatch line.length line).map f =
      ((tokens line).filterMap g).getLast? := by
  rw [lastMatch_pieces hspace hnil hg hfirst (Nat.le_refl _), if_pos rfl, tokens]
  congr 1
  induction line.splitOnP isSpace with
  | nil => rfl
  | cons p ps ih =>
    by_cases hp : p = []
    · rw [hp, List.filterMap_cons_none hg, ih, List.filter_cons_of_neg (by simp)]
    · rw [List.filter_cons_of_pos (by simpa using hp), List.filterMap_cons, List.filterMap_cons, ih]

end

/-! ## Values -/

/-- A name has no space in it. -/
theorem IsName.noSpace {name : Text} (h : IsName name) {c : Char} (hc : c ∈ name) :
    isSpace c = false := by
  rw [Bool.eq_false_iff]
  intro hspace
  rcases h c hc with halnum | rfl
  · simp only [isSpace, Bool.or_eq_true, beq_iff_eq, Bool.and_eq_true, decide_eq_true_eq,
      Char.isAlphanum, Char.isAlpha, Char.isUpper, Char.isLower, Char.isDigit, Char.le_def,
      UInt32.le_iff_toNat_le] at hspace halnum
    rcases hspace with rfl | hspace
    · simp at halnum
    · simp at hspace halnum
      omega
  · exact absurd hspace (by decide)

/-- The value of a word that is the name, a sign and something. -/
theorem valueOf_eq_some_iff {name p v : Text} :
    valueOf name p = some v ↔ p = name ++ '=' :: v ∧ v ≠ [] := by
  have hdrop : ∀ w : Text, (name ++ '=' :: w).drop (name.length + 1) = w := by
    intro w
    simp
  unfold valueOf
  constructor
  · intro h
    split_ifs at h with hp
    obtain ⟨⟨w, rfl⟩, hne⟩ := hp
    rw [List.append_assoc, List.singleton_append, hdrop] at h hne
    obtain rfl := Option.some.inj h
    exact ⟨by simp, hne⟩
  · rintro ⟨rfl, hne⟩
    rw [hdrop, if_pos ⟨⟨v, by simp⟩, hne⟩]

theorem valueOf_nil (name : Text) : valueOf name [] = none := by
  rw [Option.eq_none_iff_forall_ne_some]
  intro v h
  simpa using (valueOf_eq_some_iff.mp h).1

/-- What stands behind the last `=`. -/
def lastValue (t : Text) : Text := (t.splitOn '=').getLastD []

/-- What stands before a sign is cut off. -/
theorem lastValue_append (s v : Text) : lastValue (s ++ '=' :: v) = lastValue v := by
  cases hv : v.splitOn '=' with
  | nil => exact absurd hv (List.splitOn_ne_nil _ _)
  | cons p ps => simp [lastValue, List.splitOn_append_cons_self, hv, List.getLast?_cons]

/-- After the last sign there is none. -/
theorem equals_not_mem_lastValue (t : Text) : '=' ∉ lastValue t := by
  rw [lastValue, List.getLastD_eq_getLast?]
  cases hlast : (t.splitOn '=').getLast? with
  | none => exact List.not_mem_nil
  | some w => exact not_mem_of_mem_splitOn (List.mem_of_getLast? hlast)

/-- A text without a sign is kept. -/
theorem lastValue_eq_self_iff {v : Text} : lastValue v = v ↔ '=' ∉ v := by
  refine ⟨fun h => h ▸ equals_not_mem_lastValue v, fun h => ?_⟩
  rw [lastValue, List.splitOn_eq_singleton h]
  rfl

/-- A text with a sign ends with the sign and its last value. -/
theorem eq_append_lastValue {t : Text} (h : '=' ∈ t) :
    ∃ a, t = a ++ '=' :: lastValue t ∧ '=' ∉ lastValue t := by
  obtain ⟨b, a, hrev, hb⟩ := List.eq_append_cons_of_mem (List.mem_reverse.mpr h)
  obtain rfl : t = a.reverse ++ '=' :: b.reverse := by
    rw [← List.reverse_reverse t, hrev]
    simp
  have hlast : lastValue (a.reverse ++ '=' :: b.reverse) = b.reverse := by
    rw [lastValue_append, lastValue_eq_self_iff.mpr (by simpa using hb)]
  exact ⟨a.reverse, by rw [hlast], equals_not_mem_lastValue _⟩

/-- Where the name may stand at the beginning of `u`, the expression takes all of the first
piece. -/
theorem matchAt_of_firstPiece {r : Re} {n : ℕ} {name pre p rest u : Text}
    (hname : ∀ c ∈ name, isSpace c = false) (hfirst : FirstPiece p rest u)
    (hstart : ∀ t, t ∈ r.rests n (pre ++ u) ↔ t ∈ (nameAndValue name).rests n u) :
    r.matchAt n (pre ++ u) = (valueOf name p).map fun v => pre ++ name ++ '=' :: v := by
  have hequals : ∀ v : Text, (∀ c ∈ v, isSpace c = false) →
      ∀ c ∈ name ++ '=' :: v, isSpace c = false := by
    intro v hv c hc
    rcases List.mem_append.mp hc with hc | hc
    · exact hname c hc
    · rcases List.mem_cons.mp hc with rfl | hc
      · rfl
      · exact hv c hc
  have hrests : ∀ t, t ∈ r.rests n (pre ++ u) ↔ ∃ v y : Text, v ≠ [] ∧
      p = name ++ '=' :: (v ++ y) ∧ t = y ++ rest := by
    intro t
    rw [hstart, mem_rests_nameAndValue]
    constructor
    · rintro ⟨v, hne, hv, hu⟩
      have hu' : u = (name ++ '=' :: v) ++ t := by simp [hu]
      obtain ⟨y, rfl, rfl⟩ := (hfirst.prefix_iff (hequals v hv)).mp hu'
      exact ⟨v, y, hne, by simp, rfl⟩
    · rintro ⟨v, y, hne, rfl, rfl⟩
      refine ⟨v, hne, fun c hc => hfirst.piece c (by simp [hc]), ?_⟩
      rw [hfirst.text]
      simp
  cases hv : valueOf name p with
  | none =>
    rw [Option.map_none, Re.matchAt_eq_none_iff]
    intro t ht
    obtain ⟨v, y, hne, rfl, -⟩ := (hrests t).mp ht
    have hsome : valueOf name (name ++ '=' :: (v ++ y)) = some (v ++ y) :=
      valueOf_eq_some_iff.mpr ⟨rfl, List.append_ne_nil_of_left_ne_nil hne y⟩
    exact absurd (hv.symm.trans hsome) (by simp)
  | some v =>
    obtain ⟨rfl, hne⟩ := valueOf_eq_some_iff.mp hv
    have htext : pre ++ u = (pre ++ name ++ '=' :: v) ++ rest := by
      rw [hfirst.text]
      simp
    rw [htext] at hrests ⊢
    refine Re.matchAt_of_longest ((hrests rest).mpr ⟨v, [], hne, by simp, rfl⟩) ?_
    intro t ht
    obtain ⟨_, y, -, -, rfl⟩ := (hrests t).mp ht
    simp

/-- No value is found at a space. -/
theorem not_mem_rests_value_space {name : Text} (hname : IsName name) {n : ℕ} (c : Char)
    (s t : Text) (hc : isSpace c = true) : t ∉ (nameAndValue name).rests n (c :: s) := by
  intro ht
  obtain ⟨v, -, -, hcs⟩ := mem_rests_nameAndValue.mp ht
  cases name with
  | nil =>
    obtain ⟨rfl, -⟩ := List.cons.inj hcs
    exact absurd hc (by decide)
  | cons d name =>
    obtain ⟨rfl, -⟩ := List.cons.inj hcs
    exact absurd (hname.noSpace (List.mem_cons_self)) (by simp [hc])

/-- The first call of `egrep_o` finds the last token with a value. -/
theorem lastMatch_value {name : Text} (hname : IsName name) (line : Text) :
    ((Re.seq beforeToken (nameAndValue name)).lastMatch line.length line).map lastValue =
      (((tokens line).filterMap (valueOf name)).getLast?).map lastValue := by
  rw [← List.getLast?_map, List.map_filterMap]
  refine lastMatch_line (not_mem_rests_value_space hname) ?_ ?_ ?_
  · intro t ht
    obtain ⟨v, -, -, h⟩ := mem_rests_nameAndValue.mp ht
    simp at h
  · rw [valueOf_nil, Option.map_none]
  · intro pre p rest u hfirst hstart
    rw [matchAt_of_firstPiece (fun c hc => hname.noSpace hc) hfirst hstart]
    cases valueOf name p with
    | none => rfl
    | some v => exact congrArg some (lastValue_append (pre ++ name) v)

/-- What the pattern of a value finds has a sign in it. -/
theorem equals_mem_of_rests {name m t : Text} {n : ℕ}
    (h : t ∈ (Re.seq beforeToken (nameAndValue name)).rests n (m ++ t)) : '=' ∈ m := by
  obtain ⟨u, hu, ht⟩ := Re.mem_rests_seq.mp h
  obtain ⟨v, -, -, rfl⟩ := mem_rests_nameAndValue.mp ht
  obtain ⟨w, hw⟩ := Re.rests_suffix _ _ _ _ hu
  have hsplit : (w ++ name ++ '=' :: v) ++ t = m ++ t := by simpa using hw
  rw [← List.append_cancel_right hsplit]
  simp

/-- `=.*` -/
theorem parseRe_equalsAny : parseRe .extended equalsAny =
    some (Re.seqAll [Re.lit '=', .star (.sat fun _ => true)]) := rfl

/-- The second call of `egrep_o` leaves what begins with the last `=`. -/
theorem lastMatch_equalsAny {m : Text} (hm : '=' ∈ m) (n : ℕ) :
    (Re.seqAll [Re.lit '=', .star (.sat fun _ => true)]).lastMatch n m =
      some ('=' :: lastValue m) := by
  obtain ⟨a, hsplit, hlast⟩ := eq_append_lastValue hm
  generalize lastValue m = b at hsplit hlast ⊢
  subst hsplit
  have hrests : ∀ u t, t ∈ (Re.seqAll [Re.lit '=', .star (.sat fun _ => true)]).rests n u ↔
      ∃ w : Text, u = '=' :: (w ++ t) := by
    intro u t
    simp only [Re.mem_rests_cons, Re.mem_rests_nil, Re.mem_rests_lit, Re.mem_rests_star_sat]
    constructor
    · rintro ⟨_, rfl, _, ⟨w, -, rfl⟩, rfl⟩
      exact ⟨w, rfl⟩
    · rintro ⟨w, rfl⟩
      exact ⟨_, rfl, t, ⟨w, fun _ _ => trivial, rfl⟩, rfl⟩
  refine Re.lastMatch_append ?_ ?_
  · have hmatch := @Re.matchAt_of_longest (Re.seqAll [Re.lit '=', .star (.sat fun _ => true)]) n
      ('=' :: b) []
    rw [List.append_nil] at hmatch
    exact hmatch ((hrests _ _).mpr ⟨b, by simp⟩) fun u _ => Nat.zero_le _
  · rw [Re.lastMatch_eq_none_iff]
    intro u t hu ht
    obtain ⟨w, rfl⟩ := (hrests u t).mp ht
    exact hlast (hu.mem List.mem_cons_self)

/-- One line through `egrep_o`. -/
theorem egrepO_line {pat line t : Text} {r : Re} (hr : parseRe .extended pat = some r)
    (ht : fileLines t = [line]) :
    egrepO pat t = unlines (r.lastMatch line.length line).toList := by
  have hgrep : grepLine .extended pat line = (r.lastMatch line.length line).isSome := by
    rw [grepLine, hr, Bool.eq_iff_iff, Re.found_iff_lastMatch, Option.isSome_iff_exists]
  rw [egrepO, grep, ht]
  cases hm : r.lastMatch line.length line with
  | none =>
    rw [hm] at hgrep
    rw [List.filter_cons_of_neg (by simp [hgrep])]
    rfl
  | some m =>
    rw [hm] at hgrep
    rw [List.filter_cons_of_pos (by simp [hgrep])]
    simp [sedLast, hr, hm]

/-- The contents of a file with a single line, with or without its newline. -/
def OneLine (line t : Text) : Prop := '\n' ∉ line ∧ (t = line ∨ t = line ++ ['\n'])

instance (line t : Text) : Decidable (OneLine line t) := inferInstanceAs (Decidable (_ ∧ _))

/-- The file with the line has one line at most. -/
theorem OneLine.fileLines {line t : Text} (h : OneLine line t) :
    fileLines t = [line] ∨ (line = [] ∧ t = []) := by
  obtain ⟨hline, rfl | rfl⟩ := h
  · by_cases hne : t = []
    · exact Or.inr ⟨hne, hne⟩
    · obtain ⟨hread, hlast⟩ := readLines_of_splitOn
        (show t.splitOn '\n' = [] ++ [t] from List.splitOn_eq_singleton hline)
      rw [Shell.fileLines, hread, hlast, if_neg hne]
      exact Or.inl rfl
  · exact Or.inl (fileLines_line hline)

/-- What `cmdline_value` returns: of the last token with a value, what stands behind the last
`=`. -/
theorem cmdlineValue_eq {name line t : Text} (hname : IsName name) (ht : OneLine line t) :
    captured (cmdlineValue name t) =
      ((((tokens line).filterMap (valueOf name)).getLast?).map lastValue).getD [] := by
  rcases ht.fileLines with hlines | ⟨rfl, rfl⟩
  · have hmatch := lastMatch_value hname line
    rw [cmdlineValue, egrepO_line (parseRe_value hname) hlines]
    cases hm : (Re.seq beforeToken (nameAndValue name)).lastMatch line.length line with
    | none =>
      rw [hm, Option.map_none] at hmatch
      rw [← hmatch]
      rfl
    | some m =>
      rw [hm, Option.map_some] at hmatch
      obtain ⟨pre, q, hline, hq⟩ := Re.rests_of_lastMatch hm
      have hnewline : '\n' ∉ m := fun hc => ht.1 (by rw [hline]; simp [hc])
      have hequals := equals_mem_of_rests hq
      have hlast : '\n' ∉ lastValue m := by
        obtain ⟨a, hsplit, -⟩ := eq_append_lastValue hequals
        intro hc
        exact hnewline (by rw [hsplit]; simp [hc])
      have hlines' : fileLines (unlines [m]) = [m] := fileLines_unlines (by simpa using hnewline)
      rw [← hmatch, Option.toList_some, egrepO_line parseRe_equalsAny hlines',
        lastMatch_equalsAny hequals, Option.toList_some, fileLines_unlines]
      · exact captured_unlines_singleton hlast
      · simpa using hlast
  · have hnothing : ∀ pat, egrepO pat [] = [] := fun _ => rfl
    rw [cmdlineValue, hnothing, hnothing]
    rfl

/-! ## Parameters -/

/-- Whether the expression matches behind white space depends on the first piece only. -/
theorem exists_rests_nameAndEnd_iff {name p rest u : Text} {n : ℕ} (hname : IsName name)
    (hfirst : FirstPiece p rest u) :
    (∃ t, t ∈ (nameAndEnd name).rests n u) ↔ isParameter name p := by
  have hnoSpace : ∀ c ∈ name, isSpace c = false := fun c hc => hname.noSpace hc
  have hequals : ∀ c ∈ name ++ ['='], isSpace c = false := by
    intro c hc
    rcases List.mem_append.mp hc with hc | hc
    · exact hname.noSpace hc
    · rw [List.mem_singleton.mp hc]
      rfl
  constructor
  · rintro ⟨t, ht⟩
    rcases mem_rests_nameAndEnd.mp ht with ⟨hu, -⟩ | hu | ⟨w, hne, hw, hu⟩
    · obtain ⟨y, rfl, hy⟩ := (@FirstPiece.prefix_iff _ _ _ hfirst name [] hnoSpace).mp (by simp [hu])
      obtain ⟨rfl, -⟩ := List.append_eq_nil_iff.mp hy.symm
      exact Or.inl (List.append_nil name)
    · obtain ⟨y, rfl, -⟩ := (@FirstPiece.prefix_iff _ _ _ hfirst (name ++ ['=']) t hequals).mp
        (by simp [hu])
      exact Or.inr ⟨y, rfl⟩
    · obtain ⟨y, rfl, hy⟩ := (hfirst.prefix_iff hnoSpace).mp hu
      cases y with
      | nil => exact Or.inl (List.append_nil name)
      | cons c y =>
        cases w with
        | nil => exact absurd rfl hne
        | cons d w =>
          obtain ⟨rfl, -⟩ := List.cons.inj hy
          have hspace := hw d List.mem_cons_self
          exact absurd (hfirst.piece d (by simp)) (by simp [hspace])
  · rintro (rfl | ⟨y, rfl⟩)
    · cases hrest : rest with
      | nil => exact ⟨[], mem_rests_nameAndEnd.mpr (Or.inl ⟨by simp [hfirst.text, hrest], rfl⟩)⟩
      | cons c q =>
        have hspace : isSpace c = true := hfirst.stops c (by simp [hrest])
        exact ⟨q, mem_rests_nameAndEnd.mpr (Or.inr (Or.inr ⟨[c], List.cons_ne_nil _ _,
          by simpa using hspace, by simp [hfirst.text, hrest]⟩))⟩
    · exact ⟨y ++ rest, mem_rests_nameAndEnd.mpr (Or.inr (Or.inl (by simp [hfirst.text])))⟩

/-- What the pattern of a parameter finds begins with the name. -/
theorem eq_of_rests_nameAndEnd {name u t : Text} {n : ℕ}
    (h : t ∈ (nameAndEnd name).rests n u) : ∃ x, u = name ++ (x ++ t) := by
  rcases mem_rests_nameAndEnd.mp h with ⟨rfl, rfl⟩ | rfl | ⟨w, -, -, rfl⟩
  · exact ⟨[], by simp⟩
  · exact ⟨['='], rfl⟩
  · exact ⟨w, rfl⟩

/-- The first call of `egrep_o` finds a token for the name. -/
theorem found_parameter {name : Text} (hname : IsName name) (hne : name ≠ []) (line : Text) :
    ((Re.seq beforeToken (nameAndEnd name)).lastMatch line.length line).isSome = true ↔
      ∃ token ∈ tokens line, isParameter name token := by
  obtain ⟨d, ds, rfl⟩ := List.exists_cons_of_ne_nil hne
  have hpieces : ((Re.seq beforeToken (nameAndEnd (d :: ds))).lastMatch line.length line).map
      (fun _ => ()) = ((tokens line).filterMap fun token =>
        if isParameter (d :: ds) token then some () else none).getLast? := by
    refine lastMatch_line ?_ ?_ ?_ ?_
    · intro c s t hc ht
      obtain ⟨x, hx⟩ := eq_of_rests_nameAndEnd ht
      obtain ⟨rfl, -⟩ := List.cons.inj hx
      exact absurd (hname.noSpace List.mem_cons_self) (by simp [hc])
    · intro t ht
      obtain ⟨x, hx⟩ := eq_of_rests_nameAndEnd ht
      simp at hx
    · exact if_neg (by simp [isParameter])
    · intro pre p rest u hfirst hstart
      have hiff := @exists_rests_nameAndEnd_iff _ _ _ _ line.length hname hfirst
      split_ifs with hp
      · cases hm : (Re.seq beforeToken (nameAndEnd (d :: ds))).matchAt line.length (pre ++ u) with
        | some m => rfl
        | none =>
          obtain ⟨t, ht⟩ := hiff.mpr hp
          exact absurd ((hstart t).mpr ht) (Re.matchAt_eq_none_iff.mp hm t)
      · have hnone : (Re.seq beforeToken (nameAndEnd (d :: ds))).matchAt line.length (pre ++ u) =
            none := by
          rw [Re.matchAt_eq_none_iff]
          intro t ht
          exact hp (hiff.mp ⟨t, (hstart t).mp ht⟩)
        rw [hnone, Option.map_none]
  rw [← Option.isSome_map, hpieces, Option.isSome_iff_ne_none, ne_eq, List.getLast?_eq_none_iff,
    List.filterMap_eq_nil_iff]
  simp

/-- The second call of `egrep_o` leaves the name. -/
theorem lastMatch_name {name m : Text} (hm : name <:+: m) (n : ℕ) :
    (Re.seqAll (name.map Re.lit)).lastMatch n m = some name := by
  cases hlast : (Re.seqAll (name.map Re.lit)).lastMatch n m with
  | none =>
    obtain ⟨pre, t, rfl⟩ := hm
    exact absurd (Re.mem_rests_word.mpr rfl)
      (Re.lastMatch_eq_none_iff.mp hlast _ t ⟨pre, by simp⟩)
  | some w =>
    obtain ⟨pre, t, -, ht⟩ := Re.rests_of_lastMatch hlast
    rw [List.append_cancel_right (Re.mem_rests_word.mp ht)]

/-- So the name is in what is found. -/
theorem infix_of_rests {name m t : Text} {n : ℕ}
    (h : t ∈ (Re.seq beforeToken (nameAndEnd name)).rests n (m ++ t)) : name <:+: m := by
  obtain ⟨u, hu, ht⟩ := Re.mem_rests_seq.mp h
  obtain ⟨x, rfl⟩ := eq_of_rests_nameAndEnd ht
  obtain ⟨w, hw⟩ := Re.rests_suffix _ _ _ _ hu
  have hsplit : (w ++ name ++ x) ++ t = m ++ t := by simpa using hw
  exact ⟨w, x, List.append_cancel_right hsplit⟩

/-- `cmdline_parameter` returns the name where a token asks for it. -/
theorem cmdlineParameter_eq {name line t : Text} (hname : IsName name) (ht : OneLine line t) :
    captured (cmdlineParameter name t) =
      if ∃ token ∈ tokens line, isParameter name token then name else [] := by
  have hnewline : '\n' ∉ name := fun hc => absurd (hname.noSpace hc) (by decide)
  have hnothing : ∀ pat, egrepO pat [] = [] := fun _ => rfl
  rcases ht.fileLines with hlines | ⟨rfl, rfl⟩
  · have hfound : captured (cmdlineParameter name t) =
        if ((Re.seq beforeToken (nameAndEnd name)).lastMatch line.length line).isSome then name
        else [] := by
      rw [cmdlineParameter, egrepO_line (parseRe_parameter hname) hlines]
      cases hm : (Re.seq beforeToken (nameAndEnd name)).lastMatch line.length line with
      | none => exact congrArg captured (hnothing name)
      | some m =>
        obtain ⟨pre, q, hline, hq⟩ := Re.rests_of_lastMatch hm
        have hlines' : fileLines (unlines [m]) = [m] := by
          refine fileLines_unlines ?_
          intro l hl hc
          rw [List.mem_singleton.mp hl] at hc
          exact ht.1 (by rw [hline]; simp [hc])
        rw [Option.toList_some, egrepO_line (parseRe_ordinary fun c hc => hname.ordinary hc) hlines',
          lastMatch_name (infix_of_rests hq)]
        exact captured_unlines_singleton hnewline
    rw [hfound]
    by_cases hne : name = []
    · simp [hne]
    · simp only [found_parameter hname hne]
  · rw [cmdlineParameter, hnothing, hnothing]
    exact (if_neg (by simp [tokens])).symm

/-! ## The functions and the tokens -/

/-- Both functions return what the tokens of the line say exactly when the value that counts has no
`=` of its own. -/
theorem cmdline_iff {name line t : Text} (hname : IsName name) (ht : OneLine line t) :
    (captured (cmdlineValue name t) =
        (((tokens line).filterMap (valueOf name)).getLast?).getD [] ∧
      captured (cmdlineParameter name t) =
        if ∃ token ∈ tokens line, isParameter name token then name else []) ↔
      ∀ v ∈ ((tokens line).filterMap (valueOf name)).getLast?, '=' ∉ v := by
  rw [cmdlineValue_eq hname ht, and_iff_left (cmdlineParameter_eq hname ht)]
  cases ((tokens line).filterMap (valueOf name)).getLast? with
  | none => simp
  | some v => simp [lastValue_eq_self_iff]

def bootLine : Text := "quiet load=kde toram load=kde,koffice noload=x".toList

theorem cmdline_iff_bootLine : IsName "load".toList ∧ OneLine bootLine (bootLine ++ ['\n']) ∧
    captured (cmdlineValue "load".toList (bootLine ++ ['\n'])) = "kde,koffice".toList ∧
    captured (cmdlineParameter "load".toList (bootLine ++ ['\n'])) = "load".toList := by
  have hname : IsName "load".toList := by decide
  have hline : OneLine bootLine (bootLine ++ ['\n']) := by decide
  obtain ⟨hvalue, hparameter⟩ := (cmdline_iff hname hline).mpr (by decide)
  exact ⟨hname, hline, hvalue.trans (by decide), hparameter.trans (by decide)⟩

/-- Of a value with `=` only the end is returned. -/
theorem not_cmdline : ¬ ∀ name line t : Text, IsName name → OneLine line t →
    captured (cmdlineValue name t) =
        (((tokens line).filterMap (valueOf name)).getLast?).getD [] ∧
      captured (cmdlineParameter name t) =
        if ∃ token ∈ tokens line, isParameter name token then name else [] := by
  intro h
  have hname : IsName "changes".toList := by decide
  have hline : OneLine "changes=LABEL=usb".toList "changes=LABEL=usb\n".toList := by decide
  have hvalue := (h _ _ _ hname hline).1
  rw [cmdlineValue_eq hname hline] at hvalue
  exact absurd hvalue (by decide)

end Backpack.Boot
