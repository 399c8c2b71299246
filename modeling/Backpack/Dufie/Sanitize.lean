import Backpack.Shell.Quoting

/-!
# Quoting file names for the shell

`load_dir` of Dufie runs `du` through `popen`, on a path that `sanitize` has put between
double quotes. A byte is written as the character with its number.
-/

namespace Backpack.Dufie

open Shell

/-- The table `clean` of `sanitize`. A plain `char` is signed, so a byte from 128 on reads
memory in front of the table, where `below` says which entries are not zero. -/
def clean (below : Char → Bool) (c : Char) : Bool :=
  if c.toNat < 128 then c == '`' || c == '"' else below c

/-- The first loop: for how many characters a backslash is added. -/
def escapes (below : Char → Bool) (filename : Text) : ℕ := filename.countP (clean below)

/-- The second loop, which copies the characters and adds the backslashes. -/
def escape (below : Char → Bool) : Text → Text
  | [] => []
  | c :: cs =>
    if clean below c then '\\' :: c :: escape below cs else c :: escape below cs

def sanitize (below : Char → Bool) (filename : Text) : Text :=
  '"' :: (escape below filename ++ ['"'])

/-- The command line that `load_dir` passes to `popen`. -/
def duCommand (below : Char → Bool) (path : Text) : Text :=
  "du ".toList ++ sanitize below path ++ " 2>/dev/null".toList

/-! ## The buffers -/

/-- `malloc(strlen(filename) + y + 3)` has room for the name and its final zero. -/
theorem sanitize_length (below : Char → Bool) (filename : Text) :
    (sanitize below filename).length + 1 = filename.length + escapes below filename + 3 := by
  have hescape : (escape below filename).length =
      filename.length + escapes below filename := by
    unfold escapes
    induction filename with
    | nil => rfl
    | cons c cs ih =>
      unfold escape
      split_ifs with h
      · rw [List.countP_cons_of_pos h]
        simp only [List.length_cons, ih]
        omega
      · rw [List.countP_cons_of_neg h]
        simp only [List.length_cons, ih]
        omega
  simp only [sanitize, List.length_cons, List.length_append, hescape, List.length_nil]

/-- So has `malloc(strlen(ptr) + 16)` for the command. -/
theorem duCommand_length (below : Char → Bool) (path : Text) :
    (duCommand below path).length + 1 = (sanitize below path).length + 16 := by
  have hdu : "du ".toList.length = 3 := by decide
  have hnull : " 2>/dev/null".toList.length = 12 := by decide
  simp only [duCommand, List.length_append, hdu, hnull]
  omega

/-! ## What the shell should read -/

/-- A character of the path as it should arrive: the quote and the backquote behind the
backslash that `sanitize` adds, everything else as it stands. -/
def wantedPiece (c : Char) : Piece := if c = '`' ∨ c = '"' then .escaped c else .quoted c

def plainWord (w : Text) : List Piece := w.map .plain

/-- The word `du`, the path as one word, and the redirection. -/
def wanted (path : Text) : List Token :=
  [.word (plainWord "du".toList), .word (path.map wantedPiece), .ioNumber (plainWord ['2']),
    .op '>', .word (plainWord "/dev/null".toList)]

theorem wordText_wanted (path : Text) : wordText (path.map wantedPiece) = path := by
  induction path with
  | nil => rfl
  | cons c cs ih =>
    have hc : wordText [wantedPiece c] = [c] := by
      unfold wantedPiece
      split_ifs <;> rfl
    have hcons : wordText ((c :: cs).map wantedPiece) =
        wordText [wantedPiece c] ++ wordText (cs.map wantedPiece) := by
      simp [wordText]
    rw [hcons, hc, ih]
    rfl

/-- Nothing in the path has a meaning between double quotes that `sanitize` does not take
away. -/
def Harmless (below : Char → Bool) : Text → Prop
  | [] => True
  | c :: cs =>
    (c = '$' → startsExpansion cs = false) ∧
    (c = '\\' → ∃ d ds, cs = d :: ds ∧ d ≠ '\n' ∧ quotable d = false) ∧
    (128 ≤ c.toNat → below c = false) ∧ Harmless below cs

/-! ## What the shell reads -/

/-- The text that follows the opening quote. -/
def quotedRest (below : Char → Bool) (path : Text) : Text :=
  escape below path ++ '"' :: " 2>/dev/null".toList

/-- The tokens that should follow `du`, when the pieces `acc` have been read of the path. -/
def wantedRest (acc : List Piece) (path : Text) : List Token :=
  [.word (acc ++ path.map wantedPiece), .ioNumber (plainWord ['2']), .op '>',
    .word (plainWord "/dev/null".toList)]

theorem readCommand_duCommand (below : Char → Bool) (path : Text) :
    readCommand (duCommand below path) =
      .word (plainWord "du".toList) :: tokens .double (some []) (quotedRest below path) := by
  have hcat : duCommand below path =
      'd' :: 'u' :: ' ' :: '"' :: quotedRest below path := by
    simp [duCommand, sanitize, quotedRest]
  rw [hcat]
  rfl

section
variable {below : Char → Bool} {c : Char} {cs : Text}

theorem quotedRest_clean (h : clean below c = true) :
    quotedRest below (c :: cs) = '\\' :: c :: quotedRest below cs := by
  simp [quotedRest, escape, h]

theorem quotedRest_not_clean (h : clean below c = false) :
    quotedRest below (c :: cs) = c :: quotedRest below cs := by
  simp [quotedRest, escape, h]

/-- The first pieces decide: with a wrong one behind `acc` the path does not arrive. -/
theorem ne_wantedRest {acc : List Piece} {p : Piece} {ts : List Token}
    (h : Extends (acc ++ [p]) ts) (hp : p ≠ wantedPiece c) : ts ≠ wantedRest acc (c :: cs) := by
  rintro rfl
  rcases h with ⟨t, us, heq, hpre⟩
  obtain ⟨rfl, -⟩ := List.cons.inj heq
  have htail : [p] <+: wantedPiece c :: cs.map wantedPiece := by
    have hpre' : acc ++ [p] <+: acc ++ (wantedPiece c :: cs.map wantedPiece) := hpre
    exact (List.prefix_append_right_inj acc).mp hpre'
  exact hp (List.cons_prefix_cons.mp htail).1

/-- The characters that `sanitize` knows, among the first 128. -/
theorem clean_eq_true (h : clean below c = true) : c = '`' ∨ c = '"' ∨ 128 ≤ c.toNat := by
  unfold clean at h
  split_ifs at h with h128
  · rcases (by simpa using h : c = '`' ∨ c = '"') with hc | hc
    · exact Or.inl hc
    · exact Or.inr (Or.inl hc)
  · exact Or.inr (Or.inr (by omega))

theorem not_special_of_high (h : 128 ≤ c.toNat) :
    startsExpansion (c :: cs) = false ∧ quotable c = false ∧ c ≠ '\n' ∧ c ≠ '\\' := by
  have hne : ∀ d : Char, d.toNat < 128 → c ≠ d := by
    rintro d hd rfl
    omega
  have halnum : c.isAlphanum = false := by
    simp only [Char.isAlphanum, Char.isAlpha, Char.isUpper, Char.isLower, Char.isDigit]
    have hval : c.val.toNat = c.toNat := rfl
    simp [UInt32.le_iff_toNat_le]
    omega
  refine ⟨?_, ?_, hne _ (by decide), hne _ (by decide)⟩
  · simp [startsExpansion, halnum, hne _ (by decide : '_'.toNat < 128),
      hne _ (by decide : '@'.toNat < 128), hne _ (by decide : '*'.toNat < 128),
      hne _ (by decide : '#'.toNat < 128), hne _ (by decide : '?'.toNat < 128),
      hne _ (by decide : '-'.toNat < 128), hne _ (by decide : '$'.toNat < 128),
      hne _ (by decide : '!'.toNat < 128), hne _ (by decide : '{'.toNat < 128),
      hne _ (by decide : '('.toNat < 128)]
  · simp [quotable, hne _ (by decide : '$'.toNat < 128), hne _ (by decide : '`'.toNat < 128),
      hne _ (by decide : '"'.toNat < 128), hne _ (by decide : '\\'.toNat < 128)]

/-- What makes `$` the beginning of an expansion is not touched by `sanitize`. -/
theorem startsExpansion_quotedRest : startsExpansion (quotedRest below cs) = startsExpansion cs := by
  cases cs with
  | nil => rfl
  | cons d ds =>
    cases hd : clean below d with
    | false => rw [quotedRest_not_clean hd]; rfl
    | true =>
      rw [quotedRest_clean hd]
      rcases clean_eq_true hd with rfl | rfl | h128
      · rfl
      · rfl
      · rw [(not_special_of_high h128).1]
        rfl

/-! ## One character after the other -/

theorem tokens_double_quoted {acc : List Piece} {rest : Text} (hq : c ≠ '"') (hb : c ≠ '\\')
    (hs : ¬ (c = '`' ∨ (c = '$' ∧ startsExpansion rest = true))) :
    tokens .double (some acc) (c :: rest) = tokens .double (some (acc ++ [.quoted c])) rest := by
  rw [tokens, if_neg hq, if_neg hb, if_neg hs]
  rfl

theorem tokens_double_backslash {acc : List Piece} {rest : Text} :
    tokens .double (some acc) ('\\' :: c :: rest) =
      if c = '\n' then tokens .double (some (acc ++ [.continuation])) rest
      else if quotable c then tokens .double (some (acc ++ [.escaped c])) rest
      else tokens .double (some (acc ++ [Piece.quoted '\\'] ++ [Piece.quoted c])) rest := by
  rw [tokens, if_neg (by decide), if_pos rfl, tokens]
  rfl

/-- The shell keeps a backslash in front of this text. -/
def KeepsBackslash (below : Char → Bool) (cs : Text) : Prop :=
  ∃ d ds, cs = d :: ds ∧ d ≠ '\n' ∧ quotable d = false ∧ clean below d = false

theorem tokens_backslash {acc : List Piece} (h : KeepsBackslash below cs) :
    tokens .double (some acc) ('\\' :: quotedRest below cs) =
      tokens .double (some (acc ++ [.quoted '\\'])) (quotedRest below cs) := by
  rcases h with ⟨d, ds, rfl, hnl, hquot, hd⟩
  have hne : d ≠ '$' ∧ d ≠ '`' ∧ d ≠ '"' ∧ d ≠ '\\' := by simpa [quotable] using hquot
  rw [quotedRest_not_clean hd, tokens_double_backslash, if_neg hnl, if_neg (by simp [hquot]),
    tokens_double_quoted hne.2.2.1 hne.2.2.2 (by simp [hne.1, hne.2.1])]

theorem tokens_backslash_ne {acc : List Piece} (h : ¬ KeepsBackslash below cs) :
    tokens .double (some acc) ('\\' :: quotedRest below cs) ≠ wantedRest acc ('\\' :: cs) := by
  have hwrong : ∀ {p : Piece} {rest : Text}, p ≠ wantedPiece '\\' →
      tokens .double (some (acc ++ [p])) rest ≠ wantedRest acc ('\\' :: cs) :=
    fun hp => ne_wantedRest (tokens_extends (by decide) _ _) hp
  cases cs with
  | nil =>
    -- the closing quote is taken for a part of the word
    show tokens .double (some acc) ('\\' :: '"' :: " 2>/dev/null".toList) ≠ _
    rw [tokens_double_backslash, if_neg (by decide), if_pos (by decide)]
    exact hwrong (by decide)
  | cons d ds =>
    cases hd : clean below d with
    | true =>
      -- the backslash that `sanitize` adds comes next
      rw [quotedRest_clean hd, tokens_double_backslash, if_neg (by decide), if_pos (by decide)]
      exact hwrong (by decide)
    | false =>
      rw [quotedRest_not_clean hd, tokens_double_backslash]
      split_ifs with hnl hquot
      · exact hwrong (by decide)
      · exact hwrong (by simp [wantedPiece])
      · exact absurd ⟨d, ds, rfl, hnl, by simpa using hquot, hd⟩ h

theorem Harmless.keepsBackslash (h : Harmless below ('\\' :: cs)) : KeepsBackslash below cs := by
  rcases h.2.1 rfl with ⟨d, ds, rfl, hnl, hquot⟩
  refine ⟨d, ds, rfl, hnl, hquot, ?_⟩
  have hne : d ≠ '$' ∧ d ≠ '`' ∧ d ≠ '"' ∧ d ≠ '\\' := by simpa [quotable] using hquot
  unfold clean
  split_ifs with h128
  · simp [hne]
  · exact h.2.2.2.2.2.1 (by omega)

theorem wantedRest_cons (acc : List Piece) :
    wantedRest acc (c :: cs) = wantedRest (acc ++ [wantedPiece c]) cs := by
  simp [wantedRest]

/-- For a byte from 128 on, `sanitize` looks at what lies in front of its table. -/
theorem below_of_high (h128 : 128 ≤ c.toNat) : below c = clean below c := by
  unfold clean
  rw [if_neg (by omega)]

section
variable {acc : List Piece}
  (ih : ∀ acc, tokens .double (some acc) (quotedRest below cs) = wantedRest acc cs ↔
    Harmless below cs)
include ih

/-- A character behind a backslash of `sanitize`. -/
theorem tokens_clean_iff (hc : clean below c = true) :
    tokens .double (some acc) (quotedRest below (c :: cs)) = wantedRest acc (c :: cs) ↔
      Harmless below (c :: cs) := by
  rw [quotedRest_clean hc, tokens_double_backslash]
  by_cases hq : c = '`' ∨ c = '"'
  · -- the backslash takes the meaning away
    have hquot : quotable c = true := by rcases hq with rfl | rfl <;> decide
    have hpiece : wantedPiece c = .escaped c := if_pos hq
    have hlow : ¬ 128 ≤ c.toNat := by rcases hq with rfl | rfl <;> decide
    have hne : c ≠ '\n' ∧ c ≠ '$' ∧ c ≠ '\\' := by rcases hq with rfl | rfl <;> decide
    rw [if_neg hne.1, if_pos hquot, wantedRest_cons, hpiece, ih]
    simp [Harmless, hne, hlow]
  · -- the backslash stays
    have h128 : 128 ≤ c.toNat := by
      rcases clean_eq_true hc with h | h | h
      · exact absurd (Or.inl h) hq
      · exact absurd (Or.inr h) hq
      · exact h
    have hhigh := @not_special_of_high c cs h128
    have hpiece : Piece.quoted '\\' ≠ wantedPiece c := by
      unfold wantedPiece
      rw [if_neg hq]
      simp [Ne.symm hhigh.2.2.2]
    rw [if_neg hhigh.2.2.1, if_neg (by simp [hhigh.2.1])]
    refine iff_of_false ?_ ?_
    · have hext := @tokens_extends .double (by decide)
        (acc ++ [.quoted '\\'] ++ [.quoted c]) (quotedRest below cs)
      exact ne_wantedRest hext.of_append hpiece
    · intro hharm
      rw [← below_of_high h128, hharm.2.2.1 h128] at hc
      exact absurd hc (by decide)

theorem tokens_backslash_iff (hc : clean below '\\' = false) :
    tokens .double (some acc) (quotedRest below ('\\' :: cs)) = wantedRest acc ('\\' :: cs) ↔
      Harmless below ('\\' :: cs) := by
  rw [quotedRest_not_clean hc]
  by_cases hkeep : KeepsBackslash below cs
  · have hpiece : wantedPiece '\\' = .quoted '\\' := rfl
    rw [tokens_backslash hkeep, wantedRest_cons, hpiece, ih]
    rcases hkeep with ⟨d, ds, hcs, hnl, hquot, -⟩
    have hnext : ∃ d ds, cs = d :: ds ∧ d ≠ '\n' ∧ quotable d = false :=
      ⟨d, ds, hcs, hnl, hquot⟩
    constructor
    · intro h
      exact ⟨fun h' => absurd h' (by decide), fun _ => hnext, fun h' => absurd h' (by decide), h⟩
    · intro h
      exact h.2.2.2
  · exact iff_of_false (tokens_backslash_ne hkeep) fun h => hkeep h.keepsBackslash

/-- A character that `sanitize` leaves alone, other than the backslash. -/
theorem tokens_other_iff (hc : clean below c = false) (hb : c ≠ '\\') :
    tokens .double (some acc) (quotedRest below (c :: cs)) = wantedRest acc (c :: cs) ↔
      Harmless below (c :: cs) := by
  have hback : c ≠ '`' := by
    rintro rfl
    exact absurd hc (by simp [clean])
  have hquote : c ≠ '"' := by
    rintro rfl
    exact absurd hc (by simp [clean])
  rw [quotedRest_not_clean hc]
  by_cases hexp : c = '$' ∧ startsExpansion cs = true
  · have hopen : tokens .double (some acc) (c :: quotedRest below cs) =
        [.word (acc ++ [.expansion (quotedRest below cs)])] := by
      rw [tokens, if_neg hquote, if_neg hb, if_pos]
      · rfl
      · exact Or.inr ⟨hexp.1, startsExpansion_quotedRest.trans hexp.2⟩
    rw [hopen]
    refine iff_of_false (by simp [wantedRest]) fun h => ?_
    rw [h.1 hexp.1] at hexp
    exact absurd hexp.2 (by decide)
  · have hlit : c = '$' → startsExpansion cs = false := by simpa using hexp
    have hplain : ¬ (c = '`' ∨ (c = '$' ∧ startsExpansion (quotedRest below cs) = true)) := by
      rw [startsExpansion_quotedRest]
      simp [hback, hexp]
    have hpiece : wantedPiece c = .quoted c := if_neg (by simp [hback, hquote])
    rw [tokens_double_quoted hquote hb hplain, wantedRest_cons, hpiece, ih]
    constructor
    · intro h
      exact ⟨hlit, fun h' => absurd h' hb, fun h128 => (below_of_high h128).trans hc, h⟩
    · intro h
      exact h.2.2.2

end

/-- Between the quotes the path is read as it stands exactly if it is harmless. -/
theorem tokens_quotedRest_iff (path : Text) (acc : List Piece) :
    tokens .double (some acc) (quotedRest below path) = wantedRest acc path ↔
      Harmless below path := by
  induction path generalizing acc with
  | nil =>
    have hend : tokens .double (some acc) (quotedRest below []) = wantedRest acc [] := by
      rw [wantedRest, List.map_nil, List.append_nil]
      rfl
    simp [hend, Harmless]
  | cons c cs ih =>
    cases hc : clean below c with
    | true => exact tokens_clean_iff ih hc
    | false =>
      by_cases hb : c = '\\'
      · subst hb
        exact tokens_backslash_iff ih hc
      · exact tokens_other_iff ih hc hb

end

end Backpack.Dufie
