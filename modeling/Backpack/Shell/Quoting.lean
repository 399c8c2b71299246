import Backpack.Shell.Text

/-!
# Reading a command line

Token recognition of the POSIX shell, as far as quoting goes: which words and operators a
command line consists of, and for every character of a word how it got there. Reading
stops where an expansion begins, because from there on the text is not taken literally.
-/

namespace Shell

/-- How a character comes to stand in a word. -/
inductive Piece where
  /-- outside quotes -/
  | plain (c : Char)
  /-- inside quotes, as itself -/
  | quoted (c : Char)
  /-- behind a backslash, which is removed -/
  | escaped (c : Char)
  /-- a backslash and a newline, both removed -/
  | continuation
  /-- the beginning of a parameter, command or arithmetic expansion, and what follows it -/
  | expansion (rest : Text)
deriving DecidableEq

inductive Token where
  | word (ps : List Piece)
  /-- the digits before a redirection operator -/
  | ioNumber (ps : List Piece)
  | op (c : Char)
  | newline
  /-- the end of the text inside quotes -/
  | unterminated (ps : List Piece)
deriving DecidableEq

/-- Where the reader is; the escape modes follow a backslash. -/
inductive Mode where
  | bare
  | bareEscape
  | single
  | double
  | doubleEscape
  | comment
deriving DecidableEq

/-- The text of a word after quote removal. -/
def wordText (ps : List Piece) : Text := ps.flatMap fun
  | .plain c => [c]
  | .quoted c => [c]
  | .escaped c => [c]
  | .continuation => []
  | .expansion _ => []

/-- What may follow `$` to make an expansion of it: the beginning of a name, a digit, a
special parameter, `{` or `(`. -/
def startsExpansion : Text → Bool
  | [] => false
  | c :: _ => c.isAlphanum || c == '_' || c ∈ ['@', '*', '#', '?', '-', '$', '!', '{', '(']

/-- Characters that a backslash quotes inside double quotes. -/
def quotable (c : Char) : Bool := c ∈ ['$', '`', '"', '\\']

def operatorChar (c : Char) : Bool := c ∈ ['|', '&', ';', '<', '>', '(', ')']

/-- Ends the current word, which `none` says has not begun. -/
def endWord : Option (List Piece) → List Token
  | none => []
  | some ps => [.word ps]

/-- Ends the current word at a redirection operator. -/
def endIoNumber : Option (List Piece) → List Token
  | none => []
  | some ps =>
    let digit : Piece → Bool
      | .plain c => c.isDigit
      | _ => false
    if ps ≠ [] ∧ ps.all digit then [.ioNumber ps] else [.word ps]

/-- The current word with one more piece. -/
def addPiece (cur : Option (List Piece)) (p : Piece) : Option (List Piece) :=
  some (cur.getD [] ++ [p])

/-- The tokens of a text; `cur` is the word that has been begun. -/
def tokens : Mode → Option (List Piece) → Text → List Token
  | .bare, cur, [] => endWord cur
  | .bareEscape, cur, [] => endWord (addPiece cur (.plain '\\'))
  | .comment, _, [] => []
  | .single, cur, [] => [.unterminated (cur.getD [])]
  | .double, cur, [] => [.unterminated (cur.getD [])]
  | .doubleEscape, cur, [] => [.unterminated (cur.getD [])]
  | .bare, cur, c :: cs =>
    if c = '"' then tokens .double (some (cur.getD [])) cs
    else if c = '\'' then tokens .single (some (cur.getD [])) cs
    else if c = '\\' then tokens .bareEscape cur cs
    else if c = '`' ∨ (c = '$' ∧ startsExpansion cs) then [.word (cur.getD [] ++ [.expansion cs])]
    else if c = '\n' then endWord cur ++ .newline :: tokens .bare none cs
    else if c = ' ' ∨ c = '\t' then endWord cur ++ tokens .bare none cs
    else if c = '<' ∨ c = '>' then endIoNumber cur ++ .op c :: tokens .bare none cs
    else if operatorChar c then endWord cur ++ .op c :: tokens .bare none cs
    else if c = '#' ∧ cur = none then tokens .comment none cs
    else tokens .bare (addPiece cur (.plain c)) cs
  | .bareEscape, cur, c :: cs =>
    if c = '\n' then tokens .bare (addPiece cur .continuation) cs
    else tokens .bare (addPiece cur (.escaped c)) cs
  | .comment, cur, c :: cs =>
    if c = '\n' then .newline :: tokens .bare none cs else tokens .comment cur cs
  | .single, cur, c :: cs =>
    if c = '\'' then tokens .bare cur cs else tokens .single (addPiece cur (.quoted c)) cs
  | .double, cur, c :: cs =>
    if c = '"' then tokens .bare cur cs
    else if c = '\\' then tokens .doubleEscape cur cs
    else if c = '`' ∨ (c = '$' ∧ startsExpansion cs) then [.word (cur.getD [] ++ [.expansion cs])]
    else tokens .double (addPiece cur (.quoted c)) cs
  | .doubleEscape, cur, c :: cs =>
    if c = '\n' then tokens .double (addPiece cur .continuation) cs
    else if quotable c then tokens .double (addPiece cur (.escaped c)) cs
    -- in front of any other character the backslash stays
    else tokens .double (addPiece (addPiece cur (.quoted '\\')) (.quoted c)) cs

/-! ## A word that has been begun -/

/-- The pieces of a token. -/
def Token.pieces : Token → List Piece
  | .word ps => ps
  | .ioNumber ps => ps
  | .unterminated ps => ps
  | .op _ => []
  | .newline => []

/-- The token `t` continues the word `acc`. -/
def Extends (acc : List Piece) (ts : List Token) : Prop := ∃ t us, ts = t :: us ∧ acc <+: t.pieces

theorem Extends.of_append {acc ps : List Piece} {ts : List Token} (h : Extends (acc ++ ps) ts) :
    Extends acc ts := by
  rcases h with ⟨t, us, rfl, ht⟩
  exact ⟨t, us, rfl, (List.prefix_append acc ps).trans ht⟩

theorem Extends.cons {acc q : List Piece} {t : Token} {us : List Token} (h : t.pieces = acc ++ q) :
    Extends acc (t :: us) :=
  ⟨t, us, rfl, by rw [h]; exact List.prefix_append acc q⟩

/-- Whatever follows, the pieces that a word has already are the beginning of the first
token. -/
theorem tokens_extends {m : Mode} (hm : m ≠ .comment) (acc : List Piece) (s : Text) :
    Extends acc (tokens m (some acc) s) := by
  induction s generalizing m acc with
  | nil =>
    cases m with
    | comment => exact absurd rfl hm
    | bareEscape => exact Extends.cons (q := [.plain '\\']) rfl
    | bare => exact Extends.cons (q := []) (by simp [Token.pieces])
    | single => exact Extends.cons (q := []) (by simp [Token.pieces])
    | double => exact Extends.cons (q := []) (by simp [Token.pieces])
    | doubleEscape => exact Extends.cons (q := []) (by simp [Token.pieces])
  | cons c cs ih =>
    -- a step ends the word or goes on with the same pieces and perhaps some more
    have hgo : ∀ {m' : Mode}, m' ≠ .comment → Extends acc (tokens m' (some acc) cs) :=
      fun h => ih h acc
    have hadd : ∀ {m' : Mode} (p : Piece), m' ≠ .comment →
        Extends acc (tokens m' (addPiece (some acc) p) cs) :=
      fun p h => (ih h (acc ++ [p])).of_append
    have hend : ∀ ts, Extends acc (endWord (some acc) ++ ts) := fun ts =>
      Extends.cons (q := []) (by simp [Token.pieces])
    cases m with
    | comment => exact absurd rfl hm
    | bareEscape =>
      unfold tokens
      split_ifs
      · exact hadd _ (by decide)
      · exact hadd _ (by decide)
    | single =>
      unfold tokens
      split_ifs
      · exact hgo (by decide)
      · exact hadd _ (by decide)
    | double =>
      unfold tokens
      split_ifs
      · exact hgo (by decide)
      · exact hgo (by decide)
      · exact Extends.cons rfl
      · exact hadd _ (by decide)
    | doubleEscape =>
      unfold tokens
      split_ifs
      · exact hadd _ (by decide)
      · exact hadd _ (by decide)
      · have htwo : Extends ((acc ++ [Piece.quoted '\\']) ++ [Piece.quoted c])
            (tokens .double (some ((acc ++ [Piece.quoted '\\']) ++ [Piece.quoted c])) cs) :=
          ih (by decide) _
        exact htwo.of_append.of_append
    | bare =>
      have hio : ∀ ts, Extends acc (endIoNumber (some acc) ++ ts) := by
        intro ts
        unfold endIoNumber
        simp only
        split_ifs
        · exact Extends.cons (q := []) (by simp [Token.pieces])
        · exact Extends.cons (q := []) (by simp [Token.pieces])
      unfold tokens
      split_ifs with _ _ _ _ _ _ _ _ hcomment
      · exact hgo (by decide)
      · exact hgo (by decide)
      · exact hgo (by decide)
      · exact Extends.cons rfl
      · exact hend _
      · exact hend _
      · exact hio _
      · exact hend _
      · exact absurd hcomment.2 (by simp)
      · exact hadd _ (by decide)

/-- The tokens of a command line. -/
def readCommand (line : Text) : List Token := tokens .bare none line

end Shell
