import Backpack.Shell.Text

/-!
# Regular expressions of `grep` and `egrep`

Patterns reach `grep` as text, often with the name of a file spliced into them, so the
two POSIX notations are read from text here: `basic` is what `grep` and `sed` take,
`extended` what `egrep`, `grep -E` and `sed -r` take. A pattern that cannot be read
matches no line. Back-references and the intervals of the basic notation are not
modelled: a pattern with one of them counts as unreadable.
-/

namespace Shell

/-! ## Syntax trees and matching -/

/-- A regular expression. -/
inductive Re where
  | eps
  | bol
  | eol
  | sat (p : Char → Bool)
  | seq (r s : Re)
  | alt (r s : Re)
  | star (r : Re)

namespace Re

/-- The expression that matches the character `c` only. -/
def lit (c : Char) : Re := .sat (· == c)

/-- Up to `n` further matches of `f`; a match of nothing ends the repetition. -/
def iter (f : Text → List Text) : ℕ → Text → List Text
  | 0, s => [s]
  | n + 1, s => s :: ((f s).filter fun t => t.length < s.length).flatMap (iter f n)

/-- What can remain of `s` after a match at its beginning. `n` is the length of the whole
line, by which `bol` knows that nothing stands before `s`. -/
def rests (n : ℕ) : Re → Text → List Text
  | .eps, s => [s]
  | .bol, s => if s.length = n then [s] else []
  | .eol, s => if s = [] then [s] else []
  | .sat _, [] => []
  | .sat p, c :: s => if p c then [s] else []
  | .seq r r', s => (rests n r s).flatMap (rests n r')
  | .alt r r', s => rests n r s ++ rests n r' s
  | .star r, s => iter (rests n r) s.length s

/-- The expression matches somewhere in the line. -/
def found (r : Re) (line : Text) : Bool :=
  line.tails.any fun s => !(r.rests line.length s).isEmpty

def seqAll (rs : List Re) : Re := rs.foldr .seq .eps

def altAll : List Re → Re
  | [] => .eps
  | [r] => r
  | r :: rs => .alt r (altAll rs)

/-- Between `lo` and `hi` matches, without an upper bound when `hi` is `none`. -/
def rep (r : Re) (lo : ℕ) (hi : Option ℕ) : Re :=
  .seq (seqAll (List.replicate lo r))
    (match hi with
    | none => .star r
    | some hi => seqAll (List.replicate (hi - lo) (.alt r .eps)))

end Re

/-! ## Bracket expressions -/

/-- `[[:space:]]` -/
def isSpace (c : Char) : Bool := c == ' ' || ('\t' ≤ c && c ≤ '\r')

/-- `[[:digit:]I]`, where a version number begins -/
def isVersion (c : Char) : Bool := c.isDigit || c == 'I'

/-- `[:name:]` -/
def charClass (name : Text) : Option (Char → Bool) :=
  if name = "digit".toList then some Char.isDigit
  else if name = "space".toList then some isSpace
  else if name = "alpha".toList then some Char.isAlpha
  else if name = "alnum".toList then some Char.isAlphanum
  else if name = "upper".toList then some Char.isUpper
  else if name = "lower".toList then some Char.isLower
  else none

/-- The items of a bracket expression up to its `]`, with what follows it. `first` holds
before the first item, where a `]` is an item. -/
def bracketItems : ℕ → Bool → Text → Option ((Char → Bool) × Text)
  | 0, _, _ => none
  | fuel + 1, first, s =>
    match s with
    | [] => none
    | '[' :: ':' :: s =>
      match s.dropWhile (· != ':') with
      | ':' :: ']' :: rest => do
        let p ← charClass (s.takeWhile (· != ':'))
        let (q, rest) ← bracketItems fuel false rest
        some (fun c => p c || q c, rest)
      | _ => none
    | a :: s =>
      if a = ']' && !first then some (fun _ => false, s)
      else
        match s with
        | '-' :: b :: rest =>
          if b = ']' then do
            let (q, rest) ← bracketItems fuel false s
            some (fun c => c == a || q c, rest)
          else do
            let (q, rest) ← bracketItems fuel false rest
            some (fun c => (a ≤ c && c ≤ b) || q c, rest)
        | _ => do
          let (q, rest) ← bracketItems fuel false s
          some (fun c => c == a || q c, rest)

/-- What stands after the opening `[`: the characters the bracket expression accepts and
the number of characters it takes up. -/
def bracket (negation : List Char) (s : Text) : Option ((Char → Bool) × ℕ) :=
  match s with
  | [] => none
  | c :: cs =>
    if c ∈ negation then
      (bracketItems s.length true cs).map fun (p, rest) =>
        (fun d => !p d, s.length - rest.length)
    else (bracketItems (s.length + 1) true s).map fun (p, rest) => (p, s.length - rest.length)

/-! ## Tokens -/

inductive Flavour where
  | basic
  | extended
deriving DecidableEq

inductive Tok where
  | atom (r : Re)
  | star
  | plus
  | opt
  | rep (lo : ℕ) (hi : Option ℕ)
  | bar
  | lpar
  | rpar

/-- What the previous token was, which decides whether `^` and `*` are special in the
basic notation. -/
inductive Prev where
  | opening
  | anchor
  | other
deriving DecidableEq

def Tok.prev : Tok → Prev
  | .atom .bol => .anchor
  | .bar => .opening
  | .lpar => .opening
  | _ => .other

/-- Characters that stand for themselves in a pattern. -/
def Flavour.ordinary : Flavour → Char → Bool
  | .basic, c => c ∉ ['\\', '[', '.', '*', '^', '$']
  | .extended, c => c ∉ ['\\', '[', '.', '*', '^', '$', '+', '?', '(', ')', '|', '{']

/-- The token `\d`. -/
def escaped (fl : Flavour) (d : Char) : Option Tok :=
  if d.isDigit then none
  else
    match fl with
    | .extended => some (.atom (.lit d))
    | .basic =>
      if d = '(' then some .lpar
      else if d = ')' then some .rpar
      else if d = '|' then some .bar
      else if d = '+' then some .plus
      else if d = '?' then some .opt
      else if d = '{' then none
      else some (.atom (.lit d))

/-- An interval `m}`, `m,}` or `m,n}` and its length. -/
def interval (s : Text) : Option (Tok × ℕ) :=
  let body := s.takeWhile (· != '}')
  let number (t : Text) : ℕ := t.foldl (fun n c => 10 * n + (c.toNat - '0'.toNat)) 0
  if body.length = s.length then none
  else
    match body.splitOn ',' with
    | [lo] =>
      if lo ≠ [] ∧ lo.all Char.isDigit then
        some (.rep (number lo) (some (number lo)), body.length + 1)
      else none
    | [lo, hi] =>
      if lo ≠ [] ∧ lo.all Char.isDigit ∧ hi.all Char.isDigit then
        some (.rep (number lo) (if hi = [] then none else some (number hi)), body.length + 1)
      else none
    | _ => none

/-- The token that begins with `c`, and how many of the characters `cs` after it belong
to it. -/
def nextTok (fl : Flavour) (prev : Prev) (c : Char) (cs : Text) : Option (Tok × ℕ) :=
  if fl.ordinary c then some (.atom (.lit c), 0)
  else if c = '\\' then
    match cs with
    | [] => none
    | d :: _ => (escaped fl d).map (·, 1)
  else if c = '[' then (bracket ['^'] cs).map fun (p, k) => (.atom (.sat p), k)
  else if c = '.' then some (.atom (.sat fun _ => true), 0)
  else if c = '*' then
    if fl = .basic ∧ prev ≠ .other then some (.atom (.lit c), 0) else some (.star, 0)
  else if c = '^' then
    if fl = .basic ∧ prev ≠ .opening then some (.atom (.lit c), 0) else some (.atom .bol, 0)
  else if c = '$' then
    -- in the basic notation only a `$` at the end of the pattern or of a group is special
    if fl = .basic ∧ cs ≠ [] ∧ cs.take 2 ≠ ['\\', ')'] ∧ cs.take 2 ≠ ['\\', '|'] then
      some (.atom (.lit c), 0)
    else some (.atom .eol, 0)
  else if c = '+' then some (.plus, 0)
  else if c = '?' then some (.opt, 0)
  else if c = '(' then some (.lpar, 0)
  else if c = ')' then some (.rpar, 0)
  else if c = '|' then some (.bar, 0)
  else
    match interval cs with
    | some tok => some tok
    | none => some (.atom (.lit c), 0)

/-- The tokens of a pattern, `skip` characters further on. -/
def lex (fl : Flavour) : ℕ → Prev → Text → Option (List Tok)
  | _, _, [] => some []
  | skip + 1, prev, _ :: cs => lex fl skip prev cs
  | 0, prev, c :: cs => do
    let (tok, skip) ← nextTok fl prev c cs
    let toks ← lex fl skip tok.prev cs
    some (tok :: toks)

/-! ## Parsing -/

/-- An open group: the alternatives that are complete and the one being read, last
expression first. -/
structure Frame where
  alts : List Re
  cur : List Re

def Frame.close (f : Frame) : Re := Re.altAll (f.alts ++ [Re.seqAll f.cur.reverse])

/-- Applies a repetition to the last expression. Without one it repeats nothing. -/
def Frame.repeatLast (f : Frame) (g : Re → Re) : Frame :=
  match f.cur with
  | [] => f
  | r :: rs => { f with cur := g r :: rs }

/-- One token, over the stack of open groups. -/
def parseTok : List Frame → Tok → Option (List Frame)
  | f :: fs, .atom r => some ({ f with cur := r :: f.cur } :: fs)
  | f :: fs, .star => some (f.repeatLast .star :: fs)
  | f :: fs, .plus => some (f.repeatLast (fun r => .seq r (.star r)) :: fs)
  | f :: fs, .opt => some (f.repeatLast (fun r => .alt r .eps) :: fs)
  | f :: fs, .rep lo hi => some (f.repeatLast (·.rep lo hi) :: fs)
  | f :: fs, .bar => some (⟨f.alts ++ [Re.seqAll f.cur.reverse], []⟩ :: fs)
  | fs, .lpar => some (⟨[], []⟩ :: fs)
  | f :: g :: fs, .rpar => some ({ g with cur := f.close :: g.cur } :: fs)
  | _, _ => none

/-- The regular expression a pattern stands for. -/
def parseRe (fl : Flavour) (pat : Text) : Option Re := do
  let toks ← lex fl 0 .opening pat
  match ← toks.foldlM parseTok [⟨[], []⟩] with
  | [f] => some f.close
  | _ => none

/-! ## `grep` -/

/-- `grep` prints this line. -/
def grepLine (fl : Flavour) (pat line : Text) : Bool :=
  match parseRe fl pat with
  | some r => r.found line
  | none => false

/-- The output of `grep pat file`. -/
def grep (fl : Flavour) (pat file : Text) : List Text := (fileLines file).filter (grepLine fl pat)

/-! ## Bracket expressions of the scripts -/

/-- `[[:digit:]I]`, after its opening `[` -/
def versionSet : Text := "[:digit:]I]".toList

/-- `[^[:space:]]`, after its opening `[` -/
def nonSpaceSet : Text := "^[:space:]]".toList

theorem versionSet_append (cs : Text) : versionSet ++ cs =
    '[' :: ':' :: 'd' :: 'i' :: 'g' :: 'i' :: 't' :: ':' :: ']' :: 'I' :: ']' :: cs := rfl

theorem nonSpaceSet_append (cs : Text) : nonSpaceSet ++ cs =
    '^' :: '[' :: ':' :: 's' :: 'p' :: 'a' :: 'c' :: 'e' :: ':' :: ']' :: ']' :: cs := rfl

/-- The set of the characters of a version, as the parser reads it. -/
theorem bracket_versionSet {negation : List Char} (h : '[' ∉ negation) (cs : Text) :
    ∃ p, bracket negation (versionSet ++ cs) = some (p, 11) ∧ ∀ c, p c = isVersion c := by
  have hitems : ∀ fuel, ∃ p, bracketItems (fuel + 3) true
      ('[' :: ':' :: 'd' :: 'i' :: 'g' :: 'i' :: 't' :: ':' :: ']' :: 'I' :: ']' :: cs) =
        some (p, cs) ∧ ∀ c, p c = isVersion c := by
    intro fuel
    refine ⟨_, rfl, fun c => ?_⟩
    simp [isVersion]
  rcases hitems (cs.length + 9) with ⟨p, hp, hversion⟩
  refine ⟨p, ?_, hversion⟩
  rw [versionSet_append, bracket, if_neg h]
  simp only [List.length_cons]
  rw [hp]
  simp only [Option.map_some, Option.some.injEq, Prod.mk.injEq, true_and]
  omega

/-- The set of what is no space. -/
theorem bracket_nonSpaceSet {negation : List Char} (h : '^' ∈ negation) (cs : Text) :
    ∃ p, bracket negation (nonSpaceSet ++ cs) = some (p, 11) ∧ ∀ c, p c = !isSpace c := by
  have hitems : ∀ fuel, ∃ p, bracketItems (fuel + 2) true
      ('[' :: ':' :: 's' :: 'p' :: 'a' :: 'c' :: 'e' :: ':' :: ']' :: ']' :: cs) =
        some (p, cs) ∧ ∀ c, p c = isSpace c := by
    intro fuel
    refine ⟨_, rfl, fun c => ?_⟩
    simp
  rcases hitems (cs.length + 9) with ⟨p, hp, hspace⟩
  refine ⟨fun c => !p c, ?_, fun c => congrArg (!·) (hspace c)⟩
  rw [nonSpaceSet_append, bracket, if_pos h]
  simp only [List.length_cons]
  rw [hp]
  simp only [Option.map_some, Option.some.injEq, Prod.mk.injEq, true_and]
  omega

/-- `[[:space:]]`, after its opening `[` -/
def spaceSet : Text := "[:space:]]".toList

/-- The set of what is space. -/
theorem bracket_spaceSet {negation : List Char} (h : '[' ∉ negation) (cs : Text) :
    ∃ p, bracket negation (spaceSet ++ cs) = some (p, 10) ∧ ∀ c, p c = isSpace c := by
  have hspaces : spaceSet ++ cs =
      '[' :: ':' :: 's' :: 'p' :: 'a' :: 'c' :: 'e' :: ':' :: ']' :: ']' :: cs := rfl
  have hitems : ∀ fuel, ∃ p, bracketItems (fuel + 2) true
      ('[' :: ':' :: 's' :: 'p' :: 'a' :: 'c' :: 'e' :: ':' :: ']' :: ']' :: cs) =
        some (p, cs) ∧ ∀ c, p c = isSpace c := by
    intro fuel
    refine ⟨_, rfl, fun c => ?_⟩
    simp
  rcases hitems (cs.length + 9) with ⟨p, hp, hspace⟩
  refine ⟨p, ?_, hspace⟩
  rw [hspaces, bracket, if_neg h]
  simp only [List.length_cons]
  rw [hp]
  simp only [Option.map_some, Option.some.injEq, Prod.mk.injEq, true_and]
  omega

end Shell
