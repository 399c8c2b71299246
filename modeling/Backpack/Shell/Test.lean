import Backpack.Shell.Text

/-!
# The command `[`

`test` finds its operators among its operands, so an operand that is spelled like an operator
is taken for one. The BusyBox of the initramfs and the bash of the build do this in different
ways; here are their readers for five operands and more, without the special cases for less.
-/

namespace Shell

/-- The tests that ask for more than the operands: of files, numbers and the order of texts.
There is no answer where `test` ends with an error, such as a number that is none. -/
abbrev SystemTests := Text → List Text → Option Bool

/-- A test with one operand. -/
def unop (sys : SystemTests) (op x : Text) : Option Bool :=
  if op = "-z".toList then some x.isEmpty
  else if op = "-n".toList then some !x.isEmpty
  else sys op [x]

/-- A test with two operands. -/
def binop (sys : SystemTests) (x op y : Text) : Option Bool :=
  if op = "=".toList then some (x == y)
  else if op = "!=".toList then some (x != y)
  else sys op [x, y]

def unaryOps : List Text :=
  ["-r", "-w", "-x", "-e", "-f", "-d", "-c", "-b", "-p", "-u", "-g", "-k", "-s", "-t", "-z",
    "-n", "-h", "-O", "-G", "-L", "-S"].map String.toList

def binaryOps : List Text :=
  ["=", "!=", "<", ">", "-eq", "-ne", "-ge", "-gt", "-le", "-lt", "-nt", "-ot", "-ef"].map
    String.toList

/-! ## BusyBox -/

inductive TestToken
  | unary | binary | not | and | or | lparen | rparen | operand
deriving DecidableEq

/-- `t_lex` -/
def tLex (t : Text) : TestToken :=
  if t ∈ unaryOps then .unary
  else if t ∈ binaryOps then .binary
  else if t = "!".toList then .not
  else if t = "-a".toList then .and
  else if t = "-o".toList then .or
  else if t = "(".toList then .lparen
  else if t = ")".toList then .rparen
  else .operand

mutual

/-- `oexpr`: the value, and the operands that are left. -/
def oexpr (sys : SystemTests) : ℕ → List Text → Option (Bool × List Text)
  | 0, _ => none
  | n + 1, ts => (aexpr sys n ts).bind fun x => match x.2 with
    | [] => some x
    | t :: rest =>
      if tLex t = .or then (oexpr sys n rest).map fun y => (y.1 || x.1, y.2) else some x

/-- `aexpr` -/
def aexpr (sys : SystemTests) : ℕ → List Text → Option (Bool × List Text)
  | 0, _ => none
  | n + 1, ts => (nexpr sys n ts).bind fun x => match x.2 with
    | [] => some x
    | t :: rest =>
      if tLex t = .and then (aexpr sys n rest).map fun y => (y.1 && x.1, y.2) else some x

/-- `nexpr` and `primary` -/
def nexpr (sys : SystemTests) : ℕ → List Text → Option (Bool × List Text)
  | 0, _ => none
  | _, [] => none
  | n + 1, t :: ts => match tLex t with
    | .not => (nexpr sys n ts).map fun x => (!x.1, x.2)
    | .lparen => (oexpr sys n ts).bind fun x => match x.2 with
      | [] => none
      | close :: rest => if tLex close = .rparen then some (x.1, rest) else none
    -- an operator of one operand is one whatever comes behind it
    | .unary => match ts with
      | [] => none
      | x :: rest => (unop sys t x).map fun b => (b, rest)
    | _ => match ts with
      | [] => some (!t.isEmpty, [])
      | op :: rest =>
        if tLex op = .binary then match rest with
          | [] => none
          | y :: rest => (binop sys t op y).map fun b => (b, rest)
        else some (!t.isEmpty, op :: rest)

end

/-- The exit status of BusyBox `test` is 0 or 1; there is none on a syntax error. -/
def busyboxTest (sys : SystemTests) (ts : List Text) : Option Bool :=
  (oexpr sys (3 * ts.length + 3) ts).bind fun x => if x.2 = [] then some x.1 else none

/-- An operand that is not read as the first one of a comparison. -/
def LeadingOperator (t : Text) : Prop := tLex t = .unary ∨ tLex t = .not ∨ tLex t = .lparen

instance (t : Text) : Decidable (LeadingOperator t) := inferInstanceAs (Decidable (_ ∨ _ ∨ _))

section

variable {sys : SystemTests} {t op y : Text}

/-- A comparison. -/
theorem nexpr_binary (ht : ¬ LeadingOperator t) (hop : tLex op = .binary) (n : ℕ)
    (rest : List Text) :
    nexpr sys (n + 1) (t :: op :: y :: rest) = (binop sys t op y).map fun b => (b, rest) := by
  unfold LeadingOperator at ht
  rw [nexpr]
  cases htok : tLex t <;> simp_all

/-- An operator that no comparison follows counts as a text that is not empty. -/
theorem nexpr_text (hop : tLex op = .binary) (hy : tLex y = .operand) (n : ℕ)
    (rest : List Text) : nexpr sys (n + 1) (op :: y :: rest) = some (true, y :: rest) := by
  have hne : op ≠ [] := by
    rintro rfl
    exact absurd hop (by decide)
  simp [nexpr, hop, hy, hne]

/-- Operands are left behind a comparison whose first operand is an operator. -/
theorem nexpr_leading (ht : LeadingOperator t) (hop : tLex op = .binary)
    (hy : tLex y = .operand) (n : ℕ) (rest : List Text) :
    ∀ x ∈ nexpr sys (n + 4) (t :: op :: y :: rest), x.2 = y :: rest := by
  intro x hx
  rw [nexpr] at hx
  rcases ht with ht | ht | ht
  · simp only [ht, Option.mem_def, Option.map_eq_some_iff] at hx
    obtain ⟨b, -, rfl⟩ := hx
    rfl
  · simp only [ht, nexpr_text hop hy, Option.map_some, Option.mem_def, Option.some.injEq] at hx
    rw [← hx]
  · have haexpr : aexpr sys (n + 2) (op :: y :: rest) = some (true, y :: rest) := by
      rw [aexpr, nexpr_text hop hy]
      simp [hy]
    have hoexpr : oexpr sys (n + 3) (op :: y :: rest) = some (true, y :: rest) := by
      rw [oexpr, haexpr]
      simp [hy]
    simp [ht, hoexpr, hy] at hx

theorem aexpr_leading (ht : LeadingOperator t) (hop : tLex op = .binary)
    (hy : tLex y = .operand) (n : ℕ) (rest : List Text) :
    ∀ x ∈ aexpr sys (n + 5) (t :: op :: y :: rest), x.2 = y :: rest := by
  intro x hx
  rw [aexpr, Option.mem_def, Option.bind_eq_some_iff] at hx
  obtain ⟨z, hz, hx⟩ := hx
  have hrest := nexpr_leading ht hop hy n rest z hz
  simp only [hrest, hy, reduceCtorEq, if_false, Option.some.injEq] at hx
  rw [← hx, hrest]

/-- The last comparison. -/
theorem aexpr_last (ht : ¬ LeadingOperator t) (hop : tLex op = .binary) (n : ℕ) :
    aexpr sys (n + 2) [t, op, y] = (binop sys t op y).map fun b => (b, []) := by
  rw [aexpr, nexpr_binary ht hop]
  cases binop sys t op y <;> rfl

/-- A comparison in front of `-a`. -/
theorem aexpr_and (ht : ¬ LeadingOperator t) (hop : tLex op = .binary) (n : ℕ)
    (rest : List Text) : aexpr sys (n + 2) (t :: op :: y :: "-a".toList :: rest) =
      (binop sys t op y).bind fun b => (aexpr sys (n + 1) rest).map fun x => (x.1 && b, x.2) := by
  have hand : tLex "-a".toList = .and := by decide
  rw [aexpr, nexpr_binary ht hop]
  cases binop sys t op y with
  | none => rfl
  | some b => simp only [Option.map_some, Option.bind_some, hand, if_true]

/-- With an operator in front, `test` stops with a syntax error. -/
theorem busyboxTest_leading (ht : LeadingOperator t) (hop : tLex op = .binary)
    (hy : tLex y = .operand) (rest : List Text) :
    busyboxTest sys (t :: op :: y :: rest) = none := by
  have hfuel : 3 * (t :: op :: y :: rest).length + 3 = (3 * rest.length + 6) + 5 + 1 := by
    simp only [List.length_cons]
    omega
  rw [busyboxTest, hfuel, oexpr]
  cases hx : aexpr sys (3 * rest.length + 6 + 5) (t :: op :: y :: rest) with
  | none => rfl
  | some x =>
    have hrest := aexpr_leading ht hop hy _ rest x hx
    simp [hrest, hy]

/-- Three comparisons with `-a` between them, the last of which asks for an empty operand. -/
theorem busyboxTest_iff {a b c u v : Text} (hu : tLex u = .operand) (hb : ¬ LeadingOperator b) :
    busyboxTest sys [a, "!=".toList, u, "-a".toList, b, "!=".toList, v, "-a".toList, c,
      "=".toList, []] = some true ↔ ¬ LeadingOperator a ∧ a ≠ u ∧ b ≠ v ∧ c = [] := by
  have hne : tLex "!=".toList = .binary := by decide
  have heq : tLex "=".toList = .binary := by decide
  have hbinop : ∀ s t, binop sys s "!=".toList t = some (s != t) := fun _ _ => rfl
  by_cases ha : LeadingOperator a
  · rw [busyboxTest_leading ha hne hu]
    simp [ha]
  have hands : aexpr sys 35 [a, "!=".toList, u, "-a".toList, b, "!=".toList, v, "-a".toList, c,
      "=".toList, []] = (aexpr sys 33 [c, "=".toList, []]).map fun x =>
        ((x.1 && b != v) && a != u, x.2) := by
    rw [aexpr_and ha hne, aexpr_and hb hne, hbinop, hbinop]
    cases aexpr sys 33 [c, "=".toList, []] <;> rfl
  show (oexpr sys 36 _).bind _ = some true ↔ _
  rw [oexpr, hands]
  clear hands
  by_cases hc : LeadingOperator c
  · -- the empty operand is left
    have hcnil : c ≠ [] := by
      rintro rfl
      exact absurd hc (by decide)
    cases hx : aexpr sys 33 [c, "=".toList, []] with
    | none => simp [hcnil]
    | some x =>
      have hrest := aexpr_leading hc heq (by decide) 28 [] x hx
      have hnil : tLex [] = .operand := by decide
      simp [hrest, hcnil, hnil]
  · have hlast : aexpr sys 33 [c, "=".toList, []] = some (c == [], []) := aexpr_last hc heq 31
    rw [hlast]
    simp [ha, and_comm]

end

/-! ## Bash -/

/-- A test with one operand, or a text. -/
def bashSwitch (sys : SystemTests) (t : Text) (ts : List Text) : Option (Bool × List Text) :=
  if t.length = 2 ∧ t.head? = some '-' then
    if t ∈ "-a".toList :: "-o".toList :: "-N".toList :: unaryOps then match ts with
      | [] => none
      | x :: rest => (unop sys t x).map fun b => (b, rest)
    else none
  else some (!t.isEmpty, ts)

/-- The part of `term` behind `!` and parentheses: an operator of two operands comes first. -/
def bashBinary (sys : SystemTests) (t : Text) : List Text → Option (Bool × List Text)
  | op :: y :: rest =>
    if op ∈ "==".toList :: binaryOps then (binop sys t op y).map fun b => (b, rest)
    else bashSwitch sys t (op :: y :: rest)
  | ts => bashSwitch sys t ts

mutual

/-- `or`, also known as `expr` -/
def bashOr (sys : SystemTests) : ℕ → List Text → Option (Bool × List Text)
  | 0, _ => none
  | n + 1, ts => (bashAnd sys n ts).bind fun x => match x.2 with
    | [] => some x
    | t :: rest =>
      if t = "-o".toList then (bashOr sys n rest).map fun y => (x.1 || y.1, y.2) else some x

/-- `and` -/
def bashAnd (sys : SystemTests) : ℕ → List Text → Option (Bool × List Text)
  | 0, _ => none
  | n + 1, ts => (bashTerm sys n ts).bind fun x => match x.2 with
    | [] => some x
    | t :: rest =>
      if t = "-a".toList then (bashAnd sys n rest).map fun y => (x.1 && y.1, y.2) else some x

/-- `term` -/
def bashTerm (sys : SystemTests) : ℕ → List Text → Option (Bool × List Text)
  | 0, _ => none
  | _, [] => none
  | n + 1, t :: ts =>
    if t = "!".toList then (bashTerm sys n ts).map fun x => (!x.1, x.2)
    else if t = "(".toList then (bashOr sys n ts).bind fun x => match x.2 with
      | [] => none
      | close :: rest => if close = ")".toList then some (x.1, rest) else none
    else bashBinary sys t ts

end

/-- The exit status of bash's `test` is 0 or 1; on a syntax error it is neither. -/
def bashTest (sys : SystemTests) (ts : List Text) : Option Bool :=
  (bashOr sys (3 * ts.length + 3) ts).bind fun x => if x.2 = [] then some x.1 else none

section

variable {sys : SystemTests}

theorem bashTerm_binary {t op y : Text} (ht : t ≠ "!".toList) (ht' : t ≠ "(".toList)
    (hop : op ∈ "==".toList :: binaryOps) (k : ℕ) (rest : List Text) :
    bashTerm sys (k + 1) (t :: op :: y :: rest) =
      (binop sys t op y).map fun b => (b, rest) := by
  rw [bashTerm, if_neg ht, if_neg ht', bashBinary, if_pos hop]

/-- The first operand asks whether a text is empty. -/
def EmptyTest (t : Text) : Prop := t = "-z".toList ∨ t = "-n".toList

/-- A test of a text, unless the text is an operator of two operands. -/
theorem bashTerm_empty {t x : Text} (ht : EmptyTest t) (hx : x ∉ "==".toList :: binaryOps)
    (k : ℕ) (y : Text) (rest : List Text) :
    bashTerm sys (k + 1) (t :: x :: y :: rest) =
      some (x.isEmpty == (t == "-z".toList), y :: rest) := by
  rcases ht with rfl | rfl
  · rw [bashTerm, if_neg (by decide), if_neg (by decide), bashBinary, if_neg hx, bashSwitch,
      if_pos (by decide), if_pos (by decide)]
    show some (x.isEmpty, y :: rest) = some (x.isEmpty == true, y :: rest)
    rw [beq_true]
  · rw [bashTerm, if_neg (by decide), if_neg (by decide), bashBinary, if_neg hx, bashSwitch,
      if_pos (by decide), if_pos (by decide)]
    show some (!x.isEmpty, y :: rest) = some (x.isEmpty == false, y :: rest)
    rw [beq_false]

/-- `!=` in front of the last operand is a text. -/
theorem bashTerm_text (w : Text) (k : ℕ) :
    bashTerm sys (k + 1) ["!=".toList, w] = some (true, [w]) := by
  rw [bashTerm, if_neg (by decide), if_neg (by decide)]
  rfl

/-- A test of a file at the end. -/
theorem bashTerm_exists (p : Text) (k : ℕ) :
    bashTerm sys (k + 1) ["-e".toList, p] = (sys "-e".toList [p]).map fun b => (b, []) := by
  rw [bashTerm, if_neg (by decide), if_neg (by decide)]
  rfl

section

variable {t g : Text} (ht : EmptyTest t)
include ht

theorem EmptyTest.ne : t ≠ "!".toList ∧ t ≠ "(".toList := by
  rcases ht with rfl | rfl <;> decide

theorem bashAnd_empty (hg : g ∉ "==".toList :: binaryOps) (k : ℕ) (rest : List Text) :
    bashAnd sys (k + 2) (t :: g :: "-a".toList :: rest) =
      (bashAnd sys (k + 1) rest).map fun y =>
        ((g.isEmpty == (t == "-z".toList)) && y.1, y.2) := by
  rw [bashAnd, bashTerm_empty ht hg]
  simp only [Option.bind_some, if_true]

/-- A text that is an operator takes `-a` for its second operand, and all others are left. -/
theorem bashOr_operator (hg : g ∈ "==".toList :: binaryOps) {h : Text} (hh : h ≠ "-a".toList)
    (hh' : h ≠ "-o".toList) (k : ℕ) (rest : List Text) :
    ∀ x ∈ bashOr sys (k + 3) (t :: g :: "-a".toList :: h :: rest), x.2 = h :: rest := by
  intro x hx
  rw [bashOr, bashAnd, bashTerm_binary ht.ne.1 ht.ne.2 hg] at hx
  cases hb : binop sys t g "-a".toList with
  | none =>
    rw [hb] at hx
    exact absurd hx (by simp)
  | some b =>
    simp only [hb, Option.map_some, Option.bind_some, if_neg hh, if_neg hh', Option.mem_def,
      Option.some.injEq] at hx
    rw [← hx]

/-- A test of a text and another test behind `-a`. -/
theorem bashTest_and {h : Text} {rest : List Text} (hh : h ≠ "-a".toList) (hh' : h ≠ "-o".toList)
    {b : Bool} (hrest : bashAnd sys (3 * rest.length + 13) (h :: rest) = some (b, [])) :
    bashTest sys (t :: g :: "-a".toList :: h :: rest) = some true ↔
      g ∉ "==".toList :: binaryOps ∧ g.isEmpty = (t == "-z".toList) ∧ b = true := by
  have hfuel : 3 * (t :: g :: "-a".toList :: h :: rest).length + 3 =
      (3 * rest.length + 12) + 3 := by
    simp only [List.length_cons]
    omega
  rw [bashTest, hfuel]
  by_cases hg : g ∈ "==".toList :: binaryOps
  · refine iff_of_false (fun htrue => ?_) fun h => h.1 hg
    obtain ⟨x, hx, hleft⟩ := Option.bind_eq_some_iff.mp htrue
    rw [bashOr_operator ht hg hh hh' _ rest x hx, if_neg (List.cons_ne_nil _ _)] at hleft
    exact absurd hleft (by simp)
  · rw [bashOr, bashAnd_empty ht hg, hrest, ← beq_iff_eq (a := g.isEmpty), and_iff_right hg]
    simp only [Option.map_some, Option.bind_some, if_true, Option.some.injEq, Bool.and_eq_true]

end

/-- The text is not empty, and there is no file. -/
theorem bashTest_not_exists {g p : Text} {b : Bool} (h : sys "-e".toList [p] = some b) :
    bashTest sys ["-n".toList, g, "-a".toList, "!".toList, "-e".toList, p] = some true ↔
      g ∉ "==".toList :: binaryOps ∧ g ≠ [] ∧ b = false := by
  have hrest : bashAnd sys 19 ["!".toList, "-e".toList, p] = some (!b, []) := by
    rw [bashAnd, bashTerm, if_pos rfl, bashTerm_exists, h]
    rfl
  rw [bashTest_and (Or.inr rfl) (by decide) (by decide) hrest, ← List.isEmpty_eq_false_iff,
    Bool.not_eq_true']
  exact Iff.rfl

/-- The text is not empty, and there is a file. -/
theorem bashTest_exists {g p : Text} {b : Bool} (h : sys "-e".toList [p] = some b) :
    bashTest sys ["-n".toList, g, "-a".toList, "-e".toList, p] = some true ↔
      g ∉ "==".toList :: binaryOps ∧ g ≠ [] ∧ b = true := by
  have hrest : bashAnd sys 16 ["-e".toList, p] = some (b, []) := by
    rw [bashAnd, bashTerm_exists, h]
    rfl
  rw [bashTest_and (Or.inr rfl) (by decide) (by decide) hrest, ← List.isEmpty_eq_false_iff]
  exact Iff.rfl

/-- A test of a text and a comparison, with `-a` between them: the name that is compared may be an
operator, too. -/
theorem bashTest_compare {t g n w : Text} (ht : EmptyTest t)
    (hw : ∀ op ∈ ["-a", "-o", ")"], w ≠ op.toList) :
    bashTest sys [t, g, "-a".toList, n, "!=".toList, w] = some true ↔
      g ∉ "==".toList :: binaryOps ∧ g.isEmpty = (t == "-z".toList) ∧
        n ≠ w ∧ n ≠ "!".toList ∧ n ≠ "(".toList := by
  have hwa : w ≠ "-a".toList := hw "-a" (by simp)
  have hwo : w ≠ "-o".toList := hw "-o" (by simp)
  have hwp : w ≠ ")".toList := hw ")" (by simp)
  -- `!=` and the operand behind it, read on their own
  have hand : ∀ k, bashAnd sys (k + 2) ["!=".toList, w] = some (true, [w]) := by
    intro k
    rw [bashAnd, bashTerm_text]
    simp only [Option.bind_some, if_neg hwa]
  have hor : ∀ k, bashOr sys (k + 3) ["!=".toList, w] = some (true, [w]) := by
    intro k
    rw [bashOr, hand]
    simp only [Option.bind_some, if_neg hwo]
  show (bashOr sys 21 _).bind _ = some true ↔ _
  by_cases hg : g ∈ "==".toList :: binaryOps
  · refine iff_of_false ?_ fun h => h.1 hg
    rw [bashOr, bashAnd, bashTerm_binary ht.ne.1 ht.ne.2 hg]
    cases binop sys t g "-a".toList with
    | none => simp
    | some b =>
      by_cases ha : n = "-a".toList
      · simp only [Option.map_some, Option.bind_some, if_pos ha, hand, if_neg hwo]
        simp
      · by_cases ho : n = "-o".toList
        · simp only [Option.map_some, Option.bind_some, if_neg ha, if_pos ho, hor]
          simp
        · simp only [Option.map_some, Option.bind_some, if_neg ha, if_neg ho]
          simp
  have hname : bashAnd sys 19 [n, "!=".toList, w] =
      if n = "!".toList then some (false, [w])
      else if n = "(".toList then none
      else some (n != w, []) := by
    rw [bashAnd]
    split_ifs with hnot hparen
    · rw [bashTerm, if_pos hnot, bashTerm_text]
      simp only [Option.map_some, Option.bind_some, if_neg hwa, Bool.not_true]
    · rw [bashTerm, if_neg hnot, if_pos hparen, hor]
      simp only [Option.bind_some, if_neg hwp, Option.bind_none]
    · rw [bashTerm_binary hnot hparen (by decide)]
      rfl
  rw [bashOr, bashAnd_empty ht hg, hname, and_iff_right hg]
  by_cases hnot : n = "!".toList
  · simp only [if_pos hnot, Option.map_some, Option.bind_some, if_neg hwo]
    exact iff_of_false (by simp) fun h => h.2.2.1 hnot
  by_cases hparen : n = "(".toList
  · simp only [if_neg hnot, if_pos hparen, Option.map_none, Option.bind_none]
    exact iff_of_false (by simp) fun h => h.2.2.2 hparen
  have hplain : n ≠ "!".toList ∧ n ≠ "(".toList := ⟨hnot, hparen⟩
  rw [and_iff_left hplain, ← beq_iff_eq (a := g.isEmpty)]
  simp only [if_neg hnot, if_neg hparen, Option.map_some, Option.bind_some, if_true,
    Option.some.injEq, Bool.and_eq_true, bne_iff_ne, ne_eq]

end

end Shell
