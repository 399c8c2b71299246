import Backpack.Shell.Text

/-!
# Functions of the C library

What a program sees that reads a file through a buffer of fixed size, and the numbers that
it finds in the lines. A text is the part of a buffer before its first zero. Where the standard
leaves open what happens the result is `none`.
-/

namespace Libc

open Shell

/-! ## Lines -/

/-- At most `n` characters, and none after a newline. -/
def takeLine : ℕ → Text → Text × Text
  | 0, t => ([], t)
  | _ + 1, [] => ([], [])
  | n + 1, c :: t =>
    if c = '\n' then ([c], t)
    else
      let r := takeLine n t
      (c :: r.1, r.2)

/-- `fgets(s, size, stream)`: what is read, and what the stream holds after it. -/
def fgets (size : ℕ) (stream : Text) : Text × Text := takeLine (size - 1) stream

/-- What `fgets` reads until the stream is empty, at most `n` times. -/
def fgetsTimes (size : ℕ) : ℕ → Text → List Text
  | 0, _ => []
  | _ + 1, [] => []
  | n + 1, c :: t => (fgets size (c :: t)).1 :: fgetsTimes size n (fgets size (c :: t)).2

/-- `while (fgets(s, size, stream))` -/
def fgetsAll (size : ℕ) (stream : Text) : List Text := fgetsTimes size stream.length stream

/-- Nothing is lost between a line and the rest. -/
theorem takeLine_append (n : ℕ) (t : Text) : (takeLine n t).1 ++ (takeLine n t).2 = t := by
  induction n generalizing t with
  | zero => rfl
  | succ n ih =>
    cases t with
    | nil => rfl
    | cons c t =>
      rw [takeLine]
      split
      · rfl
      · exact congrArg (c :: ·) (ih t)

/-- A line that is short enough is taken with its newline. -/
theorem takeLine_line {n : ℕ} {l : Text} (hl : '\n' ∉ l) (hn : l.length < n) (t : Text) :
    takeLine n (l ++ '\n' :: t) = (l ++ ['\n'], t) := by
  induction l generalizing n with
  | nil =>
    obtain ⟨n, rfl⟩ := Nat.exists_eq_succ_of_ne_zero (Nat.ne_zero_of_lt hn)
    simp [takeLine]
  | cons c l ih =>
    obtain ⟨n, rfl⟩ := Nat.exists_eq_succ_of_ne_zero (Nat.ne_zero_of_lt hn)
    have hc : c ≠ '\n' := fun heq => hl (by simp [heq])
    have hlt : l.length < n := by simpa using hn
    rw [List.cons_append, takeLine, if_neg hc, ih (fun h => hl (by simp [h])) hlt]
    rfl

/-- A line that is too long is cut. -/
theorem takeLine_cut {n : ℕ} {l : Text} (hl : '\n' ∉ l) (hn : n ≤ l.length) (t : Text) :
    takeLine n (l ++ t) = (l.take n, l.drop n ++ t) := by
  induction l generalizing n with
  | nil =>
    obtain rfl : n = 0 := by simpa using hn
    rfl
  | cons c l ih =>
    cases n with
    | zero => rfl
    | succ n =>
      have hc : c ≠ '\n' := fun heq => hl (by simp [heq])
      have hle : n ≤ l.length := by simpa using hn
      rw [List.cons_append, takeLine, if_neg hc, ih (fun h => hl (by simp [h])) hle]
      rfl

/-- The last line needs no newline. -/
theorem takeLine_last {n : ℕ} {l : Text} (hl : '\n' ∉ l) (hn : l.length ≤ n) :
    takeLine n l = (l, []) := by
  induction l generalizing n with
  | nil => cases n <;> rfl
  | cons c l ih =>
    cases n with
    | zero => simp at hn
    | succ n =>
      have hc : c ≠ '\n' := fun heq => hl (by simp [heq])
      have hle : l.length ≤ n := by simpa using hn
      rw [takeLine, if_neg hc, ih (fun h => hl (by simp [h])) hle]

section Fgets

variable {size : ℕ}

/-- `fgets` takes something of a file that is not at its end. -/
theorem fgets_length_lt (hsize : 2 ≤ size) {t : Text} (ht : t ≠ []) :
    (fgets size t).2.length < t.length := by
  obtain ⟨n, hn⟩ : ∃ n, size - 1 = n + 1 := ⟨size - 2, by omega⟩
  have hcat := takeLine_append (n + 1) t
  have hlen := congrArg List.length hcat
  rw [List.length_append] at hlen
  rw [fgets, hn]
  cases t with
  | nil => exact absurd rfl ht
  | cons c t =>
    have hpos : 0 < (takeLine (n + 1) (c :: t)).1.length := by
      rw [takeLine]
      split <;> simp
    omega

/-- No more than `n` characters are taken. -/
theorem length_takeLine_le (n : ℕ) (t : Text) : (takeLine n t).1.length ≤ n := by
  induction n generalizing t with
  | zero => rfl
  | succ n ih =>
    cases t with
    | nil => exact Nat.zero_le _
    | cons c t =>
      rw [takeLine]
      split
      · simp
      · simpa using ih t

/-- Every piece fits in the buffer with its zero. -/
theorem length_lt_of_mem_fgetsAll (hsize : 2 ≤ size) {c t : Text} (hc : c ∈ fgetsAll size t) :
    c.length < size := by
  suffices h : ∀ (n : ℕ) (t : Text), c ∈ fgetsTimes size n t → c.length < size from h _ t hc
  intro n
  induction n with
  | zero => exact fun t hc => absurd hc List.not_mem_nil
  | succ n ih =>
    intro t hc
    cases t with
    | nil => exact absurd hc List.not_mem_nil
    | cons d t =>
      rw [fgetsTimes, List.mem_cons] at hc
      rcases hc with rfl | hc
      · have hle := length_takeLine_le (size - 1) (d :: t)
        rw [fgets]
        omega
      · exact ih _ hc

/-- The number of reads does not matter when it is large enough. -/
theorem fgetsTimes_eq (hsize : 2 ≤ size) {n : ℕ} {t : Text} (hn : t.length ≤ n) :
    fgetsTimes size n t = fgetsAll size t := by
  suffices h : ∀ (n m : ℕ) (t : Text), t.length ≤ n → t.length ≤ m →
      fgetsTimes size n t = fgetsTimes size m t from h n t.length t hn (Nat.le_refl _)
  intro n
  induction n with
  | zero =>
    intro m t hn _
    obtain rfl : t = [] := by simpa using hn
    cases m <;> rfl
  | succ n ih =>
    intro m t hn hm
    cases t with
    | nil => cases m <;> rfl
    | cons c t =>
      cases m with
      | zero => simp at hm
      | succ m =>
        have hlt := fgets_length_lt hsize (List.cons_ne_nil c t)
        rw [List.length_cons] at hlt hn hm
        rw [fgetsTimes, fgetsTimes, ih m _ (by omega) (by omega)]

theorem fgetsAll_cons (hsize : 2 ≤ size) {t : Text} (ht : t ≠ []) :
    fgetsAll size t = (fgets size t).1 :: fgetsAll size (fgets size t).2 := by
  have hlt := fgets_length_lt hsize ht
  cases t with
  | nil => exact absurd rfl ht
  | cons c t =>
    rw [fgetsAll, List.length_cons, fgetsTimes, fgetsTimes_eq hsize]
    rw [List.length_cons] at hlt
    omega

/-- A line that fits in the buffer is one piece. -/
theorem fgetsAll_line {l : Text} (hl : '\n' ∉ l) (hlen : l.length + 1 < size) (t : Text) :
    fgetsAll size (l ++ '\n' :: t) = (l ++ ['\n']) :: fgetsAll size t := by
  rw [fgetsAll_cons (by omega) (by simp), fgets, takeLine_line hl (by omega)]

/-- So is a last line without a newline. -/
theorem fgetsAll_last {l : Text} (hl : '\n' ∉ l) (hne : l ≠ []) (hlen : l.length < size) :
    fgetsAll size l = [l] := by
  have hpos := List.length_pos_iff.mpr hne
  rw [fgetsAll_cons (by omega) hne, fgets, takeLine_last hl (by omega)]
  rfl

/-- A file of lines that fit is read line by line. -/
theorem fgetsAll_unlines {ls : List Text} (hls : ∀ l ∈ ls, '\n' ∉ l ∧ l.length + 1 < size)
    (t : Text) : fgetsAll size (unlines ls ++ t) = ls.map (· ++ ['\n']) ++ fgetsAll size t := by
  induction ls with
  | nil => rfl
  | cons l ls ih =>
    obtain ⟨hl, hlen⟩ := hls l List.mem_cons_self
    have hcat : unlines (l :: ls) ++ t = l ++ '\n' :: (unlines ls ++ t) := by simp [unlines]
    rw [hcat, fgetsAll_line hl hlen, ih fun k hk => hls k (List.mem_cons_of_mem _ hk)]
    rfl

/-- All lines, with their newlines, are shorter than the buffer. -/
def ShortLines (size : ℕ) (t : Text) : Prop :=
  (∀ l ∈ readLines t, l.length + 1 < size) ∧ (lastPiece t).length < size

instance (size : ℕ) (t : Text) : Decidable (ShortLines size t) :=
  inferInstanceAs (Decidable (_ ∧ _))

/-- Short lines are read one by one. -/
theorem fgetsAll_eq {t : Text} (hls : ShortLines size t) :
    fgetsAll size t =
      (readLines t).map (· ++ ['\n']) ++ if lastPiece t = [] then [] else [lastPiece t] := by
  have hread : ∀ l ∈ readLines t, '\n' ∉ l ∧ l.length + 1 < size := fun l hl =>
    ⟨newline_not_mem_readLines hl, hls.1 l hl⟩
  conv_lhs => rw [eq_unlines_append t]
  rw [fgetsAll_unlines hread]
  by_cases hlast : lastPiece t = []
  · rw [if_pos hlast, hlast]
    rfl
  · rw [if_neg hlast, fgetsAll_last (newline_not_mem_lastPiece t) hlast hls.2]

/-- A line is read with its newline, or without one if it is the last line. -/
theorem fgetsAll_forall₂ {t : Text} (hls : ShortLines size t) :
    List.Forall₂ (fun c l => c = l ++ ['\n'] ∨ c = l) (fgetsAll size t) (fileLines t) := by
  rw [fgetsAll_eq hls, fileLines]
  refine List.rel_append ?_ ?_
  · rw [List.forall₂_map_left_iff]
    exact List.forall₂_same.mpr fun l _ => Or.inl rfl
  · exact List.forall₂_same.mpr fun l _ => Or.inr rfl

end Fgets

/-! ## Search -/

/-- `strchr` finds the first place. -/
theorem split_at_first {α : Type} [DecidableEq α] {c : α} {s : List α} (hs : c ∉ s)
    (u : List α) : (s ++ c :: u).takeWhile (fun x => x ≠ c) = s ∧
      (s ++ c :: u).dropWhile (fun x => x ≠ c) = c :: u := by
  have hnot : ∀ x ∈ s, (decide (x ≠ c)) = true := fun x hx =>
    decide_eq_true fun heq => hs (heq ▸ hx)
  rw [List.takeWhile_append_of_pos hnot, List.dropWhile_append_of_pos hnot]
  simp

/-! ## Comparison -/

/-- `strncasecmp(s, key, strlen(key)) == 0` -/
def hasKey (key s : Text) : Bool := (s.take key.length).map Char.toLower == key.map Char.toLower

/-- A key goes no further than a character that it does not have. -/
theorem hasKey_append_cons {key : Text} {c : Char} (hkey : ∀ k ∈ key, k.toLower ≠ c.toLower)
    (s t : Text) : hasKey key (s ++ c :: t) = hasKey key s := by
  by_cases hle : key.length ≤ s.length
  · rw [hasKey, hasKey, List.take_append_of_le_length hle]
  · have hshort : hasKey key s = false := by
      rw [hasKey, beq_eq_false_iff_ne]
      intro h
      have hlen := congrArg List.length h
      simp only [List.length_map, List.length_take] at hlen
      omega
    rw [hshort, hasKey, beq_eq_false_iff_ne]
    intro h
    obtain ⟨n, hn⟩ := Nat.exists_eq_add_of_lt (not_le.mp hle)
    have hmem : c ∈ (s ++ c :: t).take key.length := by
      rw [hn, Nat.add_assoc, List.take_append, Nat.add_sub_cancel_left]
      simp
    obtain ⟨k, hk, hkc⟩ := List.mem_map.mp (h ▸ List.mem_map_of_mem (f := Char.toLower) hmem)
    exact hkey k hk hkc

/-- The newline is no part of a key. -/
theorem hasKey_append_newline {key : Text} (hkey : ∀ k ∈ key, k.toLower ≠ '\n') (s : Text) :
    hasKey key (s ++ ['\n']) = hasKey key s :=
  hasKey_append_cons hkey s []

/-- The first line with a key, as it is read. -/
theorem find?_fgetsAll {size : ℕ} {key t : Text} (hkey : ∀ k ∈ key, k.toLower ≠ '\n')
    (hls : ShortLines size t) :
    (fgetsAll size t).find? (hasKey key) =
        ((readLines t).find? (hasKey key)).map (· ++ ['\n']) ∧
      (fileLines t).find? (hasKey key) = (readLines t).find? (hasKey key) ∨
    (fgetsAll size t).find? (hasKey key) = (fileLines t).find? (hasKey key) := by
  have hlines : ((readLines t).map (· ++ ['\n'])).find? (hasKey key) =
      ((readLines t).find? (hasKey key)).map (· ++ ['\n']) := by
    rw [List.find?_map]
    congr 2
    exact funext fun l => hasKey_append_newline hkey l
  rw [fgetsAll_eq hls, List.find?_append, hlines, fileLines, List.find?_append]
  cases (readLines t).find? (hasKey key) with
  | none => exact Or.inr rfl
  | some l => exact Or.inl ⟨rfl, rfl⟩

/-- A line with the key is as long as the key. -/
theorem length_le_of_hasKey {key s : Text} (h : hasKey key s) : key.length ≤ s.length := by
  rw [hasKey, beq_iff_eq] at h
  have hlen := congrArg List.length h
  simp only [List.length_map, List.length_take] at hlen
  omega

/-! ## Numbers -/

/-- `isspace` -/
def isspace (c : Char) : Bool :=
  c == ' ' || c == '\t' || c == '\n' || c == '\x0b' || c == '\x0c' || c == '\r'

/-- The digits at the beginning, as a number. -/
def digits (t : Text) : ℕ := Nat.ofDigitChars 10 (t.takeWhile Char.isDigit) 0

/-- A sign and digits. -/
def signed : Text → ℤ
  | '-' :: t => -(digits t : ℤ)
  | '+' :: t => digits t
  | t => digits t

/-- The number at the beginning of a text, 0 where there is none. -/
def number (t : Text) : ℤ := signed (t.dropWhile isspace)

/-- The values of a `long`. -/
def IsLong (n : ℤ) : Prop := -2 ^ 63 ≤ n ∧ n < 2 ^ 63

instance (n : ℤ) : Decidable (IsLong n) := inferInstanceAs (Decidable (_ ∧ _))

/-- A value that a `long` can hold. -/
def long (n : ℤ) : Option ℤ := if IsLong n then some n else none

/-- `atol` -/
def atol (t : Text) : Option ℤ := long (number t)

/-- A `long` holds a number when that is in its range. -/
theorem long_eq_some_iff {n m : ℤ} : long n = some m ↔ IsLong n ∧ n = m := by
  simp [long]

theorem long_of_nonneg {n : ℤ} (hn : 0 ≤ n) : long n = if n < 2 ^ 63 then some n else none := by
  have hiff : IsLong n ↔ n < 2 ^ 63 := and_iff_right (by omega)
  simp only [long, hiff]

/-- Each number and each sum on the way from `sum` can be held. -/
def SumsFit (sum : ℤ) (ns : List ℤ) : Prop :=
  ∀ pre n post, ns = pre ++ n :: post → IsLong n ∧ IsLong (sum + (pre ++ [n]).sum)

theorem sumsFit_nil {sum : ℤ} : SumsFit sum [] := by
  intro pre n post h
  simp at h

/-- A sum stays in range when its first step does and the rest from there. -/
theorem sumsFit_cons {sum n : ℤ} {ns : List ℤ} :
    SumsFit sum (n :: ns) ↔ (IsLong n ∧ IsLong (sum + n)) ∧ SumsFit (sum + n) ns := by
  have hcons := @forall_split_cons _ n ns
    (fun pre m => IsLong m ∧ IsLong (sum + (pre ++ [m]).sum))
  have hsum : ∀ pre m, sum + (n :: pre ++ [m]).sum = sum + n + (pre ++ [m]).sum := by
    intro pre m
    rw [List.cons_append, List.sum_cons, Int.add_assoc]
  refine hcons.trans (and_congr (by simp) ?_)
  simp only [hsum, SumsFit]

/-- The number ends at the first character that is no digit. -/
theorem digits_append {t u : Text} (hu : ∀ c ∈ u.head?, c.isDigit = false) :
    digits (t ++ u) = digits t := by
  have htake : (t ++ u).takeWhile Char.isDigit = t.takeWhile Char.isDigit := by
    rw [List.takeWhile_append]
    split
    case isTrue hall =>
      have hnil : u.takeWhile Char.isDigit = [] := by
        cases u with
        | nil => rfl
        | cons c u => simp [hu c rfl]
      have hall' := (List.takeWhile_prefix Char.isDigit (l := t)).eq_of_length hall
      rw [hnil, hall', List.append_nil]
    case isFalse => rfl
  rw [digits, digits, htake]

/-- Without a sign, the number is its digits. -/
theorem signed_of_digits {c : Char} (hminus : c ≠ '-') (hplus : c ≠ '+') (t : Text) :
    signed (c :: t) = digits (c :: t) := by
  unfold signed
  split
  case h_1 heq => exact absurd (List.cons.inj heq).1 hminus
  case h_2 heq => exact absurd (List.cons.inj heq).1 hplus
  case h_3 => rfl

/-- What follows the digits does not change the number. -/
theorem signed_append {t u : Text} (hne : t ≠ []) (hu : ∀ c ∈ u.head?, c.isDigit = false) :
    signed (t ++ u) = signed t := by
  cases t with
  | nil => exact absurd rfl hne
  | cons c t =>
    by_cases hminus : c = '-'
    · subst hminus
      exact congrArg (fun n : ℕ => -(n : ℤ)) (digits_append hu)
    · by_cases hplus : c = '+'
      · subst hplus
        exact congrArg (fun n : ℕ => (n : ℤ)) (digits_append hu)
      · rw [List.cons_append, signed_of_digits hminus hplus, signed_of_digits hminus hplus,
          ← List.cons_append, digits_append hu]

/-- What does not go on with a digit, and is no number itself, is no part of the number. -/
theorem number_append {u : Text} (t : Text) (hu : ∀ c ∈ u.head?, c.isDigit = false)
    (hzero : number u = 0) : number (t ++ u) = number t := by
  rw [number, number, List.dropWhile_append]
  split
  case isTrue hnil =>
    have hdrop : t.dropWhile isspace = [] := by simpa using hnil
    rw [hdrop]
    exact hzero
  case isFalse hnil =>
    exact signed_append (by simpa using hnil) hu

/-- The newline at the end of a line is no part of the number. -/
theorem number_append_newline (t : Text) : number (t ++ ['\n']) = number t := by
  refine number_append t ?_ rfl
  intro c hc
  obtain rfl : '\n' = c := Option.some.inj hc
  decide

/-- A number written in decimal is read back. -/
theorem number_toDigits (n : ℕ) : number (Nat.toDigits 10 n) = n := by
  have hdigit : ∀ c ∈ Nat.toDigits 10 n, c.isDigit = true := fun c hc =>
    Nat.isDigit_of_mem_toDigits (by decide) (by decide) hc
  cases hcs : Nat.toDigits 10 n with
  | nil => exact absurd hcs Nat.toDigits_ne_nil
  | cons c cs =>
    have hc : c.isDigit = true := hdigit c (by rw [hcs]; exact List.mem_cons_self)
    have hother : ∀ d : Char, d.isDigit = false → c ≠ d := by
      rintro d hd rfl
      simp [hc] at hd
    have hspace : isspace c = false := by
      simp [isspace, hother ' ' (by decide), hother '\t' (by decide), hother '\n' (by decide),
        hother '\x0b' (by decide), hother '\x0c' (by decide), hother '\r' (by decide)]
    have hsigned := signed_of_digits (hother '-' (by decide)) (hother '+' (by decide)) cs
    rw [number, List.dropWhile_cons_of_neg (by simp [hspace]), hsigned, digits, ← hcs,
      List.takeWhile_eq_self_iff.mpr hdigit, Nat.ofDigitChars_ten_toDigits]

/-! ## Buffers -/

/-- The bytes of a string before its final zero. -/
structure CString where
  text : Text
  bytes : ∀ c ∈ text, c ≠ '\x00' ∧ c.toNat < 256

/-- A string that a program makes in a buffer of some bytes. -/
structure BufferWrite where
  size : ℕ
  text : Text

/-- There is room for the string and the zero behind it. -/
def BufferWrite.Fits (w : BufferWrite) : Prop := w.text.length + 1 ≤ w.size

instance (w : BufferWrite) : Decidable w.Fits := inferInstanceAs (Decidable (_ ≤ _))

theorem BufferWrite.fits_mk {size : ℕ} {text : Text} :
    BufferWrite.Fits ⟨size, text⟩ ↔ text.length + 1 ≤ size := Iff.rfl

/-- What is written behind a test only has to fit where the test succeeds. -/
theorem fits_if_iff {p : Prop} [Decidable p] {ws : List BufferWrite} :
    (∀ w ∈ if p then ws else [], w.Fits) ↔ (p → ∀ w ∈ ws, w.Fits) := by
  simp only [List.mem_ite_nil_right]
  exact ⟨fun h hp w hw => h w ⟨hp, hw⟩, fun h w hw => h hw.1 w hw.2⟩

/-- `strcpy(buf, part)` and `strcat(buf, part)` for some parts, behind the string `s`. -/
def assemble (size : ℕ) : Text → List Text → List BufferWrite
  | _, [] => []
  | s, part :: parts => ⟨size, s ++ part⟩ :: assemble size (s ++ part) parts

/-- The last string is the longest one. -/
theorem assemble_fit_iff {size : ℕ} {parts : List Text} (hne : parts ≠ []) (s : Text) :
    (∀ w ∈ assemble size s parts, w.Fits) ↔ s.length + parts.flatten.length + 1 ≤ size := by
  induction parts generalizing s with
  | nil => exact absurd rfl hne
  | cons part parts ih =>
    rw [assemble, List.forall_mem_cons, BufferWrite.fits_mk, List.flatten_cons]
    by_cases hparts : parts = []
    · subst hparts
      simp [assemble]
    · rw [ih hparts, List.length_append, List.length_append]
      constructor
      · intro h
        omega
      · intro h
        exact ⟨by omega, by omega⟩

/-- The bytes of a buffer after a string is written to it. -/
def store (s buf : Text) : Text := s ++ '\x00' :: buf.drop (s.length + 1)

/-- The string that a buffer holds. -/
def string (buf : Text) : Text := buf.takeWhile (· ≠ '\x00')

/-- Text without a zero is its own string. -/
theorem string_eq_self {s : Text} (hs : '\x00' ∉ s) : string s = s :=
  List.takeWhile_eq_self_iff.mpr fun _ hc => decide_eq_true fun heq => hs (heq ▸ hc)

theorem length_string_le (s : Text) : (string s).length ≤ s.length :=
  (List.takeWhile_prefix _).length_le

/-- A string ends at the first zero. -/
theorem string_append_zero (s t : Text) : string (s ++ '\x00' :: t) = string s := by
  rw [string, string, List.takeWhile_append]
  split
  case isTrue hall =>
    have hall' := (List.takeWhile_prefix _).eq_of_length hall
    rw [hall']
    simp
  case isFalse => rfl

/-- What `strcpy` stores is the string. -/
theorem string_store (s buf : Text) : string (store s buf) = string s := string_append_zero _ _

/-- The string from a place on is stored at that place. -/
theorem string_drop_store {s : Text} {n : ℕ} (hn : n ≤ s.length) (buf : Text) :
    string ((store s buf).drop n) = string (s.drop n) := by
  rw [store, List.drop_append_of_le_length hn, string_append_zero]

/-- A buffer is a string, or has a zero after it. -/
theorem string_eq (s : Text) : s = string s ∨ ∃ t, s = string s ++ '\x00' :: t := by
  have hsplit := List.takeWhile_append_dropWhile (p := fun c : Char => c ≠ '\x00') (l := s)
  cases hrest : s.dropWhile (fun c => c ≠ '\x00') with
  | nil =>
    rw [hrest, List.append_nil] at hsplit
    exact Or.inl hsplit.symm
  | cons c t =>
    have hc := List.head?_dropWhile_not (fun c : Char => decide (c ≠ '\x00')) s
    rw [hrest] at hc hsplit
    obtain rfl : c = '\x00' := by simpa using hc
    exact Or.inr ⟨t, hsplit.symm⟩

/-- A key without a zero is found before the first zero. -/
theorem hasKey_string {key : Text} (hkey : ∀ k ∈ key, k.toLower ≠ '\x00') (s : Text) :
    hasKey key (string s) = hasKey key s := by
  rcases string_eq s with h | ⟨t, h⟩
  · rw [← h]
  · conv_rhs => rw [h]
    exact (hasKey_append_cons hkey _ _).symm

/-- `atol` reads no further than the zero. -/
theorem number_string (s : Text) : number (string s) = number s := by
  rcases string_eq s with h | ⟨t, h⟩
  · rw [← h]
  · conv_rhs => rw [h]
    refine (number_append _ ?_ ?_).symm
    · intro d hd
      obtain rfl : '\x00' = d := Option.some.inj hd
      decide
    · rw [number, List.dropWhile_cons_of_neg (by decide),
        signed_of_digits (by decide) (by decide), digits, List.takeWhile_cons_of_neg (by decide)]
      rfl

end Libc
