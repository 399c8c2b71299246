import Backpack.Dufie.Sanitize
import Backpack.Libc

/-!
# The table and the buffer of `sanitize`

`sanitize` goes over the file name twice: it counts the characters that get a backslash, allocates
the buffer, and copies the name. In both loops a character of the name is the index into the table
`clean`, and a plain `char` can be negative.
-/

namespace Backpack.Dufie

open Shell Libc

/-! ## The loops -/

/-- The value of a plain `char` that holds this byte. -/
def charIndex (c : Char) : ℤ := if c.toNat < 128 then c.toNat else c.toNat - 256

/-- `clean[i]`, where `below` is the memory in front of the table. -/
def cleanEntry (below : ℤ → Bool) (i : ℤ) : Bool :=
  if 0 ≤ i then i = charIndex '`' || i = charIndex '"' else below i

/-- `clean[filename[x]]` -/
def cleanAt (below : ℤ → Bool) (c : Char) : Bool := cleanEntry below (charIndex c)

/-- The indices into `clean`, from the loop that clears it to the loop that copies. -/
def cleanIndices (filename : Text) : List ℤ :=
  (List.range 256).map Int.ofNat ++ [charIndex '`', charIndex '"'] ++
    filename.map charIndex ++ filename.map charIndex

/-- The first loop: `y` after it. -/
def countLoop (below : ℤ → Bool) : Text → ℕ → ℕ
  | [], y => y
  | c :: cs, y => countLoop below cs (if cleanAt below c then y + 1 else y)

/-- `malloc(strlen(filename) + y + 3)` -/
def allocated (below : ℤ → Bool) (filename : Text) : ℕ :=
  filename.length + countLoop below filename 0 + 3

/-- The second loop from the place `x` of the name on, and the two bytes behind it: what is written
to `ret`, and where. -/
def copyLoop (below : ℤ → Bool) : Text → ℕ → ℕ → List (ℕ × Char)
  | [], x, y => [(x + y, '"'), (x + y + 1, '\x00')]
  | c :: cs, x, y =>
    if cleanAt below c then
      (x + y, '\\') :: (x + (y + 1), c) :: copyLoop below cs (x + 1) (y + 1)
    else (x + y, c) :: copyLoop below cs (x + 1) y

/-- Everything that is written to `ret`. -/
def retWrites (below : ℤ → Bool) (filename : Text) : List (ℕ × Char) :=
  (0, '"') :: copyLoop below filename 0 1

/-- The table is not left, every allocated byte is written once and in order, and no other one. The
memory in front of the table can be another one in the second loop, where it is `later`. -/
structure StaysInside (below later : ℤ → Bool) (filename : Text) : Prop where
  table : ∀ i ∈ cleanIndices filename, 0 ≤ i ∧ i < 256
  exact : (retWrites later filename).map Prod.fst = List.range (allocated below filename)
  inside : ∀ w ∈ retWrites later filename, w.1 < allocated below filename

/-! ## The buffer -/

section

variable {below later : ℤ → Bool}

/-- A byte is looked up in the table, or in the memory in front of it. -/
theorem clean_eq {c : Char} (hc : c.toNat < 256) :
    clean (fun c => below (charIndex c)) c = cleanAt below c := by
  unfold clean cleanAt cleanEntry
  by_cases h128 : c.toNat < 128
  · have hindex : charIndex c = c.toNat := if_pos h128
    have hchar : ∀ d : Char, (c == d) = decide ((c.toNat : ℤ) = d.toNat) := by
      intro d
      rw [Bool.eq_iff_iff, beq_iff_eq, decide_eq_true_iff, Nat.cast_inj, Char.toNat_inj]
    rw [if_pos h128, hindex, if_pos (by omega), hchar, hchar]
    rfl
  · have hneg : ¬ 0 ≤ charIndex c := by
      rw [charIndex, if_neg h128]
      omega
    rw [if_neg h128, if_neg hneg]

theorem countLoop_eq (filename : Text) (y : ℕ) : countLoop below filename y =
    y + filename.countP (cleanAt below) := by
  induction filename generalizing y with
  | nil => rfl
  | cons c cs ih =>
    rw [countLoop, ih, List.countP_cons]
    split_ifs <;> omega

/-- The place of a write is the number of bytes that were written before. -/
theorem copyLoop_places (filename : Text) (x y : ℕ) :
    (copyLoop below filename x y).map Prod.fst = List.range' (x + y)
      (filename.length + filename.countP (cleanAt below) + 2) := by
  induction filename generalizing x y with
  | nil => rfl
  | cons c cs ih =>
    rw [copyLoop, List.length_cons]
    -- a backslash moves the rest of the name by one place more
    by_cases hc : cleanAt below c
    · rw [if_pos hc, List.countP_cons_of_pos hc, List.map_cons, List.map_cons, ih]
      have hnext : x + 1 + (y + 1) = x + y + 1 + 1 := by omega
      rw [hnext, ← Nat.add_assoc x y 1, ← List.range'_succ, ← List.range'_succ]
      congr 1
      omega
    · rw [if_neg hc, List.countP_cons_of_neg hc, List.map_cons, ih]
      have hnext : x + 1 + y = x + y + 1 := by omega
      rw [hnext, ← List.range'_succ]
      congr 1
      omega

/-- The loop writes the escaped name, the quote and the zero. -/
theorem copyLoop_bytes {filename : Text} (hbytes : ∀ c ∈ filename, c.toNat < 256) (x y : ℕ) :
    (copyLoop below filename x y).map Prod.snd =
      escape (fun c => below (charIndex c)) filename ++ ['"', '\x00'] := by
  induction filename generalizing x y with
  | nil => rfl
  | cons c cs ih =>
    have hclean := @clean_eq below c (hbytes c List.mem_cons_self)
    have htail := ih fun d hd => hbytes d (List.mem_cons_of_mem _ hd)
    rw [copyLoop, escape, hclean]
    split_ifs with hc
    · rw [List.map_cons, List.map_cons, htail]
      rfl
    · rw [List.map_cons, htail]
      rfl

/-- What is written to the buffer is the string that `sanitize` returns. -/
theorem retWrites_bytes (filename : CString) : (retWrites below filename.text).map Prod.snd =
    sanitize (fun c => below (charIndex c)) filename.text ++ ['\x00'] := by
  rw [retWrites, List.map_cons, copyLoop_bytes fun c hc => (filename.bytes c hc).2, sanitize]
  simp

/-- The table itself is the same one in both loops. -/
theorem cleanAt_of_low {c : Char} (h128 : c.toNat < 128) : cleanAt below c = cleanAt later c := by
  have hindex : 0 ≤ charIndex c := by
    rw [charIndex, if_pos h128]
    omega
  rw [cleanAt, cleanAt, cleanEntry, cleanEntry, if_pos hindex, if_pos hindex]

/-- The buffer has the right size if both loops find the same characters. -/
theorem retWrites_places {filename : Text}
    (hsame : ∀ c ∈ filename, cleanAt below c = cleanAt later c) :
    (retWrites later filename).map Prod.fst = List.range (allocated below filename) := by
  have hcount : filename.countP (cleanAt below) = filename.countP (cleanAt later) :=
    List.countP_congr fun c hc => by rw [hsame c hc]
  have hlength : allocated below filename =
      filename.length + filename.countP (cleanAt later) + 2 + 1 := by
    rw [allocated, countLoop_eq, hcount]
    omega
  rw [hlength, List.range_eq_range', List.range'_succ, retWrites, List.map_cons, copyLoop_places]

theorem retWrites_inside {filename : Text}
    (hsame : ∀ c ∈ filename, cleanAt below c = cleanAt later c) {w : ℕ × Char}
    (hw : w ∈ retWrites later filename) : w.1 < allocated below filename := by
  have hplace := List.mem_map_of_mem (f := Prod.fst) hw
  rw [retWrites_places hsame] at hplace
  exact List.mem_range.mp hplace

/-! ## The table -/

theorem charIndex_inside_iff {c : Char} (hc : c.toNat < 256) :
    (0 ≤ charIndex c ∧ charIndex c < 256) ↔ c.toNat < 128 := by
  unfold charIndex
  split_ifs <;> omega

theorem cleanIndices_inside_iff (filename : CString) :
    (∀ i ∈ cleanIndices filename.text, 0 ≤ i ∧ i < 256) ↔ ∀ c ∈ filename.text, c.toNat < 128 := by
  have hname : (∀ i ∈ filename.text.map charIndex, 0 ≤ i ∧ i < 256) ↔
      ∀ c ∈ filename.text, c.toNat < 128 := by
    rw [List.forall_mem_map]
    exact forall₂_congr fun c hc => charIndex_inside_iff (filename.bytes c hc).2
  have hclear : ∀ i ∈ (List.range 256).map Int.ofNat, 0 ≤ i ∧ i < 256 := by
    rw [List.forall_mem_map]
    intro n hn
    have hlt := List.mem_range.mp hn
    exact ⟨Int.natCast_nonneg n, Int.ofNat_lt.mpr hlt⟩
  have hset : ∀ i ∈ [charIndex '`', charIndex '"'], 0 ≤ i ∧ i < 256 := by decide
  simp only [cleanIndices, List.forall_mem_append, hname]
  exact ⟨fun h => h.2, fun h => ⟨⟨⟨hclear, hset⟩, h⟩, h⟩⟩

/-- `sanitize` keeps inside its table and its buffer exactly if no character is negative. -/
theorem staysInside_iff (below later : ℤ → Bool) (filename : CString) :
    StaysInside below later filename.text ↔ ∀ c ∈ filename.text, c.toNat < 128 := by
  constructor
  · intro h
    exact (cleanIndices_inside_iff filename).mp h.table
  · intro hlow
    have hsame : ∀ c ∈ filename.text, cleanAt below c = cleanAt later c :=
      fun c hc => cleanAt_of_low (hlow c hc)
    exact ⟨(cleanIndices_inside_iff filename).mpr hlow, retWrites_places hsame,
      fun w hw => retWrites_inside hsame hw⟩

/-- A name with an accent, which is the byte 233. -/
theorem not_staysInside : ¬ ∀ (below later : ℤ → Bool) (filename : CString),
    StaysInside below later filename.text := by
  intro hall
  have hinside := hall (fun _ => false) (fun _ => false) ⟨[Char.ofNat 233], by decide⟩
  exact absurd (hinside.table (-23) (by decide)) (by decide)

end

end Backpack.Dufie
