import Backpack.Dufie.Listing
import Backpack.Libc

/-!
# The buffers of a row

For a row `create_file_tree` allocates 12 bytes for the text of the size, and 14 bytes more than the
name has for the label. The sizes come from lists of packages, and nobody looks at how large they
are.
-/

namespace Backpack.Dufie

open Shell Libc

/-! ## The texts -/

/-- `%.1f` of the rational number `num / d`. -/
def exactDigit (num d : ℕ) : Text :=
  let t := roundDiv (10 * num) d
  Nat.toDigits 10 (t / 10) ++ '.' :: Nat.toDigits 10 (t % 10)

/-- What `readable` writes when it divides without an error. -/
def exactReadable (num : ℕ) : Text :=
  if 1000000000 ≤ num then exactDigit num 1073741824 ++ "TB".toList
  else if 1000000 ≤ num then exactDigit num 1048576 ++ "GB".toList
  else if 1000 ≤ num then exactDigit num 1024 ++ "MB".toList
  else Nat.toDigits 10 num ++ "KB".toList

/-- What is written to `size` and `out` for a row. -/
def labelWrites (name text : Text) : List BufferWrite :=
  [⟨12, text⟩, ⟨name.length + 14, name ++ " (".toList ++ text ++ [')']⟩]

/-- What is written for an element of the list. The child has the name from `sub->dir + x + 1` on,
for which the buffer is allocated too. -/
def rowWrites (path : Text) (parent : Option ℕ) (dir text : Text) : List BufferWrite :=
  match turn path parent dir with
  | .skip => []
  | .root => labelWrites dir text
  | .child name => labelWrites name text

/-! ## Rounding -/

/-- From the middle between an odd number and the next one it is rounded up. -/
theorem roundDiv_le_iff {a b k : ℕ} (hb : 0 < b) (hk : k % 2 = 1) :
    roundDiv a b ≤ k ↔ 2 * a < (2 * k + 1) * b := by
  have hdiv : b * (a / b) + a % b = a := Nat.div_add_mod a b
  have hmod : a % b < b := Nat.mod_lt a hb
  unfold roundDiv
  dsimp only
  generalize a / b = q at *
  generalize a % b = r at *
  subst hdiv
  rcases lt_trichotomy q k with hlt | rfl | hlt
  · have hle : b * (q + 1) ≤ b * k := Nat.mul_le_mul_left b hlt
    refine iff_of_true ?_ ?_
    · split_ifs <;> omega
    · nlinarith
  · have hsplit : (2 * q + 1) * b = 2 * (b * q) + b := by ring
    rw [hsplit]
    split_ifs <;> omega
  · have hle : b * (k + 1) ≤ b * q := Nat.mul_le_mul_left b hlt
    refine iff_of_false ?_ ?_
    · split_ifs <;> omega
    · nlinarith

/-- The text has as many characters as the integer part has digits, and two more. -/
theorem length_exactDigit_le_iff {num d k : ℕ} (hd : 0 < d) (hk : 0 < k) :
    (exactDigit num d).length ≤ k + 2 ↔ 20 * num + d < 2 * 10 ^ (k + 1) * d := by
  have hlast : (Nat.toDigits 10 (roundDiv (10 * num) d % 10)).length = 1 := by
    rw [Nat.toDigits_of_lt_base (Nat.mod_lt _ (by decide))]
    rfl
  have hten : 10 ^ (k + 1) = 10 * 10 ^ k := by rw [pow_succ, Nat.mul_comm]
  have hpos : 0 < 10 ^ k := Nat.pos_of_ne_zero (by positivity)
  have hround := @roundDiv_le_iff (10 * num) d (10 ^ (k + 1) - 1) hd (by omega)
  have hlen : (exactDigit num d).length ≤ k + 2 ↔ roundDiv (10 * num) d / 10 < 10 ^ k := by
    rw [← Nat.length_toDigits_le_iff (by decide) hk, exactDigit, List.length_append,
      List.length_cons, hlast]
    omega
  obtain ⟨m, hm⟩ : ∃ m, 10 ^ (k + 1) = m + 1 := ⟨10 ^ (k + 1) - 1, by omega⟩
  rw [hlen, Nat.div_lt_iff_lt_mul (by decide), Nat.mul_comm _ 10, ← hten, ← Nat.le_sub_one_iff_lt
    (by omega), hround, hm, Nat.add_sub_cancel]
  constructor
  · intro h
    linarith
  · intro h
    linarith

/-- Below a terabyte the text has at most seven characters, and from there on the digits grow with
the number. -/
theorem length_exactReadable_le_iff {n k : ℕ} (hk : 3 ≤ k) :
    (exactReadable n).length ≤ k + 4 ↔ 20 * n + 2 ^ 30 < 2 * 10 ^ (k + 1) * 2 ^ 30 := by
  have hpow : 10 ^ 4 ≤ 10 ^ (k + 1) := Nat.pow_le_pow_right (by decide) (by omega)
  have hdigits : ∀ d, 0 < d → 20 * n + d < 2 * 10 ^ 4 * d →
      (exactDigit n d).length ≤ k + 2 := by
    intro d hd hlt
    have hshort := (@length_exactDigit_le_iff n d 3 hd (by decide)).mpr hlt
    omega
  -- the smaller units end before their texts get as long
  unfold exactReadable
  split_ifs with hTB hGB hMB
  · have hiff := @length_exactDigit_le_iff n 1073741824 k (by decide) (by omega)
    rw [List.length_append, show "TB".toList.length = 2 from rfl]
    omega
  · have hshort := hdigits 1048576 (by decide) (by omega)
    rw [List.length_append, show "GB".toList.length = 2 from rfl]
    omega
  · have hshort := hdigits 1024 (by decide) (by omega)
    rw [List.length_append, show "MB".toList.length = 2 from rfl]
    omega
  · have hshort : (Nat.toDigits 10 n).length ≤ 3 :=
      (Nat.length_toDigits_le_iff (by decide) (by decide)).mpr (by omega)
    rw [List.length_append, show "KB".toList.length = 2 from rfl]
    omega

/-! ## The buffers -/

theorem labelWrites_fit_iff {name text : Text} :
    (∀ w ∈ labelWrites name text, w.Fits) ↔ text.length ≤ 10 := by
  have htwo : " (".toList.length = 2 := rfl
  simp only [labelWrites, List.forall_mem_cons, BufferWrite.Fits, List.length_append, htwo,
    List.length_singleton]
  constructor
  · rintro ⟨-, h, -⟩
    omega
  · intro h
    exact ⟨by omega, by omega, fun w hw => absurd hw List.not_mem_nil⟩

/-- The texts of a row fit in their buffers exactly for the sizes that are printed with at most six
digits before the point, for the row at the top and for the rows below. -/
theorem rowWrites_fit_iff (path : Text) (parent : Option ℕ) (dir : Text) (n : ℕ) :
    (∀ w ∈ rowWrites path parent dir (exactReadable n), w.Fits) ↔
      turn path parent dir = .skip ∨ 20 * n < 19999999 * 2 ^ 30 := by
  have hiff := @length_exactReadable_le_iff n 6 (by decide)
  have hsize : (exactReadable n).length ≤ 10 ↔ 20 * n < 19999999 * 2 ^ 30 := by omega
  unfold rowWrites
  cases turn path parent dir with
  | skip => simp
  | root => simp [labelWrites_fit_iff, hsize]
  | child name => simp [labelWrites_fit_iff, hsize]

/-- A size with seven digits before the point. -/
theorem not_rowWrites_fit : ¬ ∀ (path : Text) (parent : Option ℕ) (dir : Text) (n : ℕ),
    n < 2 ^ 63 → ∀ w ∈ rowWrites path parent dir (exactReadable n), w.Fits := by
  intro hall
  have hfit := (rowWrites_fit_iff ['/'] none ['/'] 1073741770312909).mp
    (hall _ _ _ _ (by decide))
  exact absurd hfit (by decide)

/-! ## With a division of `double`s -/

/-- Up to the 53 bits of a `double` it makes no difference. -/
theorem readable_eq_exact {n : ℕ} (hn : n < 2 ^ 53) : readable n = exactReadable n := by
  have hdouble : toDouble n = n := if_pos hn
  have hdigit : ∀ d, oneDigit n d = exactDigit n d := fun d => by
    rw [oneDigit, exactDigit, hdouble]
  have hneg : ¬ (n : ℤ) < 0 := by omega
  simp only [readable, exactReadable, Int.toNat_natCast, Int.natAbs_natCast, hdigit, hdouble,
    if_neg hneg, List.nil_append]
  norm_cast

theorem le_toDouble {n : ℕ} (hn : 2 ^ 53 ≤ n) : 2 ^ 53 ≤ toDouble n := by
  have hlog : 53 ≤ n.log2 := (Nat.le_log2 (by omega)).mpr hn
  have hround : n / 2 ^ (n.log2 - 52) ≤ roundDiv n (2 ^ (n.log2 - 52)) := by
    unfold roundDiv
    dsimp only
    split_ifs <;> omega
  have hself : 2 ^ n.log2 ≤ n := Nat.log2_self_le (by omega)
  have hquot : 2 ^ 52 ≤ n / 2 ^ (n.log2 - 52) := by
    rw [Nat.le_div_iff_mul_le (by positivity), ← pow_add]
    rwa [Nat.add_sub_cancel' (by omega)]
  rw [toDouble, if_neg (by omega)]
  calc 2 ^ 53 = 2 ^ 52 * 2 ^ 1 := by norm_num
    _ ≤ roundDiv n (2 ^ (n.log2 - 52)) * 2 ^ (n.log2 - 52) :=
        Nat.mul_le_mul (hquot.trans hround) (Nat.pow_le_pow_right (by decide) (by omega))

/-- The sizes that fit are the same ones. -/
theorem fits_iff_lt {n : ℕ} : Fits n ↔ 20 * n < 19999999 * 2 ^ 30 := by
  rw [fits_iff]
  by_cases hn : n < 2 ^ 53
  · have hiff := @length_exactReadable_le_iff n 6 (by decide)
    rw [readable_eq_exact hn]
    omega
  · -- the rounded number is too large, too
    refine iff_of_false ?_ (by omega)
    have hdouble := le_toDouble (not_lt.mp hn)
    have hdigit := @length_exactDigit_le_iff (toDouble n) 1073741824 6 (by decide) (by decide)
    have hTB : (1000000000 : ℤ) ≤ n := by omega
    have hlen : (readable n).length = (exactDigit (toDouble n) 1073741824).length + 2 := by
      rw [readable, if_pos hTB, List.length_append]
      rfl
    omega

end Backpack.Dufie
