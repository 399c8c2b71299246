import Mathlib.Data.Nat.Bitwise
import Mathlib.Tactic.Common
import Mathlib.Tactic.Ring

/-!
# Packed records

A record on disk is a row of bit fields, the first of them in the lowest bits, and its bytes are
those of the number that they make up, the lowest byte first. A value that is too large for its
field is cut off.
-/

namespace Packed

/-! ## Bytes of a number -/

/-- The `k` lowest bytes of a number. -/
def toBytes : ℕ → ℕ → List UInt8
  | 0, _ => []
  | k + 1, n => UInt8.ofNat n :: toBytes k (n / 256)

/-- The number with these bytes. -/
def ofBytes : List UInt8 → ℕ
  | [] => 0
  | b :: bs => b.toNat + 256 * ofBytes bs

@[simp] theorem length_toBytes (k n : ℕ) : (toBytes k n).length = k := by
  induction k generalizing n with
  | zero => rfl
  | succ k ih => rw [toBytes, List.length_cons, ih]

/-- Bytes give back the number they were made from, cut to their width. -/
theorem ofBytes_toBytes (k n : ℕ) : ofBytes (toBytes k n) = n % 256 ^ k := by
  induction k generalizing n with
  | zero => rw [pow_zero, Nat.mod_one]; rfl
  | succ k ih =>
    have h : (UInt8.ofNat n).toNat = n % 256 := by simp
    rw [toBytes, ofBytes, ih, h, pow_succ, mul_comm (256 ^ k) 256, Nat.mod_mul]

/-- Two numbers side by side are one number of the joint width. -/
theorem toBytes_append (a b n m : ℕ) (h : n < 256 ^ a) :
    toBytes (a + b) (n + 256 ^ a * m) = toBytes a n ++ toBytes b m := by
  induction a generalizing n with
  | zero =>
    have hzero : n = 0 := by simpa using h
    simp [hzero, toBytes]
  | succ a ih =>
    have hdiv : n / 256 < 256 ^ a := by
      rw [pow_succ] at h
      omega
    have hquot : (n + 256 ^ (a + 1) * m) / 256 = n / 256 + 256 ^ a * m := by
      have hmul : 256 ^ (a + 1) * m = 256 * (256 ^ a * m) := by ring
      rw [hmul, Nat.add_mul_div_left _ _ (by norm_num)]
    have hbyte : UInt8.ofNat (n + 256 ^ (a + 1) * m) = UInt8.ofNat n := by
      have hmul : 256 ^ (a + 1) * m = 256 * (256 ^ a * m) := by ring
      rw [UInt8.ofNat_eq_iff_mod_eq_toNat, hmul, Nat.add_mul_mod_self_left]
      simp
    rw [Nat.add_right_comm, toBytes, toBytes, hquot, hbyte, ih _ hdiv]
    rfl

/-! ## Bit fields -/

/-- The number of a row of fields, which are given by their widths and values. -/
def pack : List (ℕ × ℕ) → ℕ
  | [] => 0
  | (w, v) :: fs => v % 2 ^ w + 2 ^ w * pack fs

/-- The values of the fields with these widths. -/
def unpack : List ℕ → ℕ → List ℕ
  | [], _ => []
  | w :: ws, n => n % 2 ^ w :: unpack ws (n / 2 ^ w)

/-- The bits of a row of fields. -/
def width (fs : List (ℕ × ℕ)) : ℕ := (fs.map Prod.fst).sum

@[simp] theorem width_nil : width [] = 0 := rfl

@[simp] theorem width_cons (f : ℕ × ℕ) (fs : List (ℕ × ℕ)) : width (f :: fs) = f.1 + width fs := rfl

@[simp] theorem width_append (fs gs : List (ℕ × ℕ)) : width (fs ++ gs) = width fs + width gs := by
  rw [width, List.map_append, List.sum_append]
  rfl

/-- Packed fields fit in their joint width. -/
theorem pack_lt (fs : List (ℕ × ℕ)) : pack fs < 2 ^ width fs := by
  induction fs with
  | nil => exact Nat.one_pos
  | cons f fs ih =>
    have hlt : f.2 % 2 ^ f.1 < 2 ^ f.1 := Nat.mod_lt _ (Nat.two_pow_pos f.1)
    rw [width_cons, pow_add]
    calc f.2 % 2 ^ f.1 + 2 ^ f.1 * pack fs
        < 2 ^ f.1 + 2 ^ f.1 * pack fs := by omega
      _ = 2 ^ f.1 * (pack fs + 1) := by ring
      _ ≤ 2 ^ f.1 * 2 ^ width fs := Nat.mul_le_mul_left _ ih

/-- A second run of fields lies above the first. -/
theorem pack_append (fs gs : List (ℕ × ℕ)) :
    pack (fs ++ gs) = pack fs + 2 ^ width fs * pack gs := by
  induction fs with
  | nil => simp [pack, width]
  | cons f fs ih =>
    rw [List.cons_append, pack, pack, ih, width_cons, pow_add]
    ring

/-- Each field comes back, cut to its own width. -/
theorem unpack_pack (fs : List (ℕ × ℕ)) :
    unpack (fs.map Prod.fst) (pack fs) = fs.map fun f => f.2 % 2 ^ f.1 := by
  induction fs with
  | nil => rfl
  | cons f fs ih =>
    have hpos : 0 < 2 ^ f.1 := Nat.two_pow_pos f.1
    have hlt : f.2 % 2 ^ f.1 < 2 ^ f.1 := Nat.mod_lt _ hpos
    rw [List.map_cons, List.map_cons, unpack, pack, Nat.add_mul_mod_self_left, Nat.mod_mod,
      Nat.add_mul_div_left _ _ hpos, Nat.div_eq_of_lt hlt, Nat.zero_add, ih]

/-! ## Records -/

/-- The bytes of a record. -/
def encode (fs : List (ℕ × ℕ)) : List UInt8 := toBytes (width fs / 8) (pack fs)

/-- The fields of the record at the front, if it is whole. -/
def decode (ws : List ℕ) (bs : List UInt8) : Option (List ℕ) :=
  if bs.length < ws.sum / 8 then none else some (unpack ws (ofBytes (bs.take (ws.sum / 8))))

@[simp] theorem length_encode (fs : List (ℕ × ℕ)) : (encode fs).length = width fs / 8 :=
  length_toBytes _ _

/-- Fields that fill `k` bytes take `k` bytes. -/
theorem width_div {fs : List (ℕ × ℕ)} {k : ℕ} (h : width fs = 8 * k) : width fs / 8 = k := by
  omega

theorem two_pow_width {fs : List (ℕ × ℕ)} {k : ℕ} (h : width fs = 8 * k) :
    2 ^ width fs = 256 ^ k := by
  have hbase : (256 : ℕ) = 2 ^ 8 := by norm_num
  rw [h, hbase, ← pow_mul]

/-- A record of whole bytes comes back, with each value cut to its field. -/
theorem decode_encode (fs : List (ℕ × ℕ)) {k : ℕ} (h : width fs = 8 * k) (rest : List UInt8) :
    decode (fs.map Prod.fst) (encode fs ++ rest) = some (fs.map fun f => f.2 % 2 ^ f.1) := by
  have hwidth : (fs.map Prod.fst).sum / 8 = (encode fs).length := (length_encode fs).symm
  rw [decode, hwidth, if_neg (by rw [List.length_append]; omega), List.take_left, encode,
    ofBytes_toBytes, width_div h, ← two_pow_width h, Nat.mod_eq_of_lt (pack_lt fs), unpack_pack]

/-- Records one behind the other. -/
theorem encode_append {fs gs : List (ℕ × ℕ)} {k : ℕ} (h : width fs = 8 * k) :
    encode (fs ++ gs) = encode fs ++ encode gs := by
  have hwidth : (width fs + width gs) / 8 = k + width gs / 8 := by omega
  have hlt := pack_lt fs
  rw [two_pow_width h] at hlt
  rw [encode, width_append, pack_append, hwidth, two_pow_width h, toBytes_append _ _ _ _ hlt,
    encode, width_div h]
  rfl

end Packed
