import Mathlib.Data.List.Nodup
import Mathlib.Tactic.Common

/-!
# Framed streams

A stream is written in blocks of one size, each of them in a frame of its own length, so a place
in the stream is kept as the place where the frame of its block begins, with the offset in the
block. A reader who takes the frames in turn puts the blocks together again, and notes for each
frame how far the stream was at its beginning: with that every place is found.
-/

namespace Framed

variable {β γ : Type}

/-! ## Blocks -/

/-- The first `k` blocks of a stream. -/
def blocks (size : ℕ) : ℕ → List β → List (List β)
  | 0, _ => []
  | k + 1, t => t.take size :: blocks size k (t.drop size)

/-- The blocks in a stream of `n`, the last of which may be short. -/
def count (size n : ℕ) : ℕ := (n + size - 1) / size

@[simp] theorem length_blocks (size k : ℕ) (t : List β) : (blocks size k t).length = k := by
  induction k generalizing t with
  | zero => rfl
  | succ k ih => rw [blocks, List.length_cons, ih]

/-- One block more is the next `size` elements. -/
theorem blocks_succ (size k : ℕ) (t : List β) :
    blocks size (k + 1) t = blocks size k t ++ [(t.drop (k * size)).take size] := by
  induction k generalizing t with
  | zero => simp [blocks]
  | succ k ih =>
    have h : size + k * size = (k + 1) * size := by
      rw [Nat.succ_mul, Nat.add_comm]
    rw [blocks, ih, List.drop_drop, h]
    rfl

/-- What comes later does not change the full blocks. -/
theorem blocks_append {size k : ℕ} {t : List β} (h : k * size ≤ t.length) (u : List β) :
    blocks size k (t ++ u) = blocks size k t := by
  induction k generalizing t with
  | zero => rfl
  | succ k ih =>
    rw [Nat.succ_mul] at h
    have hone : size ≤ t.length := by omega
    have hrest : k * size ≤ (t.drop size).length := by
      rw [List.length_drop]
      omega
    rw [blocks, blocks, List.take_append_of_le_length hone, List.drop_append_of_le_length hone,
      ih hrest]

/-- The blocks together are the part of the stream they cover. -/
theorem flatten_blocks (size k : ℕ) (t : List β) :
    (blocks size k t).flatten = t.take (k * size) := by
  induction k generalizing t with
  | zero => simp [blocks]
  | succ k ih =>
    have h : (k + 1) * size = size + k * size := by
      rw [Nat.succ_mul, Nat.add_comm]
    rw [blocks, List.flatten_cons, ih, h, List.take_add]

/-- The blocks of a stream cover it. -/
theorem le_count_mul {size : ℕ} (hs : 0 < size) (n : ℕ) : n ≤ count size n * size := by
  have h := Nat.div_add_mod (n + size - 1) size
  have hmod := Nat.mod_lt (n + size - 1) hs
  rw [count, Nat.mul_comm]
  omega

/-- A place in the stream lies in one of its blocks. -/
theorem div_lt_count {size p n : ℕ} (hs : 0 < size) (h : p < n) : p / size < count size n := by
  rw [count, Nat.lt_iff_add_one_le, Nat.le_div_iff_mul_le hs, Nat.succ_mul]
  have hmul := Nat.div_mul_le_self p size
  omega

/-- The first blocks do not depend on how many are cut. -/
theorem take_blocks {size j k : ℕ} (h : j ≤ k) (t : List β) :
    (blocks size k t).take j = blocks size j t := by
  induction j generalizing k t with
  | zero => rfl
  | succ j ih =>
    cases k with
    | zero => omega
    | succ k => rw [blocks, blocks, List.take_succ_cons, ih (by omega)]

/-- No block that begins in the stream is empty. -/
theorem mem_blocks {size : ℕ} (hs : 0 < size) {k : ℕ} {t b : List β}
    (hk : k ≤ count size t.length) (hb : b ∈ blocks size k t) : b ≠ [] ∧ b.length ≤ size := by
  induction k generalizing t with
  | zero => exact absurd hb List.not_mem_nil
  | succ k ih =>
    have hsucc : (k + 1) * size ≤ t.length + size - 1 := by
      rw [count, Nat.le_div_iff_mul_le hs] at hk
      exact hk
    rw [Nat.succ_mul] at hsucc
    rcases List.mem_cons.mp hb with hmem | hmem
    · rw [hmem]
      refine ⟨fun hnil => ?_, by rw [List.length_take]; omega⟩
      have hlen := congrArg List.length hnil
      rw [List.length_take, List.length_nil] at hlen
      omega
    · refine ih ?_ hmem
      rw [count, Nat.le_div_iff_mul_le hs, List.length_drop]
      omega

/-! ## Writing -/

/-- What is in frames already, and what waits for its block to be full. -/
structure Stream (β γ : Type) where
  table : List γ
  cache : List β

variable (frame : List β → List γ) (size : ℕ)

/-- The full blocks leave the cache. -/
def Stream.flush : ℕ → Stream β γ → Stream β γ
  | 0, s => s
  | n + 1, s =>
    if size ≤ s.cache.length then
      Stream.flush n ⟨s.table ++ frame (s.cache.take size), s.cache.drop size⟩
    else s

/-- All that is left leaves it. -/
def Stream.finish : ℕ → Stream β γ → Stream β γ
  | 0, s => s
  | n + 1, s =>
    if s.cache.length = 0 then s
    else Stream.finish n ⟨s.table ++ frame (s.cache.take size), s.cache.drop size⟩

/-- The stream `t` was written, and its first `k` blocks are in frames. -/
structure Stream.Holds (s : Stream β γ) (t : List β) (k : ℕ) : Prop where
  table : s.table = (blocks size k t).flatMap frame
  cache : s.cache = t.drop (k * size)
  le : k * size ≤ t.length

variable {frame size}

/-- Adding to the cache adds to the stream. -/
theorem Stream.Holds.append {s : Stream β γ} {t : List β} {k : ℕ} (h : s.Holds frame size t k)
    (u : List β) : Stream.Holds frame size ⟨s.table, s.cache ++ u⟩ (t ++ u) k where
  table := by
    rw [blocks_append h.le]
    exact h.table
  cache := by
    rw [List.drop_append_of_le_length h.le]
    exact congrArg (· ++ u) h.cache
  le := by
    have hle := h.le
    rw [List.length_append]
    omega

/-- One more block. -/
theorem Stream.Holds.succ {s : Stream β γ} {t : List β} {k : ℕ} (h : s.Holds frame size t k) :
    s.table ++ frame (s.cache.take size) = (blocks size (k + 1) t).flatMap frame ∧
      s.cache.drop size = t.drop ((k + 1) * size) := by
  constructor
  · rw [blocks_succ, List.flatMap_append, h.table, h.cache]
    simp
  · have hmul : k * size + size = (k + 1) * size := by rw [Nat.succ_mul]
    rw [h.cache, List.drop_drop, hmul]

/-- Flushing the full blocks of the cache leaves the stream as it is. -/
theorem Stream.Holds.flush (hs : 0 < size) {s : Stream β γ} {t : List β} {k n : ℕ}
    (h : s.Holds frame size t k) (hn : t.length ≤ k * size + n) :
    (s.flush frame size n).Holds frame size t (t.length / size) := by
  have hlen : s.cache.length = t.length - k * size := by rw [h.cache, List.length_drop]
  have hle := h.le
  -- when no block is full
  have hdone : t.length < k * size + size → t.length / size = k := fun hshort => by
    rw [Nat.div_eq_iff hs]
    omega
  induction n generalizing s k with
  | zero =>
    rw [hdone (by omega)]
    exact h
  | succ n ih =>
    rw [Stream.flush]
    by_cases hfull : size ≤ s.cache.length
    · rw [if_pos hfull]
      have ⟨htable, hcache⟩ := h.succ
      have hle' : (k + 1) * size ≤ t.length := by
        rw [Nat.succ_mul]
        omega
      have hstep : Stream.Holds frame size
          ⟨s.table ++ frame (s.cache.take size), s.cache.drop size⟩ t (k + 1) :=
        ⟨htable, hcache, hle'⟩
      refine ih hstep ?_ ?_ hle' ?_
      · rw [Nat.succ_mul]
        omega
      · rw [← List.length_drop, ← hcache]
      · intro hdone'
        rw [Nat.div_eq_iff hs]
        rw [Nat.succ_mul] at hle' hdone' ⊢
        omega
    · rw [if_neg hfull, hdone (by omega)]
      exact h

/-- When the cache is emptied, the table is the framed blocks of the whole stream. -/
theorem Stream.Holds.finish (hs : 0 < size) {s : Stream β γ} {t : List β} {k n : ℕ}
    (h : s.Holds frame size t k) (hn : t.length ≤ k * size + n) :
    (s.finish frame size n).table =
      (blocks size (count size t.length) t).flatMap frame := by
  have hlen : s.cache.length = t.length - k * size := by rw [h.cache, List.length_drop]
  have hle := h.le
  have hdone : t.length = k * size → count size t.length = k := fun hall => by
    rw [count, Nat.div_eq_iff hs]
    omega
  induction n generalizing s k with
  | zero =>
    rw [hdone (by omega)]
    exact h.table
  | succ n ih =>
    rw [Stream.finish]
    by_cases hempty : s.cache.length = 0
    · rw [if_pos hempty, hdone (by omega)]
      exact h.table
    · rw [if_neg hempty]
      have ⟨htable, hcache⟩ := h.succ
      by_cases hfull : (k + 1) * size ≤ t.length
      · have hstep : Stream.Holds frame size
            ⟨s.table ++ frame (s.cache.take size), s.cache.drop size⟩ t (k + 1) :=
          ⟨htable, hcache, hfull⟩
        refine ih hstep ?_ ?_ hfull ?_
        · rw [Nat.succ_mul]
          omega
        · rw [← List.length_drop, ← hcache]
        · intro hrest
          rw [count, Nat.div_eq_iff hs]
          rw [Nat.succ_mul] at hfull hrest ⊢
          omega
      · -- the last block is short
        rw [Nat.succ_mul] at hfull
        have hcount : count size t.length = k + 1 := by
          rw [count, Nat.div_eq_iff hs, Nat.succ_mul]
          omega
        have hdrop : s.cache.drop size = [] := by
          rw [List.drop_eq_nil_iff]
          omega
        have hfinish : (Stream.finish frame size n
            ⟨s.table ++ frame (s.cache.take size), s.cache.drop size⟩).table =
            s.table ++ frame (s.cache.take size) := by
          rw [hdrop]
          cases n <;> rfl
        rw [hfinish, htable, hcount]

/-! ## Places -/

/-- Where a place of the stream is kept: the beginning of the frame of its block, and the offset. -/
def place (frame : List β → List γ) (size : ℕ) (t : List β) (p : ℕ) : ℕ × ℕ :=
  (((blocks size (p / size) t).flatMap frame).length, p % size)

/-- A place stays the same while the stream grows. -/
theorem place_append {t : List β} {p : ℕ} (h : p ≤ t.length) (u : List β) :
    place frame size (t ++ u) p = place frame size t p := by
  have hmul := Nat.div_mul_le_self p size
  rw [place, place, blocks_append (by omega)]

/-- The place where the next bytes go. -/
theorem Stream.Holds.place_eq {s : Stream β γ} {t : List β}
    (h : s.Holds frame size t (t.length / size)) :
    place frame size t t.length = (s.table.length, s.cache.length) := by
  have hdiv := Nat.div_add_mod t.length size
  have hcomm := Nat.mul_comm size (t.length / size)
  rw [place, h.table, h.cache, List.length_drop]
  congr 1
  omega

/-- `bs` stands at `p`. -/
def At (t : List β) (p : ℕ) (bs : List β) : Prop :=
  ∃ pre post, t = pre ++ bs ++ post ∧ pre.length = p

/-- What is appended stands at the old end. -/
theorem at_end (t bs : List β) : At (t ++ bs) t.length bs := ⟨t, [], by simp, rfl⟩

/-- What stands in a text stands there after more is appended. -/
theorem At.append {t : List β} {p : ℕ} {bs : List β} (h : At t p bs) (u : List β) :
    At (t ++ u) p bs := by
  have ⟨pre, post, hsplit, hlen⟩ := h
  exact ⟨pre, post ++ u, by rw [hsplit, List.append_assoc], hlen⟩

/-- What stands in a text stands in every text that continues it. -/
theorem At.grow {t t' : List β} {p : ℕ} {bs : List β} (h : At t p bs) (ht : t <+: t') :
    At t' p bs := by
  have ⟨u, hu⟩ := ht
  exact hu ▸ h.append u

/-- The first part of what stands at a place stands there too. -/
theorem At.left {t : List β} {p : ℕ} {bs cs : List β} (h : At t p (bs ++ cs)) : At t p bs := by
  have ⟨pre, post, hsplit, hlen⟩ := h
  exact ⟨pre, cs ++ post, by rw [hsplit]; simp, hlen⟩

/-- The second part stands after the first. -/
theorem At.right {t : List β} {p : ℕ} {bs cs : List β} (h : At t p (bs ++ cs)) :
    At t (p + bs.length) cs := by
  have ⟨pre, post, hsplit, hlen⟩ := h
  exact ⟨pre ++ bs, post, by rw [hsplit]; simp, by rw [List.length_append, hlen]⟩

/-- What stands in a text ends within it. -/
theorem At.le {t : List β} {p : ℕ} {bs : List β} (h : At t p bs) : p + bs.length ≤ t.length := by
  have ⟨pre, post, hsplit, hlen⟩ := h
  rw [hsplit, List.length_append, List.length_append, hlen]
  omega

theorem At.drop {t : List β} {p : ℕ} {bs : List β} (h : At t p bs) :
    ∃ post, t.drop p = bs ++ post := by
  have ⟨pre, post, hsplit, hlen⟩ := h
  refine ⟨post, ?_⟩
  rw [hsplit, List.append_assoc, ← hlen, List.drop_left]

/-- Cutting at the place and to the length gives what stands there. -/
theorem At.take_drop {t : List β} {p : ℕ} {bs : List β} (h : At t p bs) :
    (t.drop p).take bs.length = bs := by
  have ⟨post, hdrop⟩ := h.drop
  rw [hdrop, List.take_left]

/-! ## Reading -/

/-- The frames up to `stop` are read, and the beginning of each is noted, with the length of what
was read before. -/
def readBlocks (readBlock : ℕ → Option (List β × ℕ)) (stop : ℕ) :
    ℕ → ℕ → List β → List (ℕ × ℕ) → Option (List β × List (ℕ × ℕ))
  | 0, _, _, _ => none
  | n + 1, start, table, index =>
    if start < stop then
      match readBlock start with
      | none => none
      | some (b, next) =>
        readBlocks readBlock stop n next (table ++ b) ((start, table.length) :: index)
    else some (table, index)

/-- The notes of a reader, the first block first. Blocks come with their frames here, which may be
of several kinds. -/
def entries : ℕ → ℕ → List (List β × List γ) → List (ℕ × ℕ)
  | _, _, [] => []
  | start, off, f :: fs => (start, off) :: entries (start + f.2.length) (off + f.1.length) fs

/-- Reading block after block gives the whole stream, and the index holds each block's place on
disk with its place in the stream. -/
theorem readBlocks_eq {readBlock : ℕ → Option (List β × ℕ)} {stop : ℕ}
    {fs : List (List β × List γ)} (hpos : ∀ f ∈ fs, f.2 ≠ []) {n start : ℕ} {table : List β}
    {index : List (ℕ × ℕ)}
    (hread : ∀ j f, fs[j]? = some f → readBlock (start + ((fs.take j).flatMap Prod.snd).length) =
      some (f.1, start + ((fs.take j).flatMap Prod.snd).length + f.2.length))
    (hstop : start + (fs.flatMap Prod.snd).length = stop) (hn : fs.length < n) :
    readBlocks readBlock stop n start table index =
      some (table ++ fs.flatMap Prod.fst, (entries start table.length fs).reverse ++ index) := by
  induction fs generalizing n start table index with
  | nil =>
    cases n with
    | zero => omega
    | succ n =>
      rw [List.flatMap_nil, List.length_nil] at hstop
      rw [readBlocks, if_neg (by omega)]
      simp [entries]
  | cons f fs ih =>
    cases n with
    | zero => omega
    | succ n =>
      have hpos' : 0 < f.2.length := List.length_pos_of_ne_nil (hpos f List.mem_cons_self)
      have hfirst := hread 0 f rfl
      rw [List.take_zero, List.flatMap_nil, List.length_nil, Nat.add_zero] at hfirst
      rw [List.flatMap_cons, List.length_append] at hstop
      rw [readBlocks, if_pos (by omega), hfirst]
      simp only
      rw [ih (fun c hc => hpos c (List.mem_cons_of_mem f hc)) ?_ (by omega) (by simpa using hn)]
      · simp [entries]
      · intro j c hc
        have hnext := hread (j + 1) c hc
        rw [List.take_succ_cons, List.flatMap_cons, List.length_append, ← Nat.add_assoc] at hnext
        exact hnext

/-- The places on disk lie within what was written. -/
theorem le_of_mem_entries {fs : List (List β × List γ)} {start off : ℕ} {e : ℕ × ℕ}
    (he : e ∈ entries start off fs) :
    start ≤ e.1 ∧ e.1 ≤ start + (fs.flatMap Prod.snd).length := by
  induction fs generalizing start off with
  | nil => exact absurd he List.not_mem_nil
  | cons f fs ih =>
    rw [List.flatMap_cons, List.length_append]
    rcases List.mem_cons.mp he with h | h
    · rw [h]
      simp
    · have ⟨hlow, hhigh⟩ := ih h
      omega

/-- No two blocks begin at one place. -/
theorem nodup_entries {fs : List (List β × List γ)} (hpos : ∀ f ∈ fs, f.2 ≠ []) (start off : ℕ) :
    ((entries start off fs).map Prod.fst).Nodup := by
  induction fs generalizing start off with
  | nil => exact List.nodup_nil
  | cons f fs ih =>
    rw [entries, List.map_cons, List.nodup_cons]
    refine ⟨fun h => ?_, ih (fun c hc => hpos c (List.mem_cons_of_mem f hc)) _ _⟩
    have ⟨e, he, hplace⟩ := List.mem_map.mp h
    have ⟨hlow, _⟩ := le_of_mem_entries he
    have hroom : 0 < f.2.length := List.length_pos_of_ne_nil (hpos f List.mem_cons_self)
    simp only at hplace
    omega

/-- The index has the place of every block. -/
theorem mem_entries {fs : List (List β × List γ)} {j : ℕ} (hj : j < fs.length) (start off : ℕ) :
    (start + ((fs.take j).flatMap Prod.snd).length, off + ((fs.take j).flatMap Prod.fst).length) ∈
      entries start off fs := by
  induction fs generalizing start off j with
  | nil => simp at hj
  | cons f fs ih =>
    cases j with
    | zero => simp [entries]
    | succ j =>
      have h := ih (by simpa using hj) (start + f.2.length) (off + f.1.length)
      rw [List.take_succ_cons, List.flatMap_cons, List.flatMap_cons, List.length_append,
        List.length_append, ← Nat.add_assoc, ← Nat.add_assoc]
      exact List.mem_cons_of_mem _ h

/-- The note of a frame is the only one with its beginning. -/
theorem find?_entries {fs : List (List β × List γ)} (hpos : ∀ f ∈ fs, f.2 ≠ []) {j : ℕ}
    (hj : j < fs.length) (start off : ℕ) {p : ℕ × ℕ → Bool}
    (hp : ∀ e ∈ entries start off fs,
      (p e = true ↔ e.1 = start + ((fs.take j).flatMap Prod.snd).length)) :
    (entries start off fs).reverse.find? p =
      some (start + ((fs.take j).flatMap Prod.snd).length,
        off + ((fs.take j).flatMap Prod.fst).length) := by
  have hmem := mem_entries hj start off
  have hinj := List.inj_on_of_nodup_map (nodup_entries hpos start off)
  have hfound : ((entries start off fs).reverse.find? p).isSome := by
    rw [List.find?_isSome]
    exact ⟨_, List.mem_reverse.mpr hmem, (hp _ hmem).mpr rfl⟩
  have ⟨e, he⟩ := Option.isSome_iff_exists.mp hfound
  have hmem' := List.mem_reverse.mp (List.mem_of_find?_eq_some he)
  have hplace := (hp e hmem').mp (List.find?_some he)
  rw [he, hinj hmem' hmem hplace]

/-- With its block, the note of a place leads back to it; what follows the stream does no harm. -/
theorem find?_place (hs : 0 < size) {t : List β} {rest : List (List β × List γ)}
    (hframe : ∀ b, frame b ≠ []) (hrest : ∀ f ∈ rest, f.2 ≠ []) {p : ℕ} (hp : p < t.length)
    (start : ℕ) {q : ℕ × ℕ → Bool}
    (hq : ∀ e ∈ entries start 0
      ((blocks size (count size t.length) t).map (fun b => (b, frame b)) ++ rest),
        (q e = true ↔ e.1 = start + (place frame size t p).1)) :
    (entries start 0 ((blocks size (count size t.length) t).map (fun b => (b, frame b)) ++
      rest)).reverse.find? q = some (start + (place frame size t p).1, p / size * size) := by
  have hj : p / size < count size t.length := div_lt_count hs hp
  have htake : ((blocks size (count size t.length) t).map (fun b => (b, frame b)) ++ rest).take
      (p / size) = (blocks size (p / size) t).map fun b => (b, frame b) := by
    rw [List.take_append_of_le_length (by simpa using Nat.le_of_lt hj), ← List.map_take,
      take_blocks (Nat.le_of_lt hj)]
  have hsnd : (((blocks size (p / size) t).map fun b => (b, frame b)).flatMap Prod.snd).length =
      (place frame size t p).1 := by
    rw [List.flatMap_map]
    rfl
  have hfst : (((blocks size (p / size) t).map fun b => (b, frame b)).flatMap Prod.fst).length =
      p / size * size := by
    have hmul := Nat.div_mul_le_self p size
    have hflat : ((blocks size (p / size) t).map fun b => (b, frame b)).flatMap Prod.fst =
        (blocks size (p / size) t).flatten := by
      rw [List.flatMap_map, List.flatten_eq_flatMap]
      rfl
    rw [hflat, flatten_blocks, List.length_take]
    omega
  have hpos : ∀ f ∈ (blocks size (count size t.length) t).map (fun b => (b, frame b)) ++ rest,
      f.2 ≠ [] := by
    intro f hf
    rcases List.mem_append.mp hf with hf | hf
    · have ⟨b, _, hb⟩ := List.mem_map.mp hf
      rw [← hb]
      exact hframe b
    · exact hrest f hf
  have h := find?_entries hpos (j := p / size)
    (by rw [List.length_append, List.length_map, length_blocks]; omega) start 0
    (p := q) (by rw [htake, hsnd]; exact hq)
  rw [htake, hsnd, hfst, Nat.zero_add] at h
  exact h

end Framed
