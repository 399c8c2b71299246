import Backpack.Shell.RegexTheorems

/-!
# Substitutions in a line

`sed -r "s/.*(pat).*/\1/"` leaves of a line what the pattern matches. The first `.*` takes as much
as it can, so the match is the one that begins last, and of those the longest. `sed 's/pat//'`
deletes the match that begins first.
-/

namespace Shell

namespace Re

/-- The longest match at the beginning of `s`, in a line of length `n`. -/
def matchAt (r : Re) (n : ℕ) (s : Text) : Option Text :=
  ((r.rests n s).map List.length).min?.map fun k => s.take (s.length - k)

/-- The match that begins last in `s`. -/
def lastMatch (r : Re) (n : ℕ) : Text → Option Text
  | [] => r.matchAt n []
  | c :: s => (lastMatch r n s).or (r.matchAt n (c :: s))

section

variable {r : Re} {n : ℕ} {s : Text}

theorem matchAt_eq_none_iff : r.matchAt n s = none ↔ ∀ t, t ∉ r.rests n s := by
  simp [matchAt, List.eq_nil_iff_forall_not_mem]

theorem matchAt_of_longest {m t : Text} (ht : t ∈ r.rests n (m ++ t))
    (h : ∀ u ∈ r.rests n (m ++ t), t.length ≤ u.length) : r.matchAt n (m ++ t) = some m := by
  have hmin : ((r.rests n (m ++ t)).map List.length).min? = some t.length := by
    rw [List.min?_eq_some_iff]
    refine ⟨List.mem_map_of_mem ht, ?_⟩
    intro k hk
    obtain ⟨u, hu, rfl⟩ := List.mem_map.mp hk
    exact h u hu
  rw [matchAt, hmin, Option.map_some]
  simp

theorem iter_suffix {f : Text → List Text} (hf : ∀ s, ∀ t ∈ f s, t <:+ s) {k : ℕ} {s t : Text}
    (ht : t ∈ iter f k s) : t <:+ s := by
  induction k generalizing s with
  | zero => exact List.mem_singleton.mp ht ▸ List.suffix_refl s
  | succ k ih =>
    rw [iter, List.mem_cons, List.mem_flatMap] at ht
    rcases ht with rfl | ⟨u, hu, ht⟩
    · exact List.suffix_refl t
    · exact (ih ht).trans (hf s u (List.mem_of_mem_filter hu))

/-- A match takes a text away from the front. -/
theorem rests_suffix (r : Re) (n : ℕ) (s : Text) : ∀ t ∈ r.rests n s, t <:+ s := by
  induction r generalizing s with
  | eps =>
    intro t ht
    exact mem_rests_eps.mp ht ▸ List.suffix_refl s
  | bol =>
    intro t ht
    exact (mem_rests_bol.mp ht).2 ▸ List.suffix_refl s
  | eol =>
    intro t ht
    exact (mem_rests_eol.mp ht).2 ▸ List.nil_suffix
  | sat p =>
    intro t ht
    obtain ⟨c, rfl, -⟩ := mem_rests_sat.mp ht
    exact List.suffix_cons c t
  | seq r r' ih ih' =>
    intro t ht
    obtain ⟨u, hu, ht⟩ := mem_rests_seq.mp ht
    exact (ih' u t ht).trans (ih s u hu)
  | alt r r' ih ih' =>
    intro t ht
    rcases mem_rests_alt.mp ht with ht | ht
    · exact ih s t ht
    · exact ih' s t ht
  | star r ih =>
    intro t ht
    exact iter_suffix ih ht

theorem rests_of_matchAt {m : Text} (h : r.matchAt n s = some m) :
    ∃ t ∈ r.rests n s, s = m ++ t := by
  obtain ⟨k, hk, hm⟩ := Option.map_eq_some_iff.mp h
  obtain ⟨t, ht, rfl⟩ := List.mem_map.mp (List.min?_eq_some_iff.mp hk).1
  obtain ⟨w, rfl⟩ := rests_suffix r n s t ht
  refine ⟨t, ht, ?_⟩
  rw [← hm]
  simp

/-- What is found is matched where it stands. -/
theorem rests_of_lastMatch {m : Text} (h : r.lastMatch n s = some m) :
    ∃ pre t, s = pre ++ (m ++ t) ∧ t ∈ r.rests n (m ++ t) := by
  induction s with
  | nil =>
    obtain ⟨t, ht, heq⟩ := rests_of_matchAt h
    exact ⟨[], t, heq, heq ▸ ht⟩
  | cons c s ih =>
    rw [lastMatch, Option.or_eq_some_iff] at h
    rcases h with h | ⟨-, h⟩
    · obtain ⟨pre, t, rfl, ht⟩ := ih h
      exact ⟨c :: pre, t, rfl, ht⟩
    · obtain ⟨t, ht, heq⟩ := rests_of_matchAt h
      exact ⟨[], t, heq, heq ▸ ht⟩

/-- A match after which no other one begins. -/
theorem lastMatch_append {pre m : Text} {c : Char} (hm : r.matchAt n (c :: s) = some m)
    (hs : r.lastMatch n s = none) : r.lastMatch n (pre ++ c :: s) = some m := by
  induction pre with
  | nil => rw [List.nil_append, lastMatch, hs, hm, Option.none_or]
  | cons b pre ih => rw [List.cons_append, lastMatch, ih, Option.some_or]

/-- Where nothing matches, nothing is found. -/
theorem lastMatch_eq_none_iff : r.lastMatch n s = none ↔
    ∀ u t, u <:+ s → t ∉ r.rests n u := by
  induction s with
  | nil =>
    rw [lastMatch, matchAt_eq_none_iff]
    simp only [List.suffix_nil]
    exact ⟨fun h u t hu => hu ▸ h t, fun h t => h [] t rfl⟩
  | cons c s ih =>
    rw [lastMatch, Option.or_eq_none_iff, ih, matchAt_eq_none_iff]
    simp only [List.suffix_cons_iff]
    constructor
    · rintro ⟨hs, hc⟩ u t (rfl | hu)
      · exact hc t
      · exact hs u t hu
    · intro h
      exact ⟨fun u t hu => h u t (Or.inr hu), fun t => h _ t (Or.inl rfl)⟩

/-- `sed` finds a match where `grep` does. -/
theorem found_iff_lastMatch {line : Text} :
    r.found line = true ↔ ∃ m, r.lastMatch line.length line = some m := by
  rw [← Option.isSome_iff_exists, Option.isSome_iff_ne_none, Ne, lastMatch_eq_none_iff, found_iff]
  constructor
  · rintro ⟨pre, u, t, rfl, ht⟩ h
    exact h u t (List.suffix_append pre u) ht
  · intro h
    by_contra hnot
    refine h fun u t hu ht => ?_
    obtain ⟨pre, rfl⟩ := hu
    exact hnot ⟨pre, u, t, rfl, ht⟩

end

/-! ## Repeated characters -/

theorem mem_iter_sat {n k : ℕ} {p : Char → Bool} {s t : Text} (hk : s.length ≤ k) :
    t ∈ iter (rests n (.sat p)) k s ↔ ∃ w : Text, (∀ c ∈ w, p c = true) ∧ s = w ++ t := by
  induction k generalizing s with
  | zero =>
    obtain rfl : s = [] := by simpa using hk
    simp only [iter, List.mem_singleton]
    constructor
    · rintro rfl
      exact ⟨[], by simp⟩
    · rintro ⟨w, -, h⟩
      exact (List.append_eq_nil_iff.mp h.symm).2
  | succ k ih =>
    rw [iter, List.mem_cons, List.mem_flatMap]
    constructor
    · rintro (rfl | ⟨u, hu, ht⟩)
      · exact ⟨[], by simp⟩
      · obtain ⟨hu, -⟩ := List.mem_filter.mp hu
        obtain ⟨c, rfl, hc⟩ := mem_rests_sat.mp hu
        obtain ⟨w, hw, rfl⟩ := (ih (by simpa using hk)).mp ht
        exact ⟨c :: w, List.forall_mem_cons.mpr ⟨hc, hw⟩, rfl⟩
    · rintro ⟨w, hw, rfl⟩
      cases w with
      | nil => exact Or.inl rfl
      | cons c w =>
        obtain ⟨hc, hw⟩ := List.forall_mem_cons.mp hw
        refine Or.inr ⟨w ++ t, ?_, (ih ?_).mpr ⟨w, hw, rfl⟩⟩
        · rw [List.mem_filter]
          exact ⟨mem_rests_sat.mpr ⟨c, rfl, hc⟩, by simp⟩
        · simpa using hk

theorem mem_rests_star_sat {n : ℕ} {p : Char → Bool} {s t : Text} :
    t ∈ (Re.star (.sat p)).rests n s ↔ ∃ w : Text, (∀ c ∈ w, p c = true) ∧ s = w ++ t :=
  mem_iter_sat (Nat.le_refl _)

/-- What `+` makes of a character. -/
theorem mem_rests_plus_sat {n : ℕ} {p : Char → Bool} {s t : Text} :
    t ∈ (Re.seq (.sat p) (.star (.sat p))).rests n s ↔
      ∃ w : Text, w ≠ [] ∧ (∀ c ∈ w, p c = true) ∧ s = w ++ t := by
  simp only [mem_rests_seq, mem_rests_sat, mem_rests_star_sat]
  constructor
  · rintro ⟨u, ⟨c, rfl, hc⟩, w, hw, rfl⟩
    exact ⟨c :: w, List.cons_ne_nil _ _, List.forall_mem_cons.mpr ⟨hc, hw⟩, rfl⟩
  · rintro ⟨w, hne, hw, rfl⟩
    cases w with
    | nil => exact absurd rfl hne
    | cons c w =>
      obtain ⟨hc, hw⟩ := List.forall_mem_cons.mp hw
      exact ⟨w ++ t, ⟨c, rfl, hc⟩, w, hw, rfl⟩

end Re

/-- `sed -r "s/.*(pat).*/\1/"`, on one line -/
def sedLast (pat line : Text) : Text :=
  match parseRe .extended pat with
  | some r => (r.lastMatch line.length line).getD line
  | none => line


/-! ## The first match -/

/-- What remains of a line without the match that begins first. -/
def deleteFirst (r : Re) (n : ℕ) : Text → Text
  | [] => []
  | c :: s =>
    match r.matchAt n (c :: s) with
    | some m => (c :: s).drop m.length
    | none => c :: deleteFirst r n s

/-- `sed -e 's/pat//'`, on one line -/
def sedDelete (pat line : Text) : Text :=
  match parseRe .basic pat with
  | some r => deleteFirst r line.length line
  | none => line

section

variable {n : ℕ} {w s : Text}

theorem deleteFirst_of_starts (hw : w ≠ []) (t : Text) :
    deleteFirst (Re.seqAll (w.map Re.lit)) n (w ++ t) = t := by
  have hmatch : (Re.seqAll (w.map Re.lit)).matchAt n (w ++ t) = some w := by
    refine Re.matchAt_of_longest (Re.mem_rests_word.mpr rfl) fun u hu => ?_
    rw [List.append_cancel_left (Re.mem_rests_word.mp hu)]
  cases w with
  | nil => exact absurd rfl hw
  | cons c w =>
    rw [List.cons_append] at hmatch ⊢
    rw [deleteFirst, hmatch]
    simp

theorem deleteFirst_of_not_starts {c : Char} (h : ¬ w <+: c :: s) :
    deleteFirst (Re.seqAll (w.map Re.lit)) n (c :: s) =
      c :: deleteFirst (Re.seqAll (w.map Re.lit)) n s := by
  have hnone : (Re.seqAll (w.map Re.lit)).matchAt n (c :: s) = none := by
    rw [Re.matchAt_eq_none_iff]
    intro t ht
    exact h ⟨t, (Re.mem_rests_word.mp ht).symm⟩
  rw [deleteFirst, hnone]

theorem deleteFirst_sublist (r : Re) (s : Text) : (deleteFirst r n s).Sublist s := by
  induction s with
  | nil => exact List.Sublist.refl []
  | cons c s ih =>
    rw [deleteFirst]
    split
    · exact List.drop_sublist _ _
    · exact ih.cons_cons c

/-- What is deleted has none of the other characters. -/
theorem count_deleteFirst {a : Char} (ha : a ∉ w) (s : Text) :
    (deleteFirst (Re.seqAll (w.map Re.lit)) n s).count a = s.count a := by
  by_cases hw : w = []
  · subst hw
    have hsame : ∀ s, deleteFirst (Re.seqAll (([] : Text).map Re.lit)) n s = s := by
      intro s
      cases s with
      | nil => rfl
      | cons c s =>
        have hmatch : (Re.seqAll (([] : Text).map Re.lit)).matchAt n (c :: s) = some [] :=
          Re.matchAt_of_longest (m := []) (Re.mem_rests_word.mpr rfl) fun u hu =>
            (congrArg List.length (Re.mem_rests_word.mp hu)).le
        rw [deleteFirst, hmatch]
        rfl
    rw [hsame]
  · induction s with
    | nil => rfl
    | cons c s ih =>
      by_cases h : w <+: c :: s
      · obtain ⟨t, ht⟩ := h
        rw [← ht, deleteFirst_of_starts hw, List.count_append, List.count_eq_zero.mpr ha, zero_add]
      · rw [deleteFirst_of_not_starts h, List.count_cons, List.count_cons, ih]

/-- A text that begins with a character of its own cannot begin in front of itself. -/
theorem starts_of_starts_append {c : Char} {v b t : Text} (hc : c ∉ v) (hb : b ≠ [])
    (h : c :: v <+: b ++ c :: t) : c :: v <+: b := by
  obtain ⟨u, hu⟩ := h
  rcases List.append_eq_append_iff.mp hu with ⟨x, hbx, -⟩ | ⟨x, hx, hxt⟩
  · exact ⟨x, hbx.symm⟩
  · cases x with
    | nil => exact ⟨[], by simpa using hx⟩
    | cons d x =>
      obtain ⟨e, b, rfl⟩ := List.exists_cons_of_ne_nil hb
      have hd : c = d := (List.cons.inj hxt).1
      have hv : v = b ++ d :: x := (List.cons.inj hx).2
      exact absurd (by rw [hv, hd]; simp) hc

section

variable {c : Char} {v : Text} (hc : c ∉ v)
include hc

/-- The text at the end, where it stands nowhere before. -/
theorem deleteFirst_append {p : Text} (hp : ¬ c :: v <:+: p) :
    deleteFirst (Re.seqAll ((c :: v).map Re.lit)) n (p ++ c :: v) = p := by
  induction p with
  | nil => simpa using @deleteFirst_of_starts n (c :: v) (List.cons_ne_nil _ _) []
  | cons d p ih =>
    rw [List.infix_cons_iff, not_or] at hp
    have hnot : ¬ c :: v <+: d :: (p ++ c :: v) := fun h =>
      hp.1 (starts_of_starts_append hc (List.cons_ne_nil d p) h)
    rw [List.cons_append, deleteFirst_of_not_starts hnot, ih hp.2]

/-- Where it stands before, the one at the end stays. -/
theorem suffix_deleteFirst_append {p : Text} (hp : c :: v <:+: p) :
    c :: v <:+ deleteFirst (Re.seqAll ((c :: v).map Re.lit)) n (p ++ c :: v) := by
  induction p with
  | nil => exact absurd (List.infix_nil.mp hp) (List.cons_ne_nil _ _)
  | cons d p ih =>
    by_cases h : c :: v <+: d :: p
    · obtain ⟨t, ht⟩ := h
      rw [← ht, List.append_assoc, deleteFirst_of_starts (List.cons_ne_nil _ _)]
      exact List.suffix_append t _
    · have hnot : ¬ c :: v <+: d :: (p ++ c :: v) := fun h' =>
        h (starts_of_starts_append hc (List.cons_ne_nil d p) h')
      rw [List.cons_append, deleteFirst_of_not_starts hnot]
      exact (ih ((List.infix_cons_iff.mp hp).resolve_left h)).trans (List.suffix_cons d _)

end

end

end Shell
