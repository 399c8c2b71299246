import Backpack.Shell.Regex

/-!
# Shell patterns

The patterns of pathname expansion and of `${var/pattern}`: `*`, `?`, bracket expressions
and quoted characters. `deleteMatch` is the substitution by nothing, which takes the
leftmost match and there the longest one.
-/

namespace Shell

/-- One element of a shell pattern. -/
inductive GlobItem where
  | one (p : Char → Bool)
  | many

/-- The element that begins with `c`, and how many of the characters `cs` after it belong
to it. A `[` that is never closed stands for itself. -/
def globItem (c : Char) (cs : Text) : GlobItem × ℕ :=
  if c = '*' then (.many, 0)
  else if c = '?' then (.one fun _ => true, 0)
  else if c = '\\' then
    match cs with
    | [] => (.one (· == c), 0)
    | d :: _ => (.one (· == d), 1)
  else if c = '[' then
    match bracket ['!', '^'] cs with
    | some (p, k) => (.one p, k)
    | none => (.one (· == c), 0)
  else (.one (· == c), 0)

/-- The elements of a pattern, `skip` characters further on. -/
def globItems : ℕ → Text → List GlobItem
  | _, [] => []
  | skip + 1, _ :: cs => globItems skip cs
  | 0, c :: cs => (globItem c cs).1 :: globItems (globItem c cs).2 cs

/-- What can remain of `s` after a match at its beginning. -/
def globRests : List GlobItem → Text → List Text
  | [], s => [s]
  | .one _ :: _, [] => []
  | .one p :: g, c :: s => if p c then globRests g s else []
  | .many :: g, s => s.tails.flatMap (globRests g)

/-- `s` as a whole matches the pattern. -/
def globMatch (pat s : Text) : Bool := (globRests (globItems 0 pat) s).contains []

/-- The longest match is the one that leaves the least. -/
def shortest : List Text → Option Text
  | [] => none
  | t :: ts =>
    match shortest ts with
    | none => some t
    | some u => if t.length ≤ u.length then some t else some u

def deleteItems (g : List GlobItem) : Text → Text
  | [] => []
  | c :: s =>
    match shortest (globRests g (c :: s)) with
    | some rest => rest
    | none => c :: deleteItems g s

/-- `${s/pat}` -/
def deleteMatch (pat s : Text) : Text := deleteItems (globItems 0 pat) s

/-- `name` is one of the names a pathname expansion of `pat` can produce: a leading dot
has to be matched by a dot. -/
def pathMatch (pat name : Text) : Bool :=
  globMatch pat name && (name.head? != some '.' || pat.head? == some '.')

/-! ## Characters without a meaning of their own -/

/-- Characters that stand for themselves in a shell pattern. -/
def globOrdinary (c : Char) : Bool := c ∉ ['*', '?', '\\', '[']

theorem globItems_ordinary {w : Text} (hw : ∀ c ∈ w, globOrdinary c = true) (cs : Text) :
    globItems 0 (w ++ cs) = w.map (fun c => GlobItem.one (· == c)) ++ globItems 0 cs := by
  induction w with
  | nil => rfl
  | cons c w ih =>
    have hc : c ≠ '*' ∧ c ≠ '?' ∧ c ≠ '\\' ∧ c ≠ '[' := by
      simpa [globOrdinary] using hw c (by simp)
    have hitem : globItem c (w ++ cs) = (.one (· == c), 0) := by simp [globItem, hc]
    rw [List.cons_append, globItems, hitem, ih fun d hd => hw d (by simp [hd])]
    rfl

/-- A literal beginning of a pattern takes exactly its own characters away. -/
theorem mem_globRests_ordinary {w : Text} {g : List GlobItem} {s t : Text} :
    t ∈ globRests (w.map (fun c => GlobItem.one (· == c)) ++ g) s ↔
      ∃ u, s = w ++ u ∧ t ∈ globRests g u := by
  induction w generalizing s with
  | nil => simp
  | cons c w ih =>
    cases s with
    | nil => simp [globRests]
    | cons d s =>
      rw [List.map_cons, List.cons_append, globRests]
      by_cases hd : d = c
      · subst hd
        simp [ih]
      · simp [hd]

/-- A star takes any beginning. -/
theorem mem_globRests_many {g : List GlobItem} {s t : Text} :
    t ∈ globRests (.many :: g) s ↔ ∃ w u, s = w ++ u ∧ t ∈ globRests g u := by
  simp only [globRests, List.mem_flatMap, List.mem_tails]
  constructor
  · rintro ⟨u, ⟨w, rfl⟩, ht⟩
    exact ⟨w, u, rfl, ht⟩
  · rintro ⟨w, u, rfl, ht⟩
    exact ⟨u, ⟨w, rfl⟩, ht⟩

/-- A character takes one that it allows. -/
theorem mem_globRests_one {p : Char → Bool} {g : List GlobItem} {s t : Text} :
    t ∈ globRests (.one p :: g) s ↔ ∃ c u, s = c :: u ∧ p c = true ∧ t ∈ globRests g u := by
  cases s with
  | nil => simp [globRests]
  | cons d s =>
    simp only [globRests]
    split_ifs with h
    · simp [h]
    · simp only [List.not_mem_nil, List.cons.injEq, false_iff]
      rintro ⟨c, u, ⟨rfl, -⟩, hc, -⟩
      exact h hc

theorem globMatch_iff {pat s : Text} :
    globMatch pat s = true ↔ [] ∈ globRests (globItems 0 pat) s := by
  simp [globMatch]

/-- A pattern without special characters matches itself only. -/
theorem globMatch_ordinary {w s : Text} (hw : ∀ c ∈ w, globOrdinary c = true) :
    globMatch w s = true ↔ s = w := by
  rw [globMatch_iff, ← List.append_nil w, globItems_ordinary hw, mem_globRests_ordinary]
  simp [globItems, globRests]

/-- `*suffix` -/
theorem globMatch_many_ordinary {w s : Text} (hw : ∀ c ∈ w, globOrdinary c = true) :
    globMatch ('*' :: w) s = true ↔ w <:+ s := by
  have hitems : globItems 0 ('*' :: w) = .many :: w.map (fun c => GlobItem.one (· == c)) := by
    have h := globItems_ordinary hw []
    rw [List.append_nil, globItems, List.append_nil] at h
    rw [globItems, show globItem '*' w = (.many, 0) from rfl, h]
  rw [globMatch_iff, hitems, mem_globRests_many, ← List.append_nil (w.map _)]
  simp only [mem_globRests_ordinary]
  constructor
  · rintro ⟨v, u, rfl, x, rfl, hx⟩
    have hx' : x = [] := by simpa [globRests, eq_comm] using hx
    exact ⟨v, by rw [hx', List.append_nil]⟩
  · rintro ⟨v, rfl⟩
    exact ⟨v, w, rfl, [], by simp, by simp [globRests]⟩

theorem globItems_escaped (c : Char) (cs : Text) :
    globItems 0 ('\\' :: c :: cs) = .one (· == c) :: globItems 0 cs := rfl

theorem globItems_many (cs : Text) : globItems 0 ('*' :: cs) = .many :: globItems 0 cs := rfl

/-- `[[:digit:]I]` in a pattern. -/
theorem globItems_versionSet (cs : Text) : ∃ p, globItems 0 ('[' :: (versionSet ++ cs)) =
    .one p :: globItems 0 cs ∧ ∀ c, p c = isVersion c := by
  rcases bracket_versionSet (show '[' ∉ ['!', '^'] by decide) cs with ⟨p, hp, hversion⟩
  refine ⟨p, ?_, hversion⟩
  have hitem : globItem '[' (versionSet ++ cs) = (.one p, 11) := by simp [globItem, hp]
  rw [globItems, hitem]
  rfl

/-- `[^[:space:]]` in a pattern. -/
theorem globItems_nonSpaceSet (cs : Text) : ∃ p, globItems 0 ('[' :: (nonSpaceSet ++ cs)) =
    .one p :: globItems 0 cs ∧ ∀ c, p c = !isSpace c := by
  rcases bracket_nonSpaceSet (show '^' ∈ ['!', '^'] by decide) cs with ⟨p, hp, hspace⟩
  refine ⟨p, ?_, hspace⟩
  have hitem : globItem '[' (nonSpaceSet ++ cs) = (.one p, 11) := by simp [globItem, hp]
  rw [globItems, hitem]
  rfl

/-! ## Deleting a match -/

theorem globRests_suffix {g : List GlobItem} {s t : Text} (h : t ∈ globRests g s) : t <:+ s := by
  induction g generalizing s with
  | nil => rw [List.mem_singleton.mp h]
  | cons item g ih =>
    cases item with
    | one p =>
      rcases mem_globRests_one.mp h with ⟨c, u, rfl, -, ht⟩
      exact (ih ht).trans (List.suffix_cons c u)
    | many =>
      rcases mem_globRests_many.mp h with ⟨w, u, rfl, ht⟩
      exact (ih ht).trans (List.suffix_append w u)

theorem shortest_mem {ts : List Text} {t : Text} (h : shortest ts = some t) : t ∈ ts := by
  induction ts generalizing t with
  | nil => exact absurd h (by simp [shortest])
  | cons u ts ih =>
    unfold shortest at h
    cases hs : shortest ts with
    | none =>
      rw [hs] at h
      exact Option.some.inj h ▸ List.mem_cons_self
    | some v =>
      rw [hs] at h
      simp only at h
      split_ifs at h
      · exact Option.some.inj h ▸ List.mem_cons_self
      · exact List.mem_cons_of_mem u (ih (hs.trans h))

theorem shortest_eq_nil {ts : List Text} (h : [] ∈ ts) : shortest ts = some [] := by
  induction ts with
  | nil => exact absurd h List.not_mem_nil
  | cons u ts ih =>
    unfold shortest
    rcases List.mem_cons.mp h with rfl | h
    · cases shortest ts with
      | none => rfl
      | some v => simp
    · rw [ih h]
      simp only [List.length_nil]
      split_ifs with hu
      · rw [List.length_eq_zero_iff.mp (Nat.le_zero.mp hu)]
      · rfl

theorem shortest_eq_none {ts : List Text} : shortest ts = none ↔ ts = [] := by
  cases ts with
  | nil => simp [shortest]
  | cons u ts =>
    unfold shortest
    cases shortest ts with
    | none => simp
    | some v =>
      simp only [reduceCtorEq, iff_false]
      split_ifs <;> simp

/-- Deleting takes characters away, no more. -/
theorem deleteItems_sublist (g : List GlobItem) (s : Text) : (deleteItems g s).Sublist s := by
  induction s with
  | nil => exact List.Sublist.refl _
  | cons c s ih =>
    unfold deleteItems
    cases h : shortest (globRests g (c :: s)) with
    | none => exact ih.cons_cons c
    | some rest => exact (globRests_suffix (shortest_mem h)).sublist

theorem deleteMatch_sublist (pat s : Text) : (deleteMatch pat s).Sublist s :=
  deleteItems_sublist _ s

/-- A match of the whole text. -/
theorem deleteItems_of_whole {g : List GlobItem} {s : Text} (h : [] ∈ globRests g s) :
    deleteItems g s = [] := by
  cases s with
  | nil => rfl
  | cons c s => rw [deleteItems, shortest_eq_nil h]

/-- Where nothing matches, nothing is deleted. -/
theorem deleteItems_of_no_match {g : List GlobItem} {s : Text}
    (h : ∀ t, t <:+ s → globRests g t = []) : deleteItems g s = s := by
  induction s with
  | nil => rfl
  | cons c s ih =>
    have hnone : shortest (globRests g (c :: s)) = none :=
      shortest_eq_none.mpr (h _ List.suffix_rfl)
    rw [deleteItems, hnone]
    simp only
    rw [ih fun t ht => h t (ht.trans (List.suffix_cons c s))]

/-- When every match can be extended to the end, a beginning of the text remains. -/
theorem deleteItems_initial {g : List GlobItem} {s : Text}
    (h : ∀ t, t <:+ s → globRests g t ≠ [] → [] ∈ globRests g t) : deleteItems g s <+: s := by
  induction s with
  | nil => exact List.prefix_rfl
  | cons c s ih =>
    by_cases hmatch : globRests g (c :: s) = []
    · rw [deleteItems, shortest_eq_none.mpr hmatch]
      simp only
      exact (List.prefix_cons_inj c).mpr (ih fun t ht => h t (ht.trans (List.suffix_cons c s)))
    · rw [deleteItems_of_whole (h _ List.suffix_rfl hmatch)]
      exact List.nil_prefix

/-! ## Deleting a word -/

/-- A word takes itself away. -/
theorem mem_globRests_word {w : Text} (hw : ∀ c ∈ w, globOrdinary c = true) {s t : Text} :
    t ∈ globRests (globItems 0 w) s ↔ s = w ++ t := by
  rw [← List.append_nil w, globItems_ordinary hw, mem_globRests_ordinary, List.append_nil]
  simp only [globItems, globRests, List.mem_singleton]
  constructor
  · rintro ⟨u, rfl, rfl⟩
    rfl
  · exact fun h => ⟨t, h, rfl⟩

section

variable {w : Text} (hw : ∀ c ∈ w, globOrdinary c = true)
include hw

/-- A word at the beginning is deleted. -/
theorem deleteMatch_word_append (hne : w ≠ []) (t : Text) : deleteMatch w (w ++ t) = t := by
  have hmem : t ∈ globRests (globItems 0 w) (w ++ t) := (mem_globRests_word hw).mpr rfl
  cases hs : w ++ t with
  | nil => exact absurd (List.append_eq_nil_iff.mp hs).1 hne
  | cons c s =>
    rw [hs] at hmem
    rw [deleteMatch, deleteItems]
    cases hshortest : shortest (globRests (globItems 0 w) (c :: s)) with
    | none => exact absurd (shortest_eq_none.mp hshortest ▸ hmem) List.not_mem_nil
    | some u =>
      have hu := (mem_globRests_word hw).mp (shortest_mem hshortest)
      exact List.append_cancel_left (hu.symm.trans hs.symm)

theorem deleteMatch_word_cons {c : Char} {s : Text} (h : ¬ w <+: c :: s) :
    deleteMatch w (c :: s) = c :: deleteMatch w s := by
  have hnil : globRests (globItems 0 w) (c :: s) = [] := by
    refine List.eq_nil_iff_forall_not_mem.mpr fun t ht => h ⟨t, ?_⟩
    exact ((mem_globRests_word hw).mp ht).symm
  rw [deleteMatch, deleteItems, shortest_eq_none.mpr hnil]
  rfl

theorem deleteMatch_of_not_infix {s : Text} (h : ¬ w <:+: s) : deleteMatch w s = s := by
  refine deleteItems_of_no_match fun t ht => List.eq_nil_iff_forall_not_mem.mpr fun u hu => h ?_
  rw [(mem_globRests_word hw).mp hu] at ht
  exact (List.prefix_append w u).isInfix.trans ht.isInfix

/-- What stands behind the last character of the word stays. -/
theorem deleteMatch_append {c : Char} (hlast : w.getLast? = some c) {s t : Text} (ht : c ∉ t) :
    deleteMatch w (s ++ t) = deleteMatch w s ++ t := by
  have hne : w ≠ [] := by
    rintro rfl
    exact absurd hlast (by simp)
  have hmem : c ∈ w := List.mem_of_getLast? hlast
  induction s with
  | nil => exact deleteMatch_of_not_infix hw fun h => ht (h.mem hmem)
  | cons d s ih =>
    by_cases h : w <+: d :: s
    · obtain ⟨u, hu⟩ := h
      rw [← hu, List.append_assoc, deleteMatch_word_append hw hne, deleteMatch_word_append hw hne]
    · have happend : ¬ w <+: d :: (s ++ t) := fun h' =>
        h ((prefix_append_iff hlast ht).mp h')
      rw [List.cons_append, deleteMatch_word_cons hw happend, deleteMatch_word_cons hw h, ih]
      rfl

end

end Shell
