import Mathlib

/-!
# Loading in the order of a list

Things that need each other are loaded one after the other in a single pass over a list. A thing
is loaded when all that it needs directly is there, otherwise it is left out; there is no second
attempt. What the pass reaches depends on the order: when every thing stands to the left of what
it needs, only what needs nothing new is loaded.
-/

namespace Loading

variable {α : Type} [DecidableEq α] {needs : α → List α} {loaded : List α}

/-- One attempt. -/
def attempt (needs : α → List α) (loaded : List α) (a : α) : List α :=
  if a ∉ loaded ∧ needs a ⊆ loaded then loaded ++ [a] else loaded

/-- One pass over a list. -/
def onePass (needs : α → List α) (loaded as : List α) : List α := as.foldl (attempt needs) loaded

/-- `a` needs `b`, directly or through others. -/
def Needs (needs : α → List α) : α → α → Prop := Relation.TransGen fun a b => b ∈ needs a

/-- Nothing that `a` needs, and not `a` itself, is needed by itself. -/
def Acyclic (needs : α → List α) (a : α) : Prop :=
  ∀ b, b = a ∨ Needs needs a b → ¬ Needs needs b b

/-- Everything that is needed is there. -/
def Closed (needs : α → List α) (loaded : List α) : Prop := ∀ a ∈ loaded, needs a ⊆ loaded

omit [DecidableEq α] in
/-- What is needed is named at once or by something needed. -/
theorem needs_iff {a b : α} :
    Needs needs a b ↔ ∃ c ∈ needs a, c = b ∨ Needs needs c b := by
  constructor
  · intro h
    rcases Relation.TransGen.head'_iff.mp h with ⟨c, hc, hcb⟩
    rcases Relation.reflTransGen_iff_eq_or_transGen.mp hcb with heq | hcb
    · exact ⟨c, hc, Or.inl heq.symm⟩
    · exact ⟨c, hc, Or.inr hcb⟩
  · rintro ⟨c, hc, rfl | hcb⟩
    · exact Relation.TransGen.single hc
    · exact Relation.TransGen.head hc hcb

omit [DecidableEq α] in
/-- What is loaded has all it needs loaded, at every depth. -/
theorem Closed.mem (h : Closed needs loaded) {a b : α} (ha : a ∈ loaded) (hab : Needs needs a b) :
    b ∈ loaded := by
  induction hab with
  | single hb => exact h a ha hb
  | tail _ hc ih => exact h _ ih hc

/-! ## One attempt -/

/-- A try loads the module when all it names is loaded. -/
theorem mem_attempt_self {a : α} (h : a ∉ loaded) :
    a ∈ attempt needs loaded a ↔ needs a ⊆ loaded := by
  unfold attempt
  split_ifs with hif
  · exact iff_of_true (by simp) hif.2
  · exact iff_of_false h fun hneeds => hif ⟨h, hneeds⟩

/-- A try loads no other module. -/
theorem mem_attempt_of_ne {a b : α} (h : b ≠ a) : b ∈ attempt needs loaded a ↔ b ∈ loaded := by
  unfold attempt
  split_ifs
  · simp [h]
  · rfl

/-- A try at a loaded module changes nothing. -/
theorem attempt_of_mem {a : α} (h : a ∈ loaded) : attempt needs loaded a = loaded :=
  if_neg fun hif => hif.1 h

/-- What was added to `old`: nothing twice, and everything after what it needs. -/
structure Added (needs : α → List α) (old loaded : List α) : Prop where
  keeps : old <+: loaded
  once : ∀ pre a post, loaded = pre ++ a :: post → old.length ≤ pre.length →
    a ∉ pre ∧ needs a ⊆ pre

theorem added_refl (old : List α) : Added needs old old := by
  refine ⟨List.prefix_refl old, fun pre a post h hlen => ?_⟩
  rw [h, List.length_append, List.length_cons] at hlen
  omega

/-- A try adds at most what can be added. -/
theorem Added.attempt {old : List α} (h : Added needs old loaded) (a : α) :
    Added needs old (attempt needs loaded a) := by
  unfold Loading.attempt
  split_ifs with hif
  · refine ⟨h.keeps.trans (List.prefix_append _ _), fun pre b post heq hlen => ?_⟩
    rcases List.eq_nil_or_concat post with rfl | ⟨post, c, rfl⟩
    · obtain ⟨rfl, rfl⟩ := List.append_singleton_inj.mp heq
      exact hif
    · have hpre : loaded ++ [a] = (pre ++ b :: post) ++ [c] := by simpa using heq
      exact h.once pre b post (List.append_singleton_inj.mp hpre).1 hlen
  · exact h

omit [DecidableEq α] in
/-- With all that was there at the beginning having what it needs, everything stands after all that
it needs, also through others. -/
theorem Added.mem_of_needs {old pre post : List α} {a b : α} (h : Added needs old loaded)
    (hold : Closed needs old) (hsplit : loaded = pre ++ a :: post) (hlen : old.length ≤ pre.length)
    (hab : Needs needs a b) : b ∈ pre := by
  obtain ⟨new, rfl⟩ : old <+: pre := by
    refine List.prefix_of_prefix_length_le h.keeps ?_ hlen
    exact ⟨a :: post, hsplit.symm⟩
  induction hab with
  | single hb => exact (h.once _ a post hsplit hlen).2 hb
  | @tail c b _ hb ih =>
    rcases List.mem_append.mp ih with hc | hc
    · exact List.mem_append_left _ (hold c hc hb)
    · obtain ⟨new1, new2, rfl⟩ := List.append_of_mem hc
      have hsplit' : loaded = (old ++ new1) ++ c :: (new2 ++ a :: post) := by simp [hsplit]
      have hpre := (h.once _ c _ hsplit' (by simp)).2 hb
      have hsub : old ++ new1 <+: old ++ (new1 ++ c :: new2) := ⟨c :: new2, by simp⟩
      exact hsub.mem hpre

/-! ## One pass -/

/-- One pass adds at most what can be added. -/
theorem added_onePass {old : List α} (h : Added needs old loaded) (as : List α) :
    Added needs old (onePass needs loaded as) := by
  induction as generalizing loaded with
  | nil => exact h
  | cons a as ih => exact ih (h.attempt a)

/-- When everything stands to the left of what it needs, an attempt finds no more than there was at
the beginning. -/
theorem mem_onePass_iff {as : List α} (horder : as.Pairwise fun a b => a ∉ needs b) {b : α} :
    b ∈ onePass needs loaded as ↔ b ∈ loaded ∨ b ∈ as ∧ needs b ⊆ loaded := by
  induction as generalizing loaded with
  | nil => simp [onePass]
  | cons a as ih =>
    rw [List.pairwise_cons] at horder
    have hneeds : ∀ c ∈ as, (needs c ⊆ attempt needs loaded a ↔ needs c ⊆ loaded) := by
      intro c hc
      have hne : ∀ d ∈ needs c, d ≠ a := fun d hd heq => horder.1 c hc (heq ▸ hd)
      exact ⟨fun h d hd => (mem_attempt_of_ne (hne d hd)).mp (h hd),
        fun h d hd => (mem_attempt_of_ne (hne d hd)).mpr (h hd)⟩
    rw [onePass, List.foldl_cons, ← onePass, ih horder.2, List.mem_cons]
    by_cases hba : b = a
    · subst hba
      by_cases hb : b ∈ loaded
      · simp [attempt_of_mem hb, hb]
      · rw [mem_attempt_self hb]
        constructor
        · rintro (h | ⟨hmem, h⟩)
          · exact Or.inr ⟨Or.inl rfl, h⟩
          · exact Or.inr ⟨Or.inl rfl, (hneeds b hmem).mp h⟩
        · rintro (h | ⟨-, h⟩)
          · exact absurd h hb
          · exact Or.inl h
    · rw [mem_attempt_of_ne hba]
      constructor
      · rintro (h | ⟨hmem, h⟩)
        · exact Or.inl h
        · exact Or.inr ⟨Or.inr hmem, (hneeds b hmem).mp h⟩
      · rintro (h | ⟨h | hmem, hsub⟩)
        · exact Or.inl h
        · exact absurd h hba
        · exact Or.inr ⟨hmem, (hneeds b hmem).mpr hsub⟩

end Loading
