import Mathlib

/-!
# Text as shell scripts see it

A text is a list of characters. Two programs that read the same file need not agree on
what its lines are: `while read` runs its body for every line that ends in a newline,
`grep` also sees an unterminated last line. Both views are here, over the pieces between
newlines, together with word splitting, the sort order of `ls` and the facts about
appending to a file that loops over `>>` need.
-/

namespace Shell

/-- The contents of a file, or of a shell variable. -/
abbrev Text := List Char

/-- Equality of texts is tested character by character. -/
instance (priority := 2000) textLawfulBEq : LawfulBEq Text := List.instLawfulBEq

/-- Properties of all characters of a text are decided character by character, not by trying all
characters there are. -/
instance (priority := 2000) decidableForallMem {p : Char → Prop} [DecidablePred p] (t : List Char) :
    Decidable (∀ c ∈ t, p c) := List.decidableBAll p t

/-! ## Lines -/

/-- What stands after the last newline of `t`. -/
def lastPiece (t : Text) : Text := (t.splitOn '\n').getLastD []

/-- The lines for which `while read LINE` runs its body: `read` fails on a last line
that has no newline. -/
def readLines (t : Text) : List Text := (t.splitOn '\n').dropLast

/-- The lines `grep`, `sed` and `sort` see: an unterminated last line is one of them. -/
def fileLines (t : Text) : List Text :=
  readLines t ++ if lastPiece t = [] then [] else [lastPiece t]

/-- `t` is empty or ends in a newline. -/
def Terminated (t : Text) : Prop := lastPiece t = []

instance (t : Text) : Decidable (Terminated t) := inferInstanceAs (Decidable (_ = _))

/-- The text `echo` leaves in a file, line after line. -/
def unlines (ls : List Text) : Text := ls.flatMap (· ++ ['\n'])

theorem unlines_append (ps qs : List Text) : unlines (ps ++ qs) = unlines ps ++ unlines qs := by
  simp [unlines]

theorem unlines_flatMap {α : Type} (as : List α) (f : α → List Text) :
    (as.flatMap fun a => unlines (f a)) = unlines (as.flatMap f) := by
  simp [unlines, List.flatMap_assoc]

@[simp] theorem readLines_nil : readLines [] = [] := rfl

@[simp] theorem lastPiece_nil : lastPiece [] = [] := rfl

@[simp] theorem terminated_nil : Terminated [] := rfl

theorem splitOn_eq_concat (t : Text) : t.splitOn '\n' = readLines t ++ [lastPiece t] := by
  have hne : t.splitOn '\n' ≠ [] := List.splitOn_ne_nil _ _
  rw [readLines, lastPiece, List.getLastD_eq_getLast?, List.getLast?_eq_some_getLast hne]
  exact (List.dropLast_append_getLast hne).symm

/-- A text is its lines and its last piece. -/
theorem readLines_of_splitOn {t : Text} {ps : List Text} {l : Text}
    (h : t.splitOn '\n' = ps ++ [l]) : readLines t = ps ∧ lastPiece t = l := by
  rw [readLines, lastPiece, h]
  simp

/-- Appending text continues the last piece. -/
theorem splitOn_append {α : Type} [BEq α] {a : α} {t u : List α} {ps qs : List (List α)}
    {l q : List α} (ht : t.splitOn a = ps ++ [l]) (hu : u.splitOn a = q :: qs) :
    (t ++ u).splitOn a = ps ++ (l ++ q) :: qs := by
  induction t generalizing ps l with
  | nil =>
    obtain ⟨rfl, rfl⟩ : ps = [] ∧ l = [] := by
      cases ps with
      | nil => simpa using ht.symm
      | cons p ps => simp at ht
    simpa using hu
  | cons c t ih =>
    rw [List.cons_append, List.splitOn_cons_eq_if_modifyHead]
    rw [List.splitOn_cons_eq_if_modifyHead] at ht
    split_ifs at ht ⊢ with hc
    · obtain ⟨ps', rfl⟩ : ∃ ps', ps = [] :: ps' := by
        cases ps with
        | nil => simp at ht
        | cons p ps' => exact ⟨ps', by simpa using (List.cons.inj ht).1.symm⟩
      rw [ih (by simpa using ht)]
      rfl
    · cases hs : t.splitOn a with
      | nil => exact absurd hs (List.splitOn_ne_nil _ _)
      | cons p ps' =>
        rw [hs, List.modifyHead_cons] at ht
        cases ps with
        | nil =>
          obtain ⟨rfl, rfl⟩ : c :: p = l ∧ ps' = [] := by simpa using ht
          rw [ih (show t.splitOn a = [] ++ [p] from hs)]
          rfl
        | cons r rs =>
          obtain ⟨rfl, rfl⟩ : c :: p = r ∧ ps' = rs ++ [l] := by simpa using ht
          rw [ih (show t.splitOn a = (p :: rs) ++ [l] from hs)]
          rfl

/-- Appending to a terminated text appends pieces. -/
theorem splitOn_append_of_terminated {t : Text} (ht : Terminated t) (u : Text) :
    (t ++ u).splitOn '\n' = readLines t ++ u.splitOn '\n' := by
  have hl : lastPiece t = [] := ht
  cases hu : u.splitOn '\n' with
  | nil => exact absurd hu (List.splitOn_ne_nil _ _)
  | cons q qs => rw [splitOn_append (splitOn_eq_concat t) hu, hl, List.nil_append]

theorem pieces_append {t : Text} (ht : Terminated t) (u : Text) :
    readLines (t ++ u) = readLines t ++ readLines u ∧ lastPiece (t ++ u) = lastPiece u := by
  apply readLines_of_splitOn
  rw [splitOn_append_of_terminated ht, splitOn_eq_concat u, List.append_assoc]

/-- After a finished line, the lines of two texts come one after another. -/
theorem fileLines_append {t : Text} (ht : Terminated t) (u : Text) :
    fileLines (t ++ u) = fileLines t ++ fileLines u := by
  obtain ⟨hr, hl⟩ := pieces_append ht u
  have h : lastPiece t = [] := ht
  simp [fileLines, hr, hl, h]

theorem fileLines_of_terminated {t : Text} (ht : Terminated t) : fileLines t = readLines t := by
  have h : lastPiece t = [] := ht
  simp [fileLines, h]

theorem fileLines_of_not_terminated {t : Text} (ht : ¬ Terminated t) :
    fileLines t = readLines t ++ [lastPiece t] := by
  have h : lastPiece t ≠ [] := ht
  simp [fileLines, h]

theorem terminated_append {t u : Text} (ht : Terminated t) (hu : Terminated u) :
    Terminated (t ++ u) :=
  (pieces_append ht u).2.trans hu

/-- One line, as `echo` writes it. -/
theorem pieces_line {l : Text} (hl : '\n' ∉ l) :
    readLines (l ++ ['\n']) = [l] ∧ Terminated (l ++ ['\n']) := by
  apply readLines_of_splitOn
  rw [List.splitOn_append_cons_self_of_not_mem hl]
  rfl

theorem fileLines_line {l : Text} (hl : '\n' ∉ l) : fileLines (l ++ ['\n']) = [l] := by
  rw [fileLines_of_terminated (pieces_line hl).2, (pieces_line hl).1]

/-- A line that is appended continues the last piece. -/
theorem pieces_append_line (t : Text) {l : Text} (hl : '\n' ∉ l) :
    readLines (t ++ (l ++ ['\n'])) = readLines t ++ [lastPiece t ++ l] ∧
      Terminated (t ++ (l ++ ['\n'])) := by
  apply readLines_of_splitOn
  have hsplit : (l ++ ['\n']).splitOn '\n' = [l, []] :=
    List.splitOn_append_cons_self_of_not_mem hl []
  rw [splitOn_append (splitOn_eq_concat t) hsplit]
  simp

/-- Writing lines and reading them back. -/
theorem pieces_unlines {ls : List Text} (h : ∀ l ∈ ls, '\n' ∉ l) :
    readLines (unlines ls) = ls ∧ Terminated (unlines ls) := by
  induction ls with
  | nil => exact ⟨rfl, rfl⟩
  | cons l ls ih =>
    obtain ⟨hr, hterm⟩ := pieces_line (h l (by simp))
    obtain ⟨ihr, iht⟩ := ih fun k hk => h k (by simp [hk])
    have hcons : unlines (l :: ls) = (l ++ ['\n']) ++ unlines ls := by simp [unlines]
    rw [hcons]
    exact ⟨by rw [(pieces_append hterm _).1, hr, ihr]; rfl, terminated_append hterm iht⟩

/-- Lines that were printed are read. -/
theorem fileLines_unlines {ls : List Text} (h : ∀ l ∈ ls, '\n' ∉ l) :
    fileLines (unlines ls) = ls := by
  rw [fileLines_of_terminated (pieces_unlines h).2, (pieces_unlines h).1]

/-- A newline inside of what is written makes a line of its own. -/
theorem fileLines_unlines_splitOn (ls : List Text) :
    fileLines (unlines ls) = ls.flatMap (·.splitOn '\n') := by
  induction ls with
  | nil => rfl
  | cons l ls ih =>
    have hsplit : (l ++ ['\n']).splitOn '\n' = l.splitOn '\n' ++ [[]] :=
      List.splitOn_append_cons_self l []
    obtain ⟨hread, hlast⟩ := readLines_of_splitOn hsplit
    have hterm : Terminated (l ++ ['\n']) := hlast
    have hcons : unlines (l :: ls) = (l ++ ['\n']) ++ unlines ls := by simp [unlines]
    rw [hcons, fileLines_append hterm, ih, fileLines_of_terminated hterm, hread, List.flatMap_cons]

/-- Lines appended to a file whose last line is complete. -/
theorem fileLines_append_unlines {t : Text} {ls : List Text} (h : Terminated t ∨ ls = [])
    (hls : ∀ l ∈ ls, '\n' ∉ l) : fileLines (t ++ unlines ls) = fileLines t ++ ls := by
  rcases h with h | rfl
  · rw [fileLines_append h, fileLines_unlines hls]
  · simp [unlines]

/-- Otherwise the first one of them is lost. -/
theorem fileLines_append_unlines_ne {t : Text} {ls : List Text} (h : ¬ Terminated t) (hne : ls ≠ [])
    (hls : ∀ l ∈ ls, '\n' ∉ l ∧ l ≠ []) (ks : List Text) :
    fileLines (t ++ unlines ls) ≠ fileLines t ++ ks := by
  cases ls with
  | nil => exact absurd rfl hne
  | cons l ls =>
    rcases pieces_append_line t (hls l List.mem_cons_self).1 with ⟨hread, hterm⟩
    have hcons : t ++ unlines (l :: ls) = (t ++ (l ++ ['\n'])) ++ unlines ls := by simp [unlines]
    rw [hcons, fileLines_append hterm, fileLines_of_terminated hterm, hread,
      fileLines_of_not_terminated h, List.append_assoc, List.append_assoc]
    intro heq
    have hlast := (List.cons.inj (List.append_cancel_left heq)).1
    exact (hls l List.mem_cons_self).2 (by simpa using hlast)

/-! ## Pieces between separators -/

/-- The ways to split a list, its head first. -/
theorem forall_split_cons {α : Type} {a : α} {l : List α} {R : List α → α → Prop} :
    (∀ pre b post, a :: l = pre ++ b :: post → R pre b) ↔
      R [] a ∧ ∀ pre b post, l = pre ++ b :: post → R (a :: pre) b := by
  refine ⟨fun h => ⟨h [] a l rfl, fun pre b post heq => h (a :: pre) b post (by rw [heq]; rfl)⟩, ?_⟩
  rintro ⟨hhead, htail⟩ pre b post heq
  cases pre with
  | nil =>
    rcases List.cons.inj heq with ⟨rfl, -⟩
    exact hhead
  | cons x pre =>
    rcases List.cons.inj heq with ⟨rfl, hrest⟩
    exact htail pre b post hrest

theorem not_mem_of_mem_splitOn {α : Type} [BEq α] [LawfulBEq α] {a : α} {s w : List α}
    (h : w ∈ s.splitOn a) : a ∉ w := by
  induction s generalizing w with
  | nil =>
    rw [List.splitOn_nil, List.mem_singleton] at h
    simp [h]
  | cons c s ih =>
    rw [List.splitOn_cons_eq_if_modifyHead] at h
    split_ifs at h with hc
    · rcases List.mem_cons.mp h with rfl | h
      · simp
      · exact ih h
    · cases hs : s.splitOn a with
      | nil => exact absurd hs (List.splitOn_ne_nil _ _)
      | cons p ps =>
        rw [hs, List.modifyHead_cons] at h
        rcases List.mem_cons.mp h with rfl | h
        · have hp := ih (by rw [hs]; exact List.mem_cons_self)
          intro ha
          rcases List.mem_cons.mp ha with rfl | ha
          · simp at hc
          · exact hp ha
        · exact ih (by rw [hs]; exact List.mem_cons_of_mem _ h)

theorem newline_not_mem_readLines {t l : Text} (hl : l ∈ readLines t) : '\n' ∉ l :=
  not_mem_of_mem_splitOn (List.dropLast_subset _ hl)

theorem newline_not_mem_lastPiece (t : Text) : '\n' ∉ lastPiece t := by
  have hmem : lastPiece t ∈ t.splitOn '\n' := by
    rw [splitOn_eq_concat]
    simp
  exact not_mem_of_mem_splitOn hmem

theorem newline_not_mem_fileLines {t l : Text} (hl : l ∈ fileLines t) : '\n' ∉ l := by
  rcases List.mem_append.mp hl with hl | hl
  · exact newline_not_mem_readLines hl
  · split_ifs at hl with hlast
    · exact absurd hl List.not_mem_nil
    · rw [List.mem_singleton.mp hl]
      exact newline_not_mem_lastPiece t

/-- A text is its lines, each with its newline, and its last piece. -/
theorem eq_unlines_append (t : Text) : t = unlines (readLines t) ++ lastPiece t := by
  have hcat : ∀ (ps : List Text) (l : Text),
      ['\n'].intercalate (ps ++ [l]) = unlines ps ++ l := by
    intro ps l
    induction ps with
    | nil => simp [unlines]
    | cons p ps ih =>
      rw [List.cons_append, List.intercalate_cons_of_ne_nil (by simp), ih]
      simp [unlines]
  calc t = ['\n'].intercalate (t.splitOn '\n') := (List.intercalate_splitOn '\n').symm
    _ = unlines (readLines t) ++ lastPiece t := by rw [splitOn_eq_concat, hcat]

/-- `w` stands in `s` between separators or the ends of the text. -/
def Delimited {α : Type} (a : α) (w s : List α) : Prop :=
  ∃ pre post, s = pre ++ w ++ post ∧ (pre = [] ∨ ∃ p, pre = p ++ [a]) ∧
    (post = [] ∨ ∃ q, post = a :: q)

theorem delimited_intercalate {α : Type} {a : α} {ls : List (List α)} {w : List α}
    (h : w ∈ ls) : Delimited a w ([a].intercalate ls) := by
  induction ls with
  | nil => exact absurd h List.not_mem_nil
  | cons l ls ih =>
    by_cases hls : ls = []
    · obtain rfl : w = l := by simpa [hls] using h
      exact ⟨[], [], by simp [hls], Or.inl rfl, Or.inl rfl⟩
    · have hcat : [a].intercalate (l :: ls) = l ++ a :: [a].intercalate ls := by
        rw [List.intercalate_cons_of_ne_nil hls]
        simp
      rw [hcat]
      rcases List.mem_cons.mp h with rfl | h
      · exact ⟨[], a :: [a].intercalate ls, by simp, Or.inl rfl, Or.inr ⟨_, rfl⟩⟩
      · obtain ⟨pre, post, heq, hpre, hpost⟩ := ih h
        refine ⟨l ++ a :: pre, post, by simp [heq], Or.inr ?_, hpost⟩
        rcases hpre with rfl | ⟨p, rfl⟩
        · exact ⟨l, rfl⟩
        · exact ⟨l ++ a :: p, by simp⟩

/-- The pieces of a text are its delimited parts that have no separator inside. -/
theorem mem_splitOn_iff {α : Type} [BEq α] [LawfulBEq α] {a : α} {w s : List α} :
    w ∈ s.splitOn a ↔ Delimited a w s ∧ a ∉ w := by
  constructor
  · intro h
    have hd := @delimited_intercalate α a _ _ h
    rw [List.intercalate_splitOn] at hd
    exact ⟨hd, not_mem_of_mem_splitOn h⟩
  · rintro ⟨⟨pre, post, rfl, hpre, hpost⟩, hw⟩
    have hmid : w ∈ (w ++ post).splitOn a := by
      rcases hpost with rfl | ⟨q, rfl⟩
      · rw [List.append_nil, List.splitOn_eq_singleton hw]
        exact List.mem_singleton_self w
      · rw [List.splitOn_append_cons_self_of_not_mem hw]
        exact List.mem_cons_self
    rcases hpre with rfl | ⟨p, rfl⟩
    · exact hmid
    · have hcat : p ++ [a] ++ w ++ post = p ++ a :: (w ++ post) := by simp
      rw [hcat, List.splitOn_append_cons_self]
      exact List.mem_append_right _ hmid

/-- A text without the separator stands on one side of it. -/
theorem infix_append_cons_iff {α : Type} {a : α} {w s t : List α} (hw : a ∉ w) :
    w <:+: s ++ a :: t ↔ w <:+: s ∨ w <:+: t := by
  have hhead : ∀ {v : List α}, v <+: a :: t → a ∉ v → v = [] := by
    intro v hv ha
    rcases List.prefix_cons_iff.mp hv with rfl | ⟨u, rfl, -⟩
    · rfl
    · simp at ha
  rw [List.infix_append_iff, List.infix_cons_iff]
  refine ⟨?_, ?_⟩
  · rintro (h | (h | h) | ⟨u, v, rfl, hu, hv⟩)
    · exact Or.inl h
    · rw [hhead h hw]
      exact Or.inl List.nil_infix
    · exact Or.inr h
    · have hnil : v = [] := hhead hv fun ha => hw (List.mem_append_right _ ha)
      rw [hnil, List.append_nil]
      exact Or.inl hu.isInfix
  · rintro (h | h)
    · exact Or.inl h
    · exact Or.inr (Or.inl (Or.inr h))

/-- A word reaches as far as its last character. -/
theorem prefix_append_iff {α : Type} {a : α} {w s t : List α} (hlast : w.getLast? = some a)
    (ht : a ∉ t) : w <+: s ++ t ↔ w <+: s := by
  refine ⟨?_, fun h => h.trans (List.prefix_append s t)⟩
  rintro ⟨v, hv⟩
  rcases List.append_eq_append_iff.mp hv with ⟨u, rfl, -⟩ | ⟨u, rfl, rfl⟩
  · exact List.prefix_append w u
  · -- the last character of the word is in `u`, unless that is empty
    rcases List.eq_nil_or_concat u with rfl | ⟨u', b, rfl⟩
    · rw [List.append_nil]
    · rw [List.concat_eq_append, ← List.append_assoc, List.getLast?_concat,
        Option.some.injEq] at hlast
      subst hlast
      exact absurd (by simp) ht

theorem infix_append_iff {α : Type} {a : α} {w s t : List α} (hlast : w.getLast? = some a)
    (ht : a ∉ t) : w <:+: s ++ t ↔ w <:+: s := by
  refine ⟨?_, fun h => h.trans (List.prefix_append s t).isInfix⟩
  rintro ⟨x, v, hv⟩
  have hinitial : x ++ w <+: s ++ t := ⟨v, hv⟩
  have hlast' : (x ++ w).getLast? = some a := by rw [List.getLast?_append, hlast, Option.some_or]
  exact (List.suffix_append x w).isInfix.trans ((prefix_append_iff hlast' ht).mp hinitial).isInfix

/-- A word with a separator at its end, in a text with a separator. -/
theorem concat_infix_iff {α : Type} {a : α} {k s t : List α} (hk : a ∉ k) (hs : a ∉ s) :
    k ++ [a] <:+: s ++ a :: t ↔ k <:+ s ∨ k ++ [a] <:+: t := by
  constructor
  · rintro ⟨x, v, hv⟩
    have hsplit : (x ++ k) ++ a :: v = s ++ a :: t := by rw [← hv]; simp
    rcases List.append_eq_append_iff.mp hsplit with ⟨u, hu, hrest⟩ | ⟨u, hu, hrest⟩
    · cases u with
      | nil => exact .inl ⟨x, by rw [hu, List.append_nil]⟩
      | cons b u =>
        obtain rfl : a = b := (List.cons.inj hrest).1
        exact absurd (by simp [hu]) hs
    · cases u with
      | nil => exact .inl ⟨x, by rw [hu, List.append_nil]⟩
      | cons b u =>
        obtain ⟨rfl, rfl⟩ := List.cons.inj hrest
        -- the separator before `u` does not stand in `k`
        have hword : k <:+ s ++ a :: u := ⟨x, hu⟩
        have htail : a :: u <:+ s ++ a :: u := List.suffix_append s _
        rcases List.suffix_or_suffix_of_suffix hword htail with hsuffix | hsuffix
        · rcases List.suffix_cons_iff.mp hsuffix with rfl | ⟨y, rfl⟩
          · exact absurd List.mem_cons_self hk
          · exact .inr ⟨y, v, by simp⟩
        · exact absurd (hsuffix.mem List.mem_cons_self) hk
  · rintro (⟨x, rfl⟩ | h)
    · exact ⟨x, t, by simp⟩
    · exact h.trans ((List.suffix_cons a t).trans (List.suffix_append s _)).isInfix

/-- A text without the separator stands in one of the parts. -/
theorem infix_intercalate_iff {α : Type} {a : α} {w : List α} {ls : List (List α)} (hw : a ∉ w)
    (hne : w ≠ []) : w <:+: [a].intercalate ls ↔ ∃ l ∈ ls, w <:+: l := by
  induction ls with
  | nil => simp [hne]
  | cons l ls ih =>
    by_cases hls : ls = []
    · simp [hls]
    · have hcat : [a].intercalate (l :: ls) = l ++ a :: [a].intercalate ls := by
        rw [List.intercalate_cons_of_ne_nil hls]
        simp
      rw [hcat, infix_append_cons_iff hw, ih]
      simp

/-- A character of a text is a newline or stands in one of the lines. -/
theorem mem_fileLines_of_mem {t : Text} {c : Char} (hc : c ∈ t) :
    c = '\n' ∨ ∃ l ∈ fileLines t, c ∈ l := by
  have hpiece : ∀ s : Text, c ∈ s → c = '\n' ∨ ∃ l ∈ s.splitOn '\n', c ∈ l := by
    intro s
    induction s with
    | nil => simp
    | cons d s ih =>
      intro h
      rw [List.splitOn_cons_eq_if_modifyHead]
      cases hs : s.splitOn '\n' with
      | nil => exact absurd hs (List.splitOn_ne_nil _ _)
      | cons p ps =>
        rw [hs] at ih
        by_cases hd : d = '\n'
        · rcases List.mem_cons.mp h with rfl | h
          · exact Or.inl hd
          · refine (ih h).imp_right fun ⟨l, hl, hcl⟩ => ⟨l, ?_, hcl⟩
            simpa [hd] using Or.inr (List.mem_cons.mp hl)
        · simp only [beq_iff_eq, hd, if_false, List.modifyHead_cons]
          rcases List.mem_cons.mp h with rfl | h
          · exact Or.inr ⟨c :: p, by simp, by simp⟩
          · refine (ih h).imp_right fun ⟨l, hl, hcl⟩ => ?_
            rcases List.mem_cons.mp hl with rfl | hl
            · exact ⟨d :: l, by simp, by simp [hcl]⟩
            · exact ⟨l, by simp [hl], hcl⟩
  refine (hpiece t hc).imp_right fun ⟨l, hl, hcl⟩ => ⟨l, ?_, hcl⟩
  rw [splitOn_eq_concat] at hl
  have hne : l ≠ [] := List.ne_nil_of_mem hcl
  rcases List.mem_append.mp hl with hl | hl
  · exact List.mem_append_left _ hl
  · obtain rfl := List.mem_singleton.mp hl
    simp [fileLines, hne]

end Shell
