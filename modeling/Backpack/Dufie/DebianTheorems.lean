import Backpack.Dufie.Debian

/-!
# Which packages of Debian are shown right

The loop is taken apart in two steps: what it does with complete lines, whatever stanza they are
from, and what this comes to stanza by stanza. A last line without a newline is a case of its own,
because the last character of names and versions is cut off.
-/

namespace Backpack.Dufie

open Shell Libc

/-! ## Lines that end in a newline -/

/-- The elements that the `Version` lines add. -/
def entries : Text → ℤ → List Text → List DirHelp
  | _, _, [] => []
  | name, size, l :: ls =>
    if hasKey packageKey l then entries (l.drop 9) size ls
    else if hasKey installedKey l then entries name (number (l.drop 16)) ls
    else if hasKey versionKey l then
      ⟨'/' :: name ++ comma ++ l.drop 9, size⟩ :: entries name size ls
    else entries name size ls

/-- The numbers of the `Installed-Size` lines. -/
def sizes (ls : List Text) : List ℤ :=
  (ls.filter (hasKey installedKey)).map fun l => number (l.drop 16)

theorem packageKey_no_newline : ∀ c ∈ packageKey, c.toLower ≠ '\n' := by decide

theorem installedKey_no_newline : ∀ c ∈ installedKey, c.toLower ≠ '\n' := by decide

theorem versionKey_no_newline : ∀ c ∈ versionKey, c.toLower ≠ '\n' := by decide

/-- The keys begin with different letters. -/
theorem not_hasKey_of_hasKey {key key' l : Text} (hne : key ≠ []) (hne' : key' ≠ [])
    (hhead : (key.map Char.toLower).head? ≠ (key'.map Char.toLower).head?) (h : hasKey key l) :
    hasKey key' l = false := by
  have hfirst : ∀ {k : Text}, k ≠ [] → hasKey k l →
      (k.map Char.toLower).head? = (l.map Char.toLower).head? := by
    intro k hk hkey
    rw [hasKey, beq_iff_eq] at hkey
    rw [← hkey]
    cases k with
    | nil => exact absurd rfl hk
    | cons c k => cases l <;> simp
  rw [Bool.eq_false_iff]
  exact fun h' => hhead ((hfirst hne h).trans (hfirst hne' h').symm)

section Line

variable {s : StatusState} {l : Text}

theorem drop_append_newline {key : Text} (h : hasKey key l) :
    (l ++ ['\n']).drop key.length = l.drop key.length ++ ['\n'] :=
  List.drop_append_of_le_length (length_le_of_hasKey h)

/-- A line with the package's name is kept. -/
theorem readStatusLine_package (h : hasKey packageKey l) :
    readStatusLine s (l ++ ['\n']) = some { s with name := l.drop 9 } := by
  have hdrop : (l ++ ['\n']).drop 9 = l.drop 9 ++ ['\n'] := drop_append_newline h
  rw [readStatusLine, hasKey_append_newline packageKey_no_newline, if_pos h, hdrop,
    if_neg (by simp), List.dropLast_concat]

/-- A line with the size is kept and added. -/
theorem readStatusLine_installed (hp : ¬ hasKey packageKey l) (h : hasKey installedKey l) :
    readStatusLine s (l ++ ['\n']) = (long (number (l.drop 16))).bind fun n =>
      (long (s.cumul + n)).map fun c => { s with indiv := n, cumul := c } := by
  have hdrop : (l ++ ['\n']).drop 16 = l.drop 16 ++ ['\n'] := drop_append_newline h
  rw [readStatusLine, hasKey_append_newline packageKey_no_newline, if_neg hp,
    hasKey_append_newline installedKey_no_newline, if_pos h, hdrop, atol, number_append_newline]
  simp only [Option.bind_eq_bind]
  refine congrArg _ (funext fun n => ?_)
  cases long (s.cumul + n) <;> rfl

/-- A line with the version adds an entry, if its text fits. -/
theorem readStatusLine_version (hp : ¬ hasKey packageKey l) (hi : ¬ hasKey installedKey l)
    (h : hasKey versionKey l) :
    readStatusLine s (l ++ ['\n']) =
      if ('/' :: s.name ++ comma ++ l.drop 9).length + 2 ≤ 2048 then
        some { s with dir := s.dir ++ [.elem ⟨'/' :: s.name ++ comma ++ l.drop 9, s.indiv⟩] }
      else none := by
  have hdrop : (l ++ ['\n']).drop 9 = l.drop 9 ++ ['\n'] := drop_append_newline h
  have hspec : '/' :: s.name ++ comma ++ (l.drop 9 ++ ['\n']) =
      ('/' :: s.name ++ comma ++ l.drop 9) ++ ['\n'] := by simp
  rw [readStatusLine, hasKey_append_newline packageKey_no_newline, if_neg hp,
    hasKey_append_newline installedKey_no_newline, if_neg hi,
    hasKey_append_newline versionKey_no_newline, if_pos h, hdrop]
  have hlen : ('/' :: s.name ++ comma ++ l.drop 9 ++ ['\n']).length + 1 =
      ('/' :: s.name ++ comma ++ l.drop 9).length + 2 := by
    rw [List.length_append, List.length_singleton]
  simp only [hspec, List.dropLast_concat, hlen]

/-- Other lines change nothing. -/
theorem readStatusLine_other (hp : ¬ hasKey packageKey l) (hi : ¬ hasKey installedKey l)
    (hv : ¬ hasKey versionKey l) : readStatusLine s (l ++ ['\n']) = some s := by
  rw [readStatusLine, hasKey_append_newline packageKey_no_newline, if_neg hp,
    hasKey_append_newline installedKey_no_newline, if_neg hi,
    hasKey_append_newline versionKey_no_newline, if_neg hv]

end Line

/-- The loop over complete lines. -/
theorem foldlM_readStatusLine_iff {ls : List Text} {s s' : StatusState} :
    (ls.map (· ++ ['\n'])).foldlM readStatusLine s = some s' ↔
      SumsFit s.cumul (sizes ls) ∧
      (∀ e ∈ entries s.name s.indiv ls, e.dir.length + 2 ≤ 2048) ∧
      s' = ⟨s.dir ++ (entries s.name s.indiv ls).map Cell.elem, lastName s.name ls,
        lastSize s.indiv ls, s.cumul + (sizes ls).sum⟩ := by
  induction ls generalizing s with
  | nil =>
    have hs : s = ⟨s.dir ++ [], s.name, s.indiv, s.cumul + 0⟩ := by simp
    simp only [List.map_nil, List.foldlM_nil, sizes, List.filter_nil, entries, lastName, lastSize,
      List.sum_nil, sumsFit_nil, true_and, List.not_mem_nil, false_implies, implies_true, ← hs]
    exact ⟨fun h => (Option.some.inj h).symm, fun h => congrArg some h.symm⟩
  | cons l ls ih =>
    rw [List.map_cons, List.foldlM_cons, Option.bind_eq_bind]
    by_cases hp : hasKey packageKey l
    · have hi : hasKey installedKey l = false :=
        not_hasKey_of_hasKey (by decide) (by decide) (by decide) hp
      rw [readStatusLine_package hp, Option.bind_some, ih]
      simp [sizes, entries, lastName, lastSize, hp, hi]
    by_cases hi : hasKey installedKey l
    · obtain ⟨n, hn⟩ : ∃ n, n = number (l.drop 16) := ⟨_, rfl⟩
      have hsizes : sizes (l :: ls) = n :: sizes ls := by simp [sizes, hi, hn]
      have hentries : ∀ size, entries s.name size (l :: ls) = entries s.name n ls := by
        simp [entries, hp, hi, hn]
      have hname : lastName s.name (l :: ls) = lastName s.name ls := by simp [lastName, hp]
      have hsize : lastSize s.indiv (l :: ls) = lastSize n ls := by simp [lastSize, hi, hn]
      rw [readStatusLine_installed hp hi, ← hn, hsizes, hentries, hname, hsize, sumsFit_cons,
        List.sum_cons, ← Int.add_assoc]
      simp only [Option.bind_eq_some_iff, Option.map_eq_some_iff, long_eq_some_iff]
      constructor
      · rintro ⟨_, ⟨m, ⟨hlong, rfl⟩, _, ⟨hsum, rfl⟩, rfl⟩, hrest⟩
        obtain ⟨hfit, hspec, hs⟩ := ih.mp hrest
        exact ⟨⟨⟨hlong, hsum⟩, hfit⟩, hspec, hs⟩
      · rintro ⟨⟨⟨hlong, hsum⟩, hfit⟩, hspec, hs⟩
        exact ⟨_, ⟨n, ⟨hlong, rfl⟩, _, ⟨hsum, rfl⟩, rfl⟩, ih.mpr ⟨hfit, hspec, hs⟩⟩
    by_cases hv : hasKey versionKey l
    · obtain ⟨spec, hspec⟩ : ∃ spec, spec = '/' :: s.name ++ comma ++ l.drop 9 := ⟨_, rfl⟩
      have hsizes : sizes (l :: ls) = sizes ls := by simp [sizes, hi]
      have hentries : entries s.name s.indiv (l :: ls) =
          ⟨spec, s.indiv⟩ :: entries s.name s.indiv ls := by
        rw [entries, if_neg hp, if_neg hi, if_pos hv, hspec]
      have hname : lastName s.name (l :: ls) = lastName s.name ls := by simp [lastName, hp]
      have hsize : lastSize s.indiv (l :: ls) = lastSize s.indiv ls := by simp [lastSize, hi]
      rw [readStatusLine_version hp hi hv, ← hspec, hsizes, hentries, hname, hsize,
        List.forall_mem_cons]
      by_cases hlen : spec.length + 2 ≤ 2048
      · rw [if_pos hlen, Option.bind_some, ih]
        simp [hlen]
      · rw [if_neg hlen]
        simp [hlen]
    · rw [readStatusLine_other hp hi hv, Option.bind_some, ih]
      simp [sizes, entries, lastName, lastSize, hp, hi, hv]

/-! ## Stanzas -/

theorem lastName_append (name : Text) (ls ms : List Text) :
    lastName name (ls ++ ms) = lastName (lastName name ls) ms := by
  induction ls generalizing name with
  | nil => rfl
  | cons l ls ih => exact ih _

theorem lastSize_append (size : ℤ) (ls ms : List Text) :
    lastSize size (ls ++ ms) = lastSize (lastSize size ls) ms := by
  induction ls generalizing size with
  | nil => rfl
  | cons l ls ih => exact ih _

/-- The name and the size are carried on from line to line. -/
theorem entries_append (name : Text) (size : ℤ) (ls ms : List Text) :
    entries name size (ls ++ ms) =
      entries name size ls ++ entries (lastName name ls) (lastSize size ls) ms := by
  induction ls generalizing name size with
  | nil => rfl
  | cons l ls ih =>
    by_cases hp : hasKey packageKey l
    · have hi : hasKey installedKey l = false :=
        not_hasKey_of_hasKey (by decide) (by decide) (by decide) hp
      simp [entries, lastName, lastSize, hp, hi, ih]
    by_cases hi : hasKey installedKey l
    · simp [entries, lastName, lastSize, hp, hi, ih]
    by_cases hv : hasKey versionKey l
    · simp [entries, lastName, lastSize, hp, hi, hv, ih]
    · simp [entries, lastName, lastSize, hp, hi, hv, ih]

theorem entries_of_no_version {ls : List Text} (h : ∀ l ∈ ls, ¬ hasKey versionKey l)
    (name : Text) (size : ℤ) : entries name size ls = [] := by
  induction ls generalizing name size with
  | nil => rfl
  | cons l ls ih =>
    have hrest := ih fun k hk => h k (List.mem_cons_of_mem _ hk)
    rw [entries, if_neg (h l List.mem_cons_self), hrest, hrest, hrest]
    simp

/-- A blank line has no key. -/
theorem not_hasKey_of_blank {key l : Text} {c : Char} (hkey : key.head? = some c)
    (hc : c.toLower ≠ ' ' ∧ c.toLower ≠ '\t') (hl : blank l) : hasKey key l = false := by
  rw [Bool.eq_false_iff]
  intro h
  cases key with
  | nil => simp at hkey
  | cons k key =>
    obtain rfl : k = c := by simpa using hkey
    cases l with
    | nil => simp [hasKey] at h
    | cons d l =>
      have hd : d.toLower = k.toLower := by
        simp only [hasKey, List.length_cons, List.take_succ_cons, List.map_cons, beq_iff_eq,
          List.cons.injEq] at h
        exact h.1
      have hblank : d = ' ' ∨ d = '\t' := by
        simp only [blank, List.all_cons, Bool.and_eq_true, Bool.or_eq_true, beq_iff_eq] at hl
        exact hl.1
      rcases hblank with rfl | rfl
      · exact hc.1 hd.symm
      · exact hc.2 hd.symm

theorem stanzas_ne_nil (ls : List Text) : stanzas ls ≠ [] := by
  induction ls with
  | nil => simp [stanzas]
  | cons l ls ih =>
    rw [stanzas]
    split
    · simp
    · simpa using ih

theorem flatten_stanzas (ls : List Text) : (stanzas ls).flatten = ls.filter fun l => !blank l := by
  induction ls with
  | nil => rfl
  | cons l ls ih =>
    rw [stanzas]
    by_cases hl : blank l
    · simp [hl, ih]
    · cases hst : stanzas ls with
      | nil => exact absurd hst (stanzas_ne_nil ls)
      | cons st sts =>
        rw [hst] at ih
        simp only [List.flatten_cons] at ih
        simp [hl, ← ih]

/-- A line at the end goes to the last stanza. -/
theorem stanzas_concat {q : Text} (hq : ¬ blank q) {ls : List Text} {pre : List (List Text)}
    {st : List Text} (h : stanzas ls = pre ++ [st]) :
    stanzas (ls ++ [q]) = pre ++ [st ++ [q]] := by
  induction ls generalizing pre st with
  | nil =>
    obtain ⟨rfl, rfl⟩ : pre = [] ∧ st = [] := by
      cases pre with
      | nil => simpa [stanzas] using h.symm
      | cons p pre => simp [stanzas] at h
    simp [stanzas, hq]
  | cons l ls ih =>
    rw [stanzas] at h
    rw [List.cons_append, stanzas]
    by_cases hl : blank l
    · rw [if_pos hl] at h ⊢
      cases pre with
      | nil =>
        have hnil := (List.cons.inj h).2
        exact absurd hnil (stanzas_ne_nil ls)
      | cons p pre =>
        obtain ⟨rfl, hrest⟩ := List.cons.inj h
        rw [ih hrest]
        rfl
    · rw [if_neg hl] at h ⊢
      cases hst : stanzas ls with
      | nil => exact absurd hst (stanzas_ne_nil ls)
      | cons p ps =>
        rw [hst, List.modifyHead_cons] at h
        cases pre with
        | nil =>
          obtain ⟨rfl, rfl⟩ : l :: p = st ∧ ps = [] := by simpa using h
          rw [@ih [] p hst]
          rfl
        | cons r pre =>
          obtain ⟨rfl, rfl⟩ := List.cons.inj h
          rw [@ih (p :: pre) st hst]
          rfl

theorem entries_stanzas (name : Text) (size : ℤ) (ls : List Text) :
    entries name size (stanzas ls).flatten = entries name size ls := by
  rw [flatten_stanzas]
  induction ls generalizing name size with
  | nil => rfl
  | cons l ls ih =>
    by_cases hl : blank l
    · have hp := @not_hasKey_of_blank packageKey l 'P' rfl (by decide) hl
      have hi := @not_hasKey_of_blank installedKey l 'I' rfl (by decide) hl
      have hv := @not_hasKey_of_blank versionKey l 'V' rfl (by decide) hl
      simp [entries, hl, hp, hi, hv, ih]
    · have hfilter : (l :: ls).filter (fun l => !blank l) = l :: ls.filter fun l => !blank l := by
        simp [hl]
      rw [hfilter, entries, entries, ih, ih, ih]

theorem sizes_stanzas (ls : List Text) : sizes (stanzas ls).flatten = sizes ls := by
  rw [flatten_stanzas, sizes, sizes, List.filter_filter]
  congr 1
  refine List.filter_congr fun l _ => ?_
  by_cases hl : blank l
  · simp [hl, @not_hasKey_of_blank installedKey l 'I' rfl (by decide) hl]
  · simp [hl]

/-- A stanza has one line of a kind at most. -/
def Unique (st : List Text) : Prop :=
  ∀ key ∈ [packageKey, installedKey, versionKey], (st.filter (hasKey key)).length ≤ 1

theorem no_key_of_unique {key l : Text} {st : List Text}
    (h : ((l :: st).filter (hasKey key)).length ≤ 1) (hl : hasKey key l) :
    ∀ k ∈ st, ¬ hasKey key k := by
  rw [List.filter_cons_of_pos hl, List.length_cons] at h
  have hnil := List.length_eq_zero_iff.mp (by omega : (st.filter (hasKey key)).length = 0)
  simpa using List.filter_eq_nil_iff.mp hnil

/-- A stanza adds one element, if it has a `Version` line. -/
theorem entries_of_unique {st : List Text} (h : (st.filter (hasKey versionKey)).length ≤ 1)
    (name : Text) (size : ℤ) : entries name size st =
      ((value versionKey st).map fun v => (⟨'/' :: lastName name (above st) ++ comma ++ v,
        lastSize size (above st)⟩ : DirHelp)).toList := by
  induction st generalizing name size with
  | nil => rfl
  | cons l st ih =>
    by_cases hv : hasKey versionKey l
    · have hp : hasKey packageKey l = false :=
        not_hasKey_of_hasKey (by decide) (by decide) (by decide) hv
      have hi : hasKey installedKey l = false :=
        not_hasKey_of_hasKey (by decide) (by decide) (by decide) hv
      have hrest := entries_of_no_version (no_key_of_unique h hv) name size
      have habove : above (l :: st) = [] := by simp [above, hv]
      have hvalue : value versionKey (l :: st) = some (l.drop 9) := by
        rw [value, List.find?_cons_of_pos hv]
        rfl
      rw [habove, hvalue, entries, hrest, hp, hi, hv]
      rfl
    · have hst : (st.filter (hasKey versionKey)).length ≤ 1 := by
        rwa [List.filter_cons_of_neg hv] at h
      have habove : above (l :: st) = l :: above st := by simp [above, hv]
      have hvalue : value versionKey (l :: st) = value versionKey st := by
        rw [value, List.find?_cons_of_neg hv, value]
      rw [habove, hvalue, entries, ih hst, ih hst, ih hst, lastName, lastSize]
      by_cases hp : hasKey packageKey l
      · have hi : hasKey installedKey l = false :=
          not_hasKey_of_hasKey (by decide) (by decide) (by decide) hp
        simp [hp, hi]
      · by_cases hi : hasKey installedKey l
        · simp [hp, hi]
        · simp [hp, hi, hv]

theorem sizes_of_unique {st : List Text} (h : (st.filter (hasKey installedKey)).length ≤ 1) :
    (sizes st).sum = sizeOf st := by
  induction st with
  | nil => rfl
  | cons l st ih =>
    by_cases hi : hasKey installedKey l
    · have hrest : sizes st = [] := by
        rw [sizes, List.filter_eq_nil_iff.mpr (no_key_of_unique h hi), List.map_nil]
      have hvalue : value installedKey (l :: st) = some (l.drop 16) := by
        rw [value, List.find?_cons_of_pos hi]
        rfl
      have hsizes : sizes (l :: st) = number (l.drop 16) :: sizes st := by simp [sizes, hi]
      rw [hsizes, hrest, sizeOf, hvalue]
      simp
    · have hvalue : value installedKey (l :: st) = value installedKey st := by
        rw [value, List.find?_cons_of_neg hi, value]
      have hsizes : sizes (l :: st) = sizes st := by simp [sizes, hi]
      rw [List.filter_cons_of_neg hi] at h
      rw [hsizes, ih h, sizeOf, sizeOf, hvalue]

section Wanted

variable {sts : List (List Text)} {st : List Text}

theorem length_wanted_le (h : (st.filter (hasKey versionKey)).length ≤ 1) (name : Text)
    (size : ℤ) : (wantedEntry st).toList.length ≤ (entries name size st).length := by
  rw [entries_of_unique h, wantedEntry]
  cases value packageKey st <;> cases value versionKey st <;> simp

/-- The element that a stanza adds is the one that is wanted exactly if the lines above its `Version`
line are its own. -/
theorem entries_eq_wanted_iff (h : (st.filter (hasKey versionKey)).length ≤ 1) (name : Text)
    (size : ℤ) : entries name size st = (wantedEntry st).toList ↔ Owned name size st := by
  rw [entries_of_unique h, wantedEntry, Owned]
  cases hv : value versionKey st with
  | none => cases value packageKey st <;> simp
  | some v =>
    cases hp : value packageKey st with
    | none => simp
    | some p =>
      simp [eq_comm]

theorem filterMap_wantedEntry_cons (st : List Text) (sts : List (List Text)) :
    (st :: sts).filterMap wantedEntry = (wantedEntry st).toList ++ sts.filterMap wantedEntry := by
  cases hw : wantedEntry st <;> simp [hw]

theorem length_filterMap_wanted_le (h : ∀ st ∈ sts, Unique st) (name : Text) (size : ℤ) :
    (sts.filterMap wantedEntry).length ≤ (entries name size sts.flatten).length := by
  induction sts generalizing name size with
  | nil => simp
  | cons st sts ih =>
    have hhead := length_wanted_le (h st List.mem_cons_self versionKey (by simp)) name size
    have htail := ih (fun x hx => h x (List.mem_cons_of_mem _ hx)) (lastName name st)
      (lastSize size st)
    have hsplit := filterMap_wantedEntry_cons st sts
    rw [List.flatten_cons, entries_append, hsplit, List.length_append, List.length_append]
    omega

/-- So it is for all stanzas of a file. -/
theorem entries_flatten_eq_iff (h : ∀ st ∈ sts, Unique st) (name : Text) (size : ℤ) :
    entries name size sts.flatten = sts.filterMap wantedEntry ↔
      ∀ pre st post, sts = pre ++ st :: post →
        Owned (lastName name pre.flatten) (lastSize size pre.flatten) st := by
  induction sts generalizing name size with
  | nil => simp [entries]
  | cons st sts ih =>
    have hst := h st List.mem_cons_self versionKey (by simp)
    have hsts : ∀ x ∈ sts, Unique x := fun x hx => h x (List.mem_cons_of_mem _ hx)
    have hsplit := filterMap_wantedEntry_cons st sts
    have hcons := @forall_split_cons _ st sts fun pre x =>
      Owned (lastName name pre.flatten) (lastSize size pre.flatten) x
    refine Iff.trans ?_ hcons.symm
    simp only [List.flatten_cons, lastName_append, lastSize_append]
    rw [← ih hsts, entries_append, hsplit]
    have hhead : Owned (lastName name [].flatten) (lastSize size [].flatten) st ↔
        entries name size st = (wantedEntry st).toList := (entries_eq_wanted_iff hst name size).symm
    rw [hhead]
    constructor
    · intro heq
      have hle := length_wanted_le hst name size
      have hle' := length_filterMap_wanted_le hsts (lastName name st) (lastSize size st)
      have hlen := congrArg List.length heq
      rw [List.length_append, List.length_append] at hlen
      exact List.append_inj heq (by omega)
    · rintro ⟨hfirst, hrest⟩
      rw [hfirst, hrest]

/-- The sum of the wanted sizes is the sum of all if stanzas without `Version` line have none. -/
theorem sum_sizes_eq (h : ∀ st ∈ sts, Unique st)
    (howned : ∀ st ∈ sts, value versionKey st = none ∨ (value packageKey st).isSome) :
    (sizes sts.flatten).sum = total (sts.filterMap wantedEntry) +
      ((sts.filter fun st => (value versionKey st).isNone).map sizeOf).sum := by
  induction sts with
  | nil => rfl
  | cons st sts ih =>
    have hrest := ih (fun x hx => h x (List.mem_cons_of_mem _ hx))
      fun x hx => howned x (List.mem_cons_of_mem _ hx)
    have hst := sizes_of_unique (h st List.mem_cons_self installedKey (by simp))
    have hsizes : (sizes (st :: sts).flatten).sum = sizeOf st + (sizes sts.flatten).sum := by
      rw [List.flatten_cons, sizes, List.filter_append, List.map_append, List.sum_append, ← hst]
      rfl
    rw [hsizes, hrest]
    rcases howned st List.mem_cons_self with hv | hp
    · have hw : wantedEntry st = none := by
        rw [wantedEntry, hv]
        cases value packageKey st <;> rfl
      rw [List.filterMap_cons_none hw, List.filter_cons_of_pos (by simp [hv]), List.map_cons,
        List.sum_cons]
      omega
    · cases hv : value versionKey st with
      | none =>
        have hw : wantedEntry st = none := by
          rw [wantedEntry, hv]
          cases value packageKey st <;> rfl
        rw [List.filterMap_cons_none hw, List.filter_cons_of_pos (by simp [hv]), List.map_cons,
          List.sum_cons]
        omega
      | some v =>
        obtain ⟨p, hp⟩ := Option.isSome_iff_exists.mp hp
        have hw : wantedEntry st = some ⟨'/' :: p ++ comma ++ v, sizeOf st⟩ := by
          rw [wantedEntry, hp, hv]
          rfl
        rw [List.filterMap_cons_some hw, List.filter_cons_of_neg (by simp [hv]), total_cons]
        exact (Int.add_assoc _ _ _).symm

end Wanted

/-! ## The last line -/

/-- A last line without a newline does no harm when it is neither a `Version` line nor a `Package`
line without a name. -/
def LastFits (q : Text) : Prop :=
  ¬ hasKey versionKey q ∧ ¬ (hasKey packageKey q ∧ q.length = 9)

instance (q : Text) : Decidable (LastFits q) := inferInstanceAs (Decidable (_ ∧ _))

section Last

variable {s : StatusState} {q : Text}

/-- The list and the sum are then what they are with a newline. -/
theorem readStatusLine_last (hq : LastFits q) :
    (readStatusLine s q).map (fun s => (s.dir, s.cumul)) =
      (readStatusLine s (q ++ ['\n'])).map fun s => (s.dir, s.cumul) := by
  by_cases hp : hasKey packageKey q
  · have hlen : 9 ≤ q.length := length_le_of_hasKey hp
    have hne : q.drop 9 ≠ [] := by
      rw [Ne, List.drop_eq_nil_iff]
      intro hle
      exact hq.2 ⟨hp, by omega⟩
    rw [readStatusLine_package hp, readStatusLine, if_pos hp, if_neg hne]
    rfl
  by_cases hi : hasKey installedKey q
  · rw [readStatusLine_installed hp hi, readStatusLine, if_neg hp, if_pos hi, atol]
    cases long (number (q.drop 16)) with
    | none => rfl
    | some n =>
      simp only [Option.bind_eq_bind, Option.bind_some]
      cases long (s.cumul + n) <;> rfl
  · rw [readStatusLine_other hp hi hq.1, readStatusLine, if_neg hp, if_neg hi, if_neg hq.1]

/-- The element that a `Version` line without its newline adds. -/
theorem readStatusLine_cut {s' : StatusState} (hv : hasKey versionKey q)
    (h : readStatusLine s q = some s') : s'.dir =
      s.dir ++ [Cell.elem ⟨('/' :: s.name ++ comma ++ q.drop 9).dropLast, s.indiv⟩] := by
  have hp : hasKey packageKey q = false :=
    not_hasKey_of_hasKey (by decide) (by decide) (by decide) hv
  have hi : hasKey installedKey q = false :=
    not_hasKey_of_hasKey (by decide) (by decide) (by decide) hv
  rw [readStatusLine, hp, hi, if_neg Bool.false_ne_true, if_neg Bool.false_ne_true, if_pos hv] at h
  simp only at h
  split at h
  case isTrue => rw [← Option.some.inj h]
  case isFalse => exact absurd h (by simp)

/-- A name or version that is cut is not the one that is wanted. -/
theorem cut_ne (name p v : Text) :
    ('/' :: name ++ comma ++ v).dropLast ≠ '/' :: p ++ comma ++ v := by
  intro h
  have hspec : ∀ t : Text, '/' :: t ++ comma ++ v = ('/' :: t ++ [',']) ++ ' ' :: v := by
    intro t
    simp [comma]
  have hlen := congrArg List.length h
  rw [hspec, hspec] at h hlen
  simp only [List.length_dropLast, List.length_append, List.length_cons, List.length_nil] at hlen
  -- the character after the comma on the right is the comma on the left
  have hat := congrArg (fun t => t[p.length + 2]?) h
  have hright : (('/' :: p ++ [',']) ++ ' ' :: v)[p.length + 2]? = some ' ' := by
    rw [List.getElem?_append_right (by simp)]
    simp
  have hleft : (('/' :: name ++ [',']) ++ ' ' :: v).dropLast[p.length + 2]? = some ',' := by
    have hname : p.length + 2 = ('/' :: name).length := by
      rw [List.length_cons]
      omega
    rw [List.getElem?_dropLast, if_pos (by simp; omega), hname, List.getElem?_append_left (by simp),
      List.getElem?_append_right (Nat.le_refl _)]
    simp
  simp only [hleft, hright] at hat
  exact absurd (Option.some.inj hat) (by decide)

end Last

/-! ## The whole file -/

/-- The elements that are wanted for a file. -/
def wantedAll (ls : List Text) : List DirHelp := (stanzas ls).filterMap wantedEntry

/-- When each package of a file has its own size and the sum is theirs: the head of the list is
zero, the last line is complete or harmless, numbers, sums and texts fit, and what the lines above
a `Version` line give is the stanza's own. Stanzas without a `Version` line have no size. -/
structure Attributed (head : Head) (t : Text) : Prop where
  head : head.next = 0 ∧ head.dir = 0
  last : LastFits (lastPiece t)
  numbers : SumsFit 0 (sizes (fileLines t))
  specs : ∀ d ∈ wantedAll (fileLines t), d.dir.length + 2 ≤ 2048
  owned : ∀ pre st post, stanzas (fileLines t) = pre ++ st :: post →
    Owned (lastName [] pre.flatten) (lastSize 0 pre.flatten) st
  unlisted : (((stanzas (fileLines t)).filter fun st => (value versionKey st).isNone).map
    sizeOf).sum = 0

/-- The list and the sum after the loop over some reads. -/
def listAndSum (cells : List Cell) (reads : List Text) : Option (List Cell × ℤ) :=
  (reads.foldlM readStatusLine ⟨cells, [], 0, 0⟩).map fun s => (s.dir, s.cumul)

theorem elem_injective : Function.Injective Cell.elem := fun _ _ h => Cell.elem.inj h

/-- Complete lines. -/
theorem listAndSum_lines_iff {ls : List Text} (h : ∀ st ∈ stanzas ls, Unique st) :
    listAndSum [] (ls.map (· ++ ['\n'])) = some ((wantedAll ls).map Cell.elem, total (wantedAll ls)) ↔
      SumsFit 0 (sizes ls) ∧ (∀ d ∈ wantedAll ls, d.dir.length + 2 ≤ 2048) ∧
      (∀ pre st post, stanzas ls = pre ++ st :: post →
        Owned (lastName [] pre.flatten) (lastSize 0 pre.flatten) st) ∧
      (((stanzas ls).filter fun st => (value versionKey st).isNone).map sizeOf).sum = 0 := by
  have hentries := entries_flatten_eq_iff h [] 0
  rw [entries_stanzas] at hentries
  have hsum := sum_sizes_eq h
  rw [sizes_stanzas] at hsum
  have hhas : (∀ pre st post, stanzas ls = pre ++ st :: post →
      Owned (lastName [] pre.flatten) (lastSize 0 pre.flatten) st) →
      ∀ st ∈ stanzas ls, value versionKey st = none ∨ (value packageKey st).isSome := by
    intro howned st hst
    obtain ⟨pre, post, hsplit⟩ := List.append_of_mem hst
    exact (howned pre st post hsplit).imp_right fun hp => by rw [hp.1]; rfl
  rw [listAndSum, Option.map_eq_some_iff]
  constructor
  · rintro ⟨s, hs, heq⟩
    obtain ⟨hfit, hspecs, rfl⟩ := foldlM_readStatusLine_iff.mp hs
    obtain ⟨hdir, hcumul⟩ := Prod.mk.inj heq
    have hdir' : entries [] 0 ls = wantedAll ls := List.map_injective_iff.mpr elem_injective hdir
    have howned := hentries.mp hdir'
    simp only [Int.zero_add] at hcumul
    rw [hsum (hhas howned)] at hcumul
    rw [hdir'] at hspecs
    refine ⟨hfit, hspecs, howned, ?_⟩
    rw [wantedAll] at hcumul
    omega
  · rintro ⟨hfit, hspecs, howned, hzero⟩
    have hdir' : entries [] 0 ls = wantedAll ls := hentries.mpr howned
    rw [← hdir'] at hspecs
    refine ⟨_, foldlM_readStatusLine_iff.mpr ⟨hfit, hspecs, rfl⟩, ?_⟩
    have hcumul := hsum (hhas howned)
    rw [hzero, Int.add_zero] at hcumul
    simp only [List.nil_append, Int.zero_add, hdir', hcumul]
    rfl

/-- A harmless last line may lack its newline. -/
theorem listAndSum_last {q : Text} (hq : LastFits q) (ls : List Text) :
    listAndSum [] (ls.map (· ++ ['\n']) ++ [q]) = listAndSum [] ((ls ++ [q]).map (· ++ ['\n'])) := by
  rw [listAndSum, listAndSum, List.map_append, List.foldlM_append, List.foldlM_append]
  cases (ls.map (· ++ ['\n'])).foldlM readStatusLine ⟨[], [], 0, 0⟩ with
  | none => rfl
  | some s =>
    have hlast := @readStatusLine_last s q hq
    simpa using hlast

/-- A `Version` line without its newline is not listed as it should be. -/
theorem entries_cut_ne {q : Text} (hv : hasKey versionKey q) {ls : List Text}
    (h : ∀ st ∈ stanzas (ls ++ [q]), Unique st) (name : Text) (size : ℤ) :
    entries [] 0 ls ++ [⟨('/' :: name ++ comma ++ q.drop 9).dropLast, size⟩] ≠
      wantedAll (ls ++ [q]) := by
  intro heq
  have hblank : ¬ blank q := by
    intro hb
    rw [@not_hasKey_of_blank versionKey q 'V' rfl (by decide) hb] at hv
    exact Bool.noConfusion hv
  obtain ⟨pre, st, hst⟩ := (List.eq_nil_or_concat' (stanzas ls)).resolve_left (stanzas_ne_nil ls)
  have hlast := stanzas_concat hblank hst
  have hunique : Unique (st ++ [q]) := h _ (by rw [hlast]; simp)
  have hpre : ∀ x ∈ pre, Unique x := fun x hx => h x (by rw [hlast]; simp [hx])
  have hvalue : value versionKey (st ++ [q]) = some (q.drop 9) := by
    have hone := hunique versionKey (by simp)
    rw [List.filter_append, List.filter_cons_of_pos hv, List.length_append] at hone
    simp only [List.filter_nil, List.length_singleton] at hone
    have hnone : st.find? (hasKey versionKey) = none := by
      rw [List.find?_eq_none, ← List.filter_eq_nil_iff, ← List.length_eq_zero_iff]
      omega
    rw [value, List.find?_append, hnone, Option.none_or, List.find?_cons_of_pos hv]
    rfl
  have hle : (pre.filterMap wantedEntry).length ≤ (entries [] 0 ls).length := by
    have hle := length_filterMap_wanted_le hpre [] 0
    rw [← entries_stanzas [] 0 ls, hst, List.flatten_append, entries_append, List.length_append]
    omega
  rw [wantedAll, hlast, List.filterMap_append] at heq
  cases hp : value packageKey (st ++ [q]) with
  | none =>
    have hw : wantedEntry (st ++ [q]) = none := by rw [wantedEntry, hp, Option.bind_none]
    have hlen := congrArg List.length heq
    simp only [hw, List.filterMap_cons_none, List.filterMap_nil, List.append_nil,
      List.length_append, List.length_singleton] at hlen
    omega
  | some p =>
    have hw : wantedEntry (st ++ [q]) = some ⟨'/' :: p ++ comma ++ q.drop 9, sizeOf (st ++ [q])⟩ := by
      rw [wantedEntry, hp, hvalue]
      rfl
    rw [List.filterMap_cons_some hw, List.filterMap_nil] at heq
    have hdir := congrArg DirHelp.dir (List.append_singleton_inj.mp heq).2
    exact cut_ne name p (q.drop 9) hdir

/-- A last line that does harm. -/
theorem listAndSum_ne {q : Text} (hq : ¬ LastFits q) {ls : List Text}
    (h : ∀ st ∈ stanzas (ls ++ [q]), Unique st) (sum : ℤ) :
    listAndSum [] (ls.map (· ++ ['\n']) ++ [q]) ≠
      some ((wantedAll (ls ++ [q])).map Cell.elem, sum) := by
  intro hlist
  rw [listAndSum, List.foldlM_append, Option.map_eq_some_iff] at hlist
  obtain ⟨s', hs', heq⟩ := hlist
  obtain ⟨s, hs, hstep⟩ := Option.bind_eq_some_iff.mp hs'
  obtain ⟨-, -, hstate⟩ := foldlM_readStatusLine_iff.mp hs
  rw [List.foldlM_cons, Option.bind_eq_bind, Option.bind_eq_some_iff] at hstep
  obtain ⟨s'', hread, hend⟩ := hstep
  obtain rfl : s'' = s' := Option.some.inj hend
  by_cases hv : hasKey versionKey q
  · have hdir := (readStatusLine_cut hv hread).symm.trans (Prod.mk.inj heq).1
    have hsdir : s.dir = (entries [] 0 ls).map Cell.elem := by rw [hstate, List.nil_append]
    rw [hsdir, ← List.map_singleton (f := Cell.elem), ← List.map_append] at hdir
    exact entries_cut_ne hv h _ _ (List.map_injective_iff.mpr elem_injective hdir)
  · have hbare : hasKey packageKey q ∧ q.length = 9 := by
      by_contra hnot
      exact hq ⟨hv, hnot⟩
    have hdrop : q.drop 9 = [] := List.drop_eq_nil_of_le (by omega)
    rw [readStatusLine, if_pos hbare.1, if_pos hdrop] at hread
    exact absurd hread (by simp)

/-- What is in the list stays there. -/
theorem dir_prefix_of_foldlM {reads : List Text} {s s' : StatusState}
    (h : reads.foldlM readStatusLine s = some s') : s.dir <+: s'.dir := by
  induction reads generalizing s with
  | nil =>
    obtain rfl : s = s' := Option.some.inj h
    exact List.prefix_rfl
  | cons tmp reads ih =>
    rw [List.foldlM_cons, Option.bind_eq_bind, Option.bind_eq_some_iff] at h
    obtain ⟨s₁, hread, hrest⟩ := h
    refine List.IsPrefix.trans ?_ (ih hrest)
    by_cases hv : hasKey versionKey tmp
    · rw [readStatusLine_cut hv hread]
      exact List.prefix_append _ _
    · suffices hdir : s₁.dir = s.dir from hdir ▸ List.prefix_rfl
      rw [readStatusLine] at hread
      split_ifs at hread
      · rw [← Option.some.inj hread]
      · simp only [Option.bind_eq_bind, Option.bind_eq_some_iff] at hread
        obtain ⟨_, -, _, -, hs⟩ := hread
        rw [← Option.some.inj hs]
      · rw [← Option.some.inj hread]

theorem debianPackages_eq_some_iff {head : Head} {t : Text} {ds : List DirHelp} :
    debianPackages head t = some ((withRoot ds).map Cell.elem) ↔
      ∃ cells, head.cells = some cells ∧
        listAndSum cells (fgetsAll 2048 t) = some (ds.map Cell.elem, total ds) := by
  simp only [debianPackages, listAndSum, Option.bind_eq_bind, Option.bind_eq_some_iff,
    Option.map_eq_some_iff, withRoot, List.map_append, List.map_singleton]
  refine exists_congr fun cells => and_congr_right fun _ => exists_congr fun s =>
    and_congr_right fun _ => ?_
  rw [Option.some.injEq, List.append_singleton_inj, Prod.mk.injEq]
  exact and_congr_right fun _ => ⟨fun h => (DirHelp.mk.inj (Cell.elem.inj h)).2, fun h => by rw [h]⟩

/-- A head that is not zero spoils the list. -/
theorem head_cells_iff {head : Head} {reads : List Text} {ds : List DirHelp} {sum : ℤ} :
    (∃ cells, head.cells = some cells ∧
      listAndSum cells reads = some (ds.map Cell.elem, sum)) ↔
      (head.next = 0 ∧ head.dir = 0) ∧ listAndSum [] reads = some (ds.map Cell.elem, sum) := by
  rw [Head.cells]
  by_cases hnext : head.next = 0
  · by_cases hdir : head.dir = 0
    · simp [hnext, hdir]
    · simp only [hnext, hdir, ne_eq, not_true_eq_false, if_false, not_false_eq_true, if_true,
        Option.some.injEq, exists_eq_left', and_false, false_and, iff_false]
      intro hlist
      rw [listAndSum, Option.map_eq_some_iff] at hlist
      obtain ⟨s, hs, heq⟩ := hlist
      obtain ⟨rest, hrest⟩ := dir_prefix_of_foldlM hs
      rw [(Prod.mk.inj heq).1] at hrest
      have hmem : Cell.wild head.dir ∈ ds.map Cell.elem := by rw [← hrest]; simp
      simp at hmem
  · simp [hnext]

/-- The list has each package with its own size and their sum exactly under `Attributed`. -/
theorem debianPackages_eq_iff {t : Text} (h : StatusFile t) (head : Head) :
    debianPackages head t = some ((withRoot (wantedAll (fileLines t))).map Cell.elem) ↔
      Attributed head t := by
  have hunique : ∀ st ∈ stanzas (fileLines t), Unique st := h.unique
  have hlines := listAndSum_lines_iff hunique
  rw [debianPackages_eq_some_iff, head_cells_iff, fgetsAll_eq h.short]
  by_cases hlast : lastPiece t = []
  · have hfile : fileLines t = readLines t := fileLines_of_terminated hlast
    have hq : LastFits (lastPiece t) := by rw [hlast]; decide
    rw [if_pos hlast, List.append_nil]
    rw [hfile] at hlines
    constructor
    · rintro ⟨hhead, hlist⟩
      obtain ⟨hn, hs, ho, hu⟩ := hlines.mp (hfile ▸ hlist)
      exact ⟨hhead, hq, hfile ▸ hn, hfile ▸ hs, hfile ▸ ho, hfile ▸ hu⟩
    · rintro ⟨hhead, -, hn, hs, ho, hu⟩
      rw [hfile] at hn hs ho hu ⊢
      exact ⟨hhead, hlines.mpr ⟨hn, hs, ho, hu⟩⟩
  · have hfile : fileLines t = readLines t ++ [lastPiece t] := fileLines_of_not_terminated hlast
    rw [if_neg hlast]
    by_cases hq : LastFits (lastPiece t)
    · rw [listAndSum_last hq, ← hfile, hlines]
      exact ⟨fun ⟨hhead, hn, hs, ho, hu⟩ => ⟨hhead, hq, hn, hs, ho, hu⟩,
        fun ⟨hhead, _, hn, hs, ho, hu⟩ => ⟨hhead, hn, hs, ho, hu⟩⟩
    · refine iff_of_false (fun hlist => ?_) fun hatt => hq hatt.last
      rw [hfile] at hlist hunique
      exact listAndSum_ne hq hunique _ hlist.2

/-- The name and the size of the first package are there until the lines of the second one. -/
def twoStanzas : Text :=
  "Package: a\nInstalled-Size: 12\nVersion: 1\n\nPackage: b\nInstalled-Size: 7\nVersion: 2\n".toList

theorem statusFile_twoStanzas : StatusFile twoStanzas where
  unique := by decide
  short := by decide
  noZero := by decide

theorem debianPackages_twoStanzas : debianPackages ⟨0, 0⟩ twoStanzas =
    some ((withRoot (wantedAll (fileLines twoStanzas))).map Cell.elem) :=
  (debianPackages_eq_iff statusFile_twoStanzas ⟨0, 0⟩).mpr
    { head := by decide
      last := by decide
      numbers := by
        have hsizes : sizes (fileLines twoStanzas) = [12, 7] := by decide +kernel
        rw [hsizes]
        exact sumsFit_cons.mpr ⟨by decide, sumsFit_cons.mpr ⟨by decide, sumsFit_nil⟩⟩
      specs := by decide
      owned := (entries_flatten_eq_iff statusFile_twoStanzas.unique [] 0).mp (by decide)
      unlisted := by decide }

/-- A size that stands below the `Version` line goes to the next package. -/
theorem not_debianPackages : ¬ ∀ (head : Head) (t : Text), StatusFile t →
    debianPackages head t = some ((withRoot (wantedAll (fileLines t))).map Cell.elem) := by
  intro hall
  have hfile : StatusFile "Package: a\nVersion: 1\nInstalled-Size: 12\n".toList :=
    { unique := by decide
      short := by decide
      noZero := by decide }
  exact absurd (hall ⟨0, 0⟩ _ hfile) (by decide)

end Backpack.Dufie
