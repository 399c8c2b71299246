import Backpack.Dufie.Portage

/-!
# The view of Portage

Each of the three loops fails exactly where its names do not fit or its sums become too large. Else
the list has the elements of the view, with the sizes that the cut paths give, and elements for `.`
and `..` if a package or a category is called like the file.
-/

namespace Backpack.Dufie

open Shell Libc

/-! ## The lines of a package -/

section Lines

variable {stat : FileSizes}

theorem cutPath_append (p q : Text) : cutPath (p ++ ' ' :: q) = cutPath p := by
  rw [cutPath, cutPath, List.takeWhile_append]
  split
  case isTrue hall =>
    have hall' := (List.takeWhile_prefix _).eq_of_length hall
    rw [hall']
    simp
  case isFalse => rfl

/-- A line adds the kilobytes of the file at the cut path. -/
theorem readInstalled_line {s : ObjState} (h0 : 0 ≤ s.indiv) (hlong : s.indiv < 2 ^ 63)
    {l : Installed} (hzero : '\x00' ∉ l.line) {c : Text} (hc : c = l.line ++ ['\n'] ∨ c = l.line) :
    ∃ tmp, readInstalled stat s c =
      (long (s.indiv + l.size stat cutPath)).map fun n => ⟨n, tmp⟩ := by
  have hczero : '\x00' ∉ c := by
    rcases hc with rfl | rfl
    · simpa using hzero
    · exact hzero
  have hself : long s.indiv = some s.indiv := by rw [long_of_nonneg h0, if_pos hlong]
  have hstring : string (store c s.tmp) = c := by rw [string_store, string_eq_self hczero]
  have hother : hasKey objKey c = false → l.size stat cutPath = 0 → ∃ tmp,
      readInstalled stat s c = (long (s.indiv + l.size stat cutPath)).map fun n => ⟨n, tmp⟩ := by
    intro hkey hsize
    refine ⟨'\x00' :: (store c s.tmp).drop 1, ?_⟩
    rw [hsize, Nat.cast_zero, add_zero, hself]
    simp only [readInstalled, hstring, hkey]
    rfl
  cases l with
  | dir path => exact hother (by rcases hc with rfl | rfl <;> rfl) rfl
  | sym rest => exact hother (by rcases hc with rfl | rfl <;> rfl) rfl
  | obj path md5 mtime =>
    obtain ⟨rest, hrest⟩ : ∃ rest, c = "obj ".toList ++ (path ++ ' ' :: rest) := by
      rcases hc with rfl | rfl
      · exact ⟨md5 ++ ' ' :: mtime ++ ['\n'], by simp [Installed.line]⟩
      · exact ⟨md5 ++ ' ' :: mtime, rfl⟩
    have hkey : hasKey objKey c = true := by
      rw [hrest]
      rfl
    have hdrop : string ((store c s.tmp).drop 4) = path ++ ' ' :: rest := by
      have hlen : 4 ≤ c.length := by
        rw [hrest, List.length_append, show "obj ".toList.length = 4 from rfl]
        omega
      rw [string_drop_store hlen, string_eq_self fun hmem => hczero (List.mem_of_mem_drop hmem),
        hrest]
      rfl
    have hcut : (path ++ ' ' :: rest).takeWhile (· ≠ ' ') = cutPath path := cutPath_append path rest
    have hspace : ' ' ∈ path ++ ' ' :: rest := by simp
    simp only [readInstalled, hstring, hkey, hdrop, hspace, hcut, and_self, if_true]
    cases hstat : stat (cutPath path) with
    | none =>
      refine ⟨(store c s.tmp).set (4 + (cutPath path).length) '\x00', ?_⟩
      rw [Installed.size, hstat]
      simp [hself]
    | some size =>
      refine ⟨'\x00' :: ((store c s.tmp).set (4 + (cutPath path).length) '\x00').drop 1, ?_⟩
      rw [Installed.size, hstat]
      simp only [Option.bind_eq_bind, Option.getD_some]
      cases long (s.indiv + (size / 1024 : ℕ)) <;> rfl

theorem foldlM_readInstalled {s : ObjState} (h0 : 0 ≤ s.indiv) (hlong : s.indiv < 2 ^ 63)
    {cs : List Text} {ls : List Installed} (hzero : ∀ l ∈ ls, '\x00' ∉ l.line)
    (hcs : List.Forall₂ (fun c l => c = l.line ++ ['\n'] ∨ c = l.line) cs ls) :
    ∃ tmp, cs.foldlM (readInstalled stat) s =
      (long (s.indiv + (ls.map (Installed.size stat cutPath)).sum)).map fun n => ⟨n, tmp⟩ := by
  induction hcs generalizing s with
  | nil =>
    refine ⟨s.tmp, ?_⟩
    rw [List.map_nil, List.sum_nil, Nat.cast_zero, add_zero, long_of_nonneg h0, if_pos hlong]
    rfl
  | @cons c l cs ls hc hcs ih =>
    obtain ⟨tmp, hstep⟩ := readInstalled_line h0 hlong (hzero l List.mem_cons_self) hc
    have hsum : s.indiv + ((l :: ls).map (Installed.size stat cutPath)).sum =
        s.indiv + l.size stat cutPath + (ls.map (Installed.size stat cutPath)).sum := by
      rw [List.map_cons, List.sum_cons]
      push_cast
      ring
    rw [List.foldlM_cons, Option.bind_eq_bind, hstep, hsum, long_of_nonneg (by omega)]
    by_cases hfit : s.indiv + l.size stat cutPath < 2 ^ 63
    · rw [if_pos hfit]
      exact ih (by dsimp only; omega) hfit fun l hl => hzero l (List.mem_cons_of_mem _ hl)
    · refine ⟨tmp, ?_⟩
      rw [if_neg hfit, long_of_nonneg (by omega), if_neg (by omega)]
      rfl

/-- The size of a package is that of the files at the cut paths. -/
theorem foldlM_contents (c : Contents) (tmp : Text) :
    ∃ tmp', (fgetsAll 2048 c.text).foldlM (readInstalled stat) ⟨0, tmp⟩ =
      (long (c.size stat cutPath)).map fun n => ⟨n, tmp'⟩ := by
  have hreads := fgetsAll_forall₂ c.short
  rw [c.text_lines, List.forall₂_map_right_iff] at hreads
  obtain ⟨tmp', hfold⟩ := @foldlM_readInstalled stat ⟨0, tmp⟩ (Int.le_refl 0)
    (show (0 : ℤ) < 2 ^ 63 by decide) _ _
    c.noZero hreads
  rw [Int.zero_add] at hfold
  exact ⟨tmp', hfold⟩

end Lines

/-! ## The entries of a category -/

/-- The strings for an entry fit exactly if the two names do. -/
theorem entryWrites_fit_iff {filename type pkg : Text} {opened : Bool} :
    (∀ w ∈ entryWrites filename type pkg opened, w.Fits) ↔ type.length + pkg.length ≤ 245 := by
  have hprocessing : processing.length = 11 := rfl
  have hdots : dots.length = 3 := rfl
  have hcontents : contentsFile.length = 8 := rfl
  have hfile := @assemble_fit_iff (nameSize filename)
    [filename, ['/'], type, ['/'], pkg, '/' :: contentsFile] (by simp) []
  have hrow := @assemble_fit_iff (nameSize filename) [['/'], type, ['/'], pkg] (by simp) []
  simp only [nameSize, List.flatten_cons, List.flatten_nil, List.length_append, List.length_cons,
    List.length_nil, hcontents] at hfile hrow
  simp only [entryWrites, List.forall_mem_append, fits_if_iff]
  constructor
  · rintro ⟨⟨-, hfile'⟩, -⟩
    have hle := hfile.mp hfile'
    omega
  · intro hle
    refine ⟨⟨fun hshort => ?_, hfile.mpr (by omega)⟩, fun _ => hrow.mpr (by omega)⟩
    -- the test for the status bar leaves room for what is around the name
    refine List.forall_mem_singleton.mpr ?_
    simp only [BufferWrite.Fits, nameSize, List.length_append, hprocessing, hdots]
    omega

section Loops

variable {stat : FileSizes} {filename : Text} {db : Database}

/-- What is added for an entry of a category. -/
def openedLine (db : Database) (type : Text) (cat : Category) (e : DirEntry Package) :
    List ViewLine :=
  if (openContents db cat e).isSome then [('/' :: type ++ '/' :: e.dName, e.contents)] else []

/-- An entry without the file has no size. -/
theorem contents_of_not_open {cat : Category} {e : DirEntry Package}
    (h : openContents db cat e = none) : e.contents = [] := by
  cases e with
  | self => rfl
  | parent => rfl
  | sub name pkg =>
    cases pkg with
    | none => rfl
    | some c => exact absurd h (by simp [openContents])

/-- What is read from a file gives the size of the packages that the entry stands for. -/
theorem foldlM_open {cat : Category} {e : DirEntry Package} {text : Text}
    (h : openContents db cat e = some text) (tmp : Text) :
    ∃ tmp', (fgetsAll 2048 text).foldlM (readInstalled stat) ⟨0, tmp⟩ =
      (long (sizeOfAll stat cutPath e.contents)).map fun n => ⟨n, tmp'⟩ := by
  have hdir : text = [] → e.contents = [] → ∃ tmp',
      (fgetsAll 2048 text).foldlM (readInstalled stat) ⟨0, tmp⟩ =
        (long (sizeOfAll stat cutPath e.contents)).map fun n => ⟨n, tmp'⟩ := by
    rintro rfl hcontents
    refine ⟨tmp, ?_⟩
    rw [hcontents, show fgetsAll 2048 [] = [] from rfl]
    simp [sizeOfAll, long_of_nonneg]
  cases e with
  | self =>
    simp only [openContents, Option.ite_none_right_eq_some] at h
    exact hdir (Option.some.inj h.2).symm rfl
  | parent =>
    simp only [openContents, Option.ite_none_right_eq_some] at h
    exact hdir (Option.some.inj h.2).symm rfl
  | sub name pkg =>
    cases pkg with
    | none => exact absurd h (by simp [openContents])
    | some c =>
      obtain rfl : c.text = text := Option.some.inj h
      obtain ⟨tmp', hfold⟩ := @foldlM_contents stat c tmp
      refine ⟨tmp', ?_⟩
      rw [hfold]
      simp [sizeOfAll, DirEntry.contents]

theorem readPackage_eq {type : Text} {cat : Category} {s : PortageState} (h0 : 0 ≤ s.group)
    (hle : s.group ≤ s.cumul) (hlong : s.cumul < 2 ^ 63) (e : DirEntry Package) :
    ∃ tmp, readPackage stat filename db type cat s e =
      if type.length + e.dName.length ≤ 245 ∧
          s.cumul + sizeOfAll stat cutPath e.contents < 2 ^ 63 then
        some ⟨s.dir ++ sized stat cutPath (openedLine db type cat e),
          s.group + sizeOfAll stat cutPath e.contents,
          s.cumul + sizeOfAll stat cutPath e.contents, tmp⟩
      else none := by
  simp only [readPackage, entryWrites_fit_iff]
  by_cases hnames : type.length + e.dName.length ≤ 245
  · cases hopen : openContents db cat e with
    | none =>
      have hline : openedLine db type cat e = [] := by rw [openedLine, hopen]; rfl
      have hnone : sizeOfAll stat cutPath e.contents = 0 := by
        rw [contents_of_not_open hopen]
        rfl
      refine ⟨s.tmp, ?_⟩
      rw [hline, hnone, Nat.cast_zero, add_zero, add_zero, if_pos hnames, if_pos ⟨hnames, hlong⟩]
      simp [sized]
    | some text =>
      have hline : openedLine db type cat e = [('/' :: type ++ '/' :: e.dName, e.contents)] := by
        rw [openedLine, hopen]
        rfl
      obtain ⟨tmp, hfold⟩ := @foldlM_open stat db cat e text hopen s.tmp
      refine ⟨tmp, ?_⟩
      simp only [hfold, hline, sized, List.map_cons, List.map_nil, add]
      generalize sizeOfAll stat cutPath e.contents = n
      rw [if_pos hnames, long_of_nonneg (by omega)]
      by_cases hn : (n : ℤ) < 2 ^ 63
      · rw [if_pos hn]
        simp only [Option.map_some, Option.bind_eq_bind, Option.bind_some]
        rw [long_of_nonneg (by omega), long_of_nonneg (by omega)]
        by_cases hsum : s.cumul + n < 2 ^ 63
        · rw [if_pos (by omega), if_pos hsum, if_pos ⟨hnames, hsum⟩]
          rfl
        · have hnot : ¬ (type.length + e.dName.length ≤ 245 ∧ s.cumul + n < 2 ^ 63) :=
            fun h => hsum h.2
          rw [if_neg hnot, if_neg hsum]
          split_ifs <;> rfl
      · rw [if_neg hn, if_neg (by omega)]
        rfl
  · refine ⟨s.tmp, ?_⟩
    rw [if_neg hnames, if_neg fun h => hnames h.1]

theorem sizeOfAll_append (path : Text → Text) (cs cs' : List Contents) :
    sizeOfAll stat path (cs ++ cs') = sizeOfAll stat path cs + sizeOfAll stat path cs' := by
  simp [sizeOfAll]

theorem sized_append (path : Text → Text) (ls ls' : List ViewLine) :
    sized stat path (ls ++ ls') = sized stat path ls ++ sized stat path ls' := List.map_append

theorem foldlM_readPackage {type : Text} {cat : Category} {s : PortageState} (h0 : 0 ≤ s.group)
    (hle : s.group ≤ s.cumul) (hlong : s.cumul < 2 ^ 63) (es : List (DirEntry Package)) :
    ∃ tmp, es.foldlM (readPackage stat filename db type cat) s =
      if (∀ e ∈ es, type.length + e.dName.length ≤ 245) ∧
          s.cumul + sizeOfAll stat cutPath (es.flatMap DirEntry.contents) < 2 ^ 63 then
        some ⟨s.dir ++ sized stat cutPath (es.flatMap (openedLine db type cat)),
          s.group + sizeOfAll stat cutPath (es.flatMap DirEntry.contents),
          s.cumul + sizeOfAll stat cutPath (es.flatMap DirEntry.contents), tmp⟩
      else none := by
  induction es generalizing s with
  | nil =>
    refine ⟨s.tmp, ?_⟩
    have hcond : (∀ e ∈ ([] : List (DirEntry Package)), type.length + e.dName.length ≤ 245) ∧
        s.cumul + sizeOfAll stat cutPath (([] : List (DirEntry Package)).flatMap
          DirEntry.contents) < 2 ^ 63 := by
      refine ⟨fun e he => absurd he List.not_mem_nil, ?_⟩
      simpa [sizeOfAll] using hlong
    rw [if_pos hcond]
    simp [sizeOfAll, sized]
  | cons e es ih =>
    obtain ⟨tmp, hstep⟩ := @readPackage_eq stat filename db type cat s h0 hle hlong e
    rw [List.foldlM_cons, Option.bind_eq_bind, hstep]
    simp only [List.flatMap_cons, sizeOfAll_append, sized_append, Nat.cast_add, ← add_assoc,
      ← List.append_assoc, List.forall_mem_cons]
    by_cases hfirst : type.length + e.dName.length ≤ 245 ∧
        s.cumul + sizeOfAll stat cutPath e.contents < 2 ^ 63
    · rw [if_pos hfirst]
      simp only [and_iff_right hfirst.1]
      exact ih (by dsimp only; omega) (by dsimp only; omega) hfirst.2
    · refine ⟨tmp, ?_⟩
      rw [if_neg hfirst, if_neg fun h => hfirst ⟨h.1.1, by omega⟩]
      rfl

/-! ## The categories -/

/-- What is added for an entry of the database. -/
def openedCategory (db : Database) : DirEntry Category → List ViewLine
  | .sub type cat => cat.flatMap (openedLine db type.text cat) ++
      [('/' :: type.text, cat.flatMap DirEntry.contents)]
  | _ => []

theorem readCategory_eq {s : PortageState} (h0 : 0 ≤ s.cumul) (hlong : s.cumul < 2 ^ 63)
    (e : DirEntry Category) :
    ∃ group tmp, readCategory stat filename db s e =
      if (∀ e' ∈ e.category, e.dName.length + e'.dName.length ≤ 245) ∧
          s.cumul + sizeOfAll stat cutPath (e.category.flatMap DirEntry.contents) < 2 ^ 63 then
        some ⟨s.dir ++ sized stat cutPath (openedCategory db e), group,
          s.cumul + sizeOfAll stat cutPath (e.category.flatMap DirEntry.contents), tmp⟩
      else none := by
  have hdot : e.dName = ['.'] ∨ e.dName = ['.', '.'] → e.category = [] →
      openedCategory db e = [] → ∃ group tmp, readCategory stat filename db s e =
        if (∀ e' ∈ e.category, e.dName.length + e'.dName.length ≤ 245) ∧
            s.cumul + sizeOfAll stat cutPath (e.category.flatMap DirEntry.contents) < 2 ^ 63 then
          some ⟨s.dir ++ sized stat cutPath (openedCategory db e), group,
            s.cumul + sizeOfAll stat cutPath (e.category.flatMap DirEntry.contents), tmp⟩
        else none := by
    intro hname hcategory hopened
    have hnone : sizeOfAll stat cutPath (([] : Category).flatMap DirEntry.contents) = 0 := rfl
    have hcond : (∀ e' ∈ ([] : Category), e.dName.length + e'.dName.length ≤ 245) ∧
        s.cumul + ((0 : ℕ) : ℤ) < 2 ^ 63 := by
      refine ⟨fun e' he' => absurd he' List.not_mem_nil, ?_⟩
      rwa [Nat.cast_zero, add_zero]
    refine ⟨s.group, s.tmp, ?_⟩
    rw [readCategory, if_pos hname, hcategory, hopened, hnone, if_pos hcond]
    simp [sized]
  cases e with
  | self => exact hdot (Or.inl rfl) rfl rfl
  | parent => exact hdot (Or.inr rfl) rfl rfl
  | sub type cat =>
    have hname : ¬ (type.text = ['.'] ∨ type.text = ['.', '.']) :=
      not_or.mpr ⟨type.dot, type.dotDot⟩
    obtain ⟨tmp, hfold⟩ := @foldlM_readPackage stat filename db type.text cat { s with group := 0 }
      (Int.le_refl 0) h0 hlong cat
    refine ⟨sizeOfAll stat cutPath (cat.flatMap DirEntry.contents), tmp, ?_⟩
    show _ = if (∀ e' ∈ cat, type.text.length + e'.dName.length ≤ 245) ∧
        s.cumul + sizeOfAll stat cutPath (cat.flatMap DirEntry.contents) < 2 ^ 63 then _ else _
    simp only [readCategory, dName_sub, category_sub, if_neg hname, hfold, Option.bind_eq_bind,
      zero_add]
    by_cases hcond : (∀ e' ∈ cat, type.text.length + e'.dName.length ≤ 245) ∧
        s.cumul + sizeOfAll stat cutPath (cat.flatMap DirEntry.contents) < 2 ^ 63
    · rw [if_pos hcond, if_pos hcond]
      simp only [Option.bind_some, openedCategory, sized_append, add, List.append_assoc]
      rfl
    · rw [if_neg hcond, if_neg hcond]
      rfl

theorem foldlM_readCategory {s : PortageState} (h0 : 0 ≤ s.cumul) (hlong : s.cumul < 2 ^ 63)
    (es : List (DirEntry Category)) :
    ∃ group tmp, es.foldlM (readCategory stat filename db) s =
      if (∀ e ∈ es, ∀ e' ∈ e.category, e.dName.length + e'.dName.length ≤ 245) ∧
          s.cumul + sizeOfAll stat cutPath (allContents es) < 2 ^ 63 then
        some ⟨s.dir ++ sized stat cutPath (es.flatMap (openedCategory db)), group,
          s.cumul + sizeOfAll stat cutPath (allContents es), tmp⟩
      else none := by
  induction es generalizing s with
  | nil =>
    have hnone : sizeOfAll stat cutPath (allContents []) = 0 := rfl
    have hcond : (∀ e ∈ ([] : Database), ∀ e' ∈ e.category,
        e.dName.length + e'.dName.length ≤ 245) ∧ s.cumul + ((0 : ℕ) : ℤ) < 2 ^ 63 := by
      refine ⟨fun e he => absurd he List.not_mem_nil, ?_⟩
      rwa [Nat.cast_zero, add_zero]
    refine ⟨s.group, s.tmp, ?_⟩
    rw [hnone, if_pos hcond]
    simp [sized]
  | cons e es ih =>
    obtain ⟨group, tmp, hstep⟩ := @readCategory_eq stat filename db s h0 hlong e
    have hall : allContents (e :: es) =
        e.category.flatMap DirEntry.contents ++ allContents es := List.flatMap_cons
    rw [List.foldlM_cons, Option.bind_eq_bind, hstep]
    simp only [hall, List.flatMap_cons, sizeOfAll_append, sized_append, Nat.cast_add, ← add_assoc,
      ← List.append_assoc, List.forall_mem_cons]
    by_cases hfirst : (∀ e' ∈ e.category, e.dName.length + e'.dName.length ≤ 245) ∧
        s.cumul + sizeOfAll stat cutPath (e.category.flatMap DirEntry.contents) < 2 ^ 63
    · rw [if_pos hfirst]
      simp only [and_iff_right hfirst.1]
      exact ih (by dsimp only; omega) hfirst.2
    · refine ⟨group, tmp, ?_⟩
      rw [if_neg hfirst, if_neg fun h => hfirst ⟨h.1.1, by omega⟩]
      rfl

/-- The whole list, if there is one. -/
theorem portagePackages_eq (tmp : Text) : portagePackages stat filename tmp db =
    if (∀ e ∈ db, ∀ e' ∈ e.category, e.dName.length + e'.dName.length ≤ 245) ∧
        sizeOfAll stat cutPath (allContents db) < 2 ^ 63 then
      some (sized stat cutPath (db.flatMap (openedCategory db) ++ [(['/'], allContents db)]))
    else none := by
  obtain ⟨group, tmp', hfold⟩ := @foldlM_readCategory stat filename db ⟨[], 0, 0, tmp⟩
    (Int.le_refl 0) (show (0 : ℤ) < 2 ^ 63 by decide) db
  simp only [List.nil_append, zero_add] at hfold
  rw [portagePackages, hfold]
  by_cases hcond : (∀ e ∈ db, ∀ e' ∈ e.category, e.dName.length + e'.dName.length ≤ 245) ∧
      sizeOfAll stat cutPath (allContents db) < 2 ^ 63
  · rw [if_pos hcond, if_pos ⟨hcond.1, by exact_mod_cast hcond.2⟩, Option.map_some, sized_append]
    rfl
  · rw [if_neg hcond, if_neg fun h => hcond ⟨h.1, by exact_mod_cast h.2⟩]
    rfl

end Loops

/-! ## The elements of the view -/

theorem named_sub {dir : Text} (name : FileName) : Named (dir ++ '/' :: name.text) := by
  rw [Named, lastComponent_append name.slash name.ne_nil]
  exact ⟨name.dot, name.dotDot⟩

theorem filter_openedLine (db : Database) (type : FileName) (cat : Category)
    (e : DirEntry Package) :
    (openedLine db type.text cat e).filter (fun l => Named l.1) = packageLines type e := by
  have hdot : e.contents = [] → ¬ Named ('/' :: type.text ++ '/' :: e.dName) →
      (openedLine db type.text cat e).filter (fun l => Named l.1) = packageLines type e := by
    intro hcontents hnamed
    rw [packageLines, hcontents, openedLine]
    split_ifs
    · rw [List.filter_cons_of_neg (by simpa using hnamed)]
      rfl
    · rfl
  have hlast : ∀ name : Text, '/' ∉ name → name ≠ [] → (name = ['.'] ∨ name = ['.', '.']) →
      ¬ Named ('/' :: type.text ++ '/' :: name) := by
    intro name hslash hne hname hnamed
    rw [Named, lastComponent_append hslash hne] at hnamed
    exact hname.elim hnamed.1 hnamed.2
  cases e with
  | self => exact hdot rfl (hlast ['.'] (by decide) (by decide) (Or.inl rfl))
  | parent => exact hdot rfl (hlast ['.', '.'] (by decide) (by decide) (Or.inr rfl))
  | sub name pkg =>
    cases pkg with
    | none => rfl
    | some c => exact List.filter_cons_of_pos (decide_eq_true (named_sub name))

theorem filter_openedCategory (db : Database) (e : DirEntry Category) :
    (openedCategory db e).filter (fun l => Named l.1) = categoryLines e := by
  cases e with
  | self => rfl
  | parent => rfl
  | sub type cat =>
    have hcategory : Named ('/' :: type.text) := @named_sub [] type
    rw [openedCategory, categoryLines, List.filter_append, List.filter_flatMap,
      List.filter_cons_of_pos (by simpa using hcategory)]
    simp only [filter_openedLine]
    rfl

/-- The list without what is added for `.` and `..`. -/
theorem filter_sized (stat : FileSizes) (path : Text → Text) (db : Database) :
    (sized stat path (db.flatMap (openedCategory db) ++ [(['/'], allContents db)])).filter
      (fun d => Named d.dir) = sized stat path (viewLines db) := by
  have hlines : ∀ ls : List ViewLine, (sized stat path ls).filter (fun d => Named d.dir) =
      sized stat path (ls.filter fun l => Named l.1) := fun ls => List.filter_map
  have hroot : Named ['/'] := by decide
  rw [hlines, List.filter_append, List.filter_flatMap,
    List.filter_cons_of_pos (by simpa using hroot)]
  simp only [filter_openedCategory]
  rfl

section Paths

variable {stat : FileSizes}

theorem cutPath_eq_self {p : Text} (hp : ' ' ∉ p) : cutPath p = p :=
  List.takeWhile_eq_self_iff.mpr fun _ hc => decide_eq_true fun heq => hp (heq ▸ hc)

/-- The paths without spaces make no difference. -/
theorem size_eq_iff (c : Contents) :
    c.size stat cutPath = c.size stat id ↔ c.spacedSize stat cutPath = c.spacedSize stat id := by
  suffices h : ∀ ls : List Installed, (ls.map (Installed.size stat cutPath)).sum +
      ((ls.filter Installed.spaced).map (Installed.size stat id)).sum =
        (ls.map (Installed.size stat id)).sum +
          ((ls.filter Installed.spaced).map (Installed.size stat cutPath)).sum by
    have hsum := h c.lines
    unfold Contents.size Contents.spacedSize
    omega
  intro ls
  induction ls with
  | nil => rfl
  | cons l ls ih =>
    cases hl : l.spaced with
    | true =>
      simp only [List.filter_cons_of_pos hl, List.map_cons, List.sum_cons]
      omega
    | false =>
      have hsame : l.size stat cutPath = l.size stat id := by
        cases l with
        | dir path => rfl
        | sym rest => rfl
        | obj path md5 mtime =>
          have hspace : ' ' ∉ path := by simpa [Installed.spaced] using hl
          rw [Installed.size, Installed.size, cutPath_eq_self hspace]
          rfl
      have hskip : ¬ l.spaced = true := by simp [hl]
      simp only [List.filter_cons_of_neg hskip, List.map_cons, List.sum_cons, hsame]
      omega

theorem mem_allContents {db : Database} {c : Contents} : c ∈ allContents db ↔
    ∃ type cat, .sub type cat ∈ db ∧ ∃ e ∈ cat, c ∈ e.contents := by
  rw [allContents, List.mem_flatMap]
  constructor
  · rintro ⟨e, he, hmem⟩
    obtain ⟨e', he', hc⟩ := List.mem_flatMap.mp hmem
    cases e with
    | self => exact absurd he' List.not_mem_nil
    | parent => exact absurd he' List.not_mem_nil
    | sub type cat => exact ⟨type, cat, he, e', he', hc⟩
  · rintro ⟨type, cat, he, e', he', hc⟩
    exact ⟨.sub type cat, he, List.mem_flatMap.mpr ⟨e', he', hc⟩⟩

/-- The lines are those of the packages, and some that are sums of these. -/
theorem mem_viewLines {db : Database} {l : ViewLine} (hl : l ∈ viewLines db) :
    ∀ c ∈ l.2, c ∈ allContents db := by
  intro c hc
  rcases List.mem_append.mp hl with hl | hl
  · obtain ⟨e, he, hl⟩ := List.mem_flatMap.mp hl
    cases e with
    | self => exact absurd hl List.not_mem_nil
    | parent => exact absurd hl List.not_mem_nil
    | sub type cat =>
      refine mem_allContents.mpr ⟨type, cat, he, ?_⟩
      rcases List.mem_append.mp hl with hl | hl
      · obtain ⟨e', he', hl⟩ := List.mem_flatMap.mp hl
        obtain ⟨c', hc', rfl⟩ := List.mem_map.mp hl
        rw [List.mem_singleton.mp hc]
        exact ⟨e', he', hc'⟩
      · rw [List.mem_singleton.mp hl] at hc
        exact List.mem_flatMap.mp hc
  · rw [List.mem_singleton.mp hl] at hc
    exact hc

theorem sized_eq_iff (db : Database) :
    sized stat cutPath (viewLines db) = sized stat id (viewLines db) ↔
      ∀ c ∈ allContents db, c.size stat cutPath = c.size stat id := by
  have hlines : sized stat cutPath (viewLines db) = sized stat id (viewLines db) ↔
      ∀ l ∈ viewLines db, sizeOfAll stat cutPath l.2 = sizeOfAll stat id l.2 := by
    rw [sized, sized, List.map_inj_left]
    simp
  rw [hlines]
  constructor
  · intro h c hc
    obtain ⟨type, cat, hcat, e, he, hc⟩ := mem_allContents.mp hc
    have hmem : ('/' :: type.text ++ '/' :: e.dName, [c]) ∈ viewLines db :=
      List.mem_append_left _ (List.mem_flatMap.mpr ⟨_, hcat, List.mem_append_left _
        (List.mem_flatMap.mpr ⟨e, he, List.mem_map_of_mem hc⟩)⟩)
    simpa [sizeOfAll] using h _ hmem
  · intro h l hl
    have hsame := List.map_congr_left fun c hc => h c (mem_viewLines hl c hc)
    rw [sizeOfAll, sizeOfAll, hsame]

/-- The list shows every package, every category and the whole with the right sizes exactly if the
names fit in their buffer, the paths with spaces do no harm and the sum is not too large. -/
theorem portagePackages_iff (stat : FileSizes) (filename tmp : Text) (db : Database) :
    (∃ ds, portagePackages stat filename tmp db = some ds ∧
      ds.filter (fun d => Named d.dir) = sized stat id (viewLines db)) ↔ Countable stat db := by
  rw [portagePackages_eq]
  have htotal : (∀ c ∈ allContents db, c.size stat cutPath = c.size stat id) →
      sizeOfAll stat cutPath (allContents db) = sizeOfAll stat id (allContents db) := by
    intro hall
    rw [sizeOfAll, sizeOfAll, List.map_congr_left hall]
  constructor
  · rintro ⟨ds, hds, hlist⟩
    rw [Option.ite_none_right_eq_some] at hds
    obtain ⟨⟨hnames, hfits⟩, hds⟩ := hds
    obtain rfl := Option.some.inj hds
    rw [filter_sized, sized_eq_iff] at hlist
    refine ⟨hnames, fun c hc => (size_eq_iff c).mp (hlist c hc), ?_⟩
    rwa [htotal hlist] at hfits
  · rintro ⟨hnames, hpaths, hfits⟩
    have hall : ∀ c ∈ allContents db, c.size stat cutPath = c.size stat id :=
      fun c hc => (size_eq_iff c).mpr (hpaths c hc)
    refine ⟨_, if_pos ⟨hnames, by rwa [htotal hall]⟩, ?_⟩
    rw [filter_sized]
    exact (sized_eq_iff db).mpr hall

end Paths

/-! ## A path with a space -/

def catName : FileName :=
  ⟨['c'], by decide, by decide, by decide, by decide, by decide⟩

/-- A package with the file `/a b` alone. -/
def spacedContents : Contents where
  text := "obj /a b 0 0\n".toList
  lines := [.obj "/a b".toList ['0'] ['0']]
  text_lines := by decide
  fields := by
    refine List.forall_mem_singleton.mpr ?_
    exact ⟨by decide, by decide⟩
  short := by decide
  noZero := by decide

/-- The file has a kilobyte, and the cut path leads nowhere. -/
theorem not_portagePackages :
    ¬ ∀ (stat : FileSizes) (filename tmp : Text) (db : Database),
      (∀ e ∈ db, ∀ e' ∈ e.category, e.dName.length + e'.dName.length ≤ 245) →
      ∃ ds, portagePackages stat filename tmp db = some ds ∧
        ds.filter (fun d => Named d.dir) = sized stat id (viewLines db) := by
  intro hall
  have hcount := (portagePackages_iff (fun p => if p = "/a b".toList then some 1024 else none)
    [] [] [.sub catName [.sub catName (some spacedContents)]]).mp (hall _ _ _ _ (by decide))
  exact absurd (hcount.paths spacedContents (by simp [allContents, DirEntry.contents])) (by decide)

end Backpack.Dufie
