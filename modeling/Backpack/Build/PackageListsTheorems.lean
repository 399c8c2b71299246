import Backpack.Build.ListEntries

/-!
# When `--verify` agrees with the build

The two readers find the same packages for a name, but `--verify` takes a package out of the
list when an entry has used it, and does not look at the directory that an entry asks for. They
agree when neither makes a difference for any entry; otherwise they differ about an entry, and
agree as a whole only if another one hides that.
-/

namespace Backpack.Build

open Shell

/-! ## Names and paths -/

theorem isVersion_ne {c : Char} (hc : isVersion c = true) : c ≠ ' ' ∧ c ≠ '/' ∧ c ≠ 'z' := by
  refine ⟨?_, ?_, ?_⟩ <;> rintro rfl <;> exact absurd hc (by decide)

namespace PackageFile

variable (p : PackageFile) (bits : Bits)

theorem file_char : ∀ c ∈ p.file, fileChar c = true := by
  intro c hc
  rcases List.mem_append.mp hc with hc | hc
  · exact p.base_char c hc
  · have hall : ∀ c ∈ ".tgz".toList, fileChar c = true := by decide
    exact hall c hc

theorem slash_not_mem_file : '/' ∉ p.file := fun hc => absurd (p.file_char _ hc) (by decide)

theorem dir_char : (∀ c ∈ p.dir.text bits, isSpace c = false ∧ c ≠ '/') ∧
    p.dir.text bits ≠ [] := by
  have hall : ∀ (b : Bits) (d : PackageDir),
      (∀ c ∈ d.text b, isSpace c = false ∧ c ≠ '/') ∧ d.text b ≠ [] := by
    intro b d
    cases b <;> cases d <;> decide
  exact hall bits p.dir

theorem path_no_space : ∀ c ∈ p.path bits, isSpace c = false := by
  intro c hc
  rcases List.mem_append.mp hc with hc | hc
  · exact ((p.dir_char bits).1 c hc).1
  · rcases List.mem_cons.mp hc with rfl | hc
    · decide
    · have hchar := p.file_char c hc
      simp only [fileChar, Bool.and_eq_true, Bool.not_eq_true'] at hchar
      exact hchar.1.1

theorem path_ne_nil : p.path bits ≠ [] := by simp [path]

theorem newline_not_mem_path : '\n' ∉ p.path bits := fun hc =>
  absurd (p.path_no_space bits _ hc) (by decide)

theorem words_path : words (p.path bits) = [p.path bits] :=
  words_of_noBlank (noBlank_of_noSpace (p.path_no_space bits)) (p.path_ne_nil bits)

end PackageFile

/-- The search for `/name-` and a digit or an `I` in the path. -/
theorem infix_path_iff {name : Text} {p : PackageFile} (bits : Bits) :
    (∃ c, isVersion c = true ∧ '/' :: (name ++ ['-', c]) <:+: p.path bits) ↔ Finds name p := by
  have hdir : '/' ∉ p.dir.text bits := fun hc => ((p.dir_char bits).1 _ hc).2 rfl
  refine ⟨?_, ?_⟩
  · rintro ⟨c, hc, pre, post, heq⟩
    have hsplit : p.dir.text bits ++ '/' :: p.file =
        pre ++ '/' :: (name ++ '-' :: c :: post) := by
      rw [← PackageFile.path, ← heq]
      simp
    have hfile := ((List.append_cons_inj_of_notMem hdir p.slash_not_mem_file).mp hsplit).2.2
    exact ⟨c, post, hc, hfile⟩
  · rintro ⟨c, post, hc, hfile⟩
    refine ⟨c, hc, p.dir.text bits, post, ?_⟩
    rw [PackageFile.path, hfile]
    simp

instance (name : Text) (p : PackageFile) : Decidable (Finds name p) :=
  decidable_of_iff ((name ++ ['-']) <+: p.file ∧
      ((p.file.drop (name.length + 1)).head?.any isVersion) = true) <| by
    refine ⟨?_, ?_⟩
    · rintro ⟨⟨rest, hrest⟩, hhead⟩
      have hdrop : p.file.drop (name.length + 1) = rest := by
        rw [← hrest]
        exact List.drop_left' (by simp)
      rw [hdrop] at hhead
      cases rest with
      | nil => simp at hhead
      | cons c post => exact ⟨c, post, by simpa using hhead, by rw [← hrest]; simp⟩
    · rintro ⟨c, post, hc, hfile⟩
      have hsplit : p.file = (name ++ ['-']) ++ c :: post := by simp [hfile]
      refine ⟨⟨c :: post, hsplit.symm⟩, ?_⟩
      rw [hsplit, List.drop_left' (by simp)]
      exact hc

/-! ## The searches -/

/-- `tail -n 1` prints nothing when there is nothing. -/
theorem getLastD_eq_nil_iff {ls : List Text} (h : ∀ l ∈ ls, l ≠ []) :
    ls.getLastD [] = [] ↔ ls = [] := by
  refine ⟨fun hlast => ?_, fun hls => by rw [hls]; rfl⟩
  by_contra hne
  rw [List.getLastD_eq_getLast?, List.getLast?_eq_some_getLast hne] at hlast
  exact h _ (List.getLast_mem hne) hlast

theorem used_eq (name : Text) : used name = '[' :: (nonSpaceSet ++ '*' :: '\\' :: '/' ::
    (name ++ '\\' :: '-' :: '[' :: (versionSet ++ '[' :: (nonSpaceSet ++ ['*'])))) := rfl

/-- What the pattern takes away from a text. -/
theorem mem_globRests_used {name : Text} (hname : ∀ c ∈ name, globOrdinary c = true) {s t : Text} :
    t ∈ globRests (globItems 0 (used name)) s ↔ ∃ a w c d post, s = a :: (w ++ '/' :: (name ++
      '-' :: c :: d :: post)) ∧ isSpace a = false ∧ isVersion c = true ∧ isSpace d = false ∧
        t <:+ post := by
  rcases globItems_nonSpaceSet ('*' :: '\\' :: '/' :: (name ++ '\\' :: '-' :: '[' :: (versionSet ++
    '[' :: (nonSpaceSet ++ ['*'])))) with ⟨p, hp, hspace⟩
  rcases globItems_versionSet ('[' :: (nonSpaceSet ++ ['*'])) with ⟨q, hq, hversion⟩
  rcases globItems_nonSpaceSet ['*'] with ⟨r, hr, hspace'⟩
  rw [used_eq, hp, globItems_many, globItems_escaped, globItems_ordinary hname, globItems_escaped,
    hq, hr, globItems_many]
  have hend : ∀ u, t ∈ globRests (globItems 0 []) u ↔ t = u := fun u => by
    simp [globItems, globRests]
  simp only [mem_globRests_one, mem_globRests_many, mem_globRests_ordinary, hend, hspace, hversion,
    hspace', Bool.not_eq_true', beq_iff_eq]
  refine ⟨?_, ?_⟩
  · rintro ⟨a, _, rfl, ha, w, _, rfl, _, _, rfl, rfl, _, rfl, _, _, rfl, rfl, c, _, rfl, hc, d, _,
      rfl, hd, v, _, rfl, rfl⟩
    exact ⟨a, w, c, d, v ++ t, rfl, ha, hc, hd, List.suffix_append v t⟩
  · rintro ⟨a, w, c, d, _, rfl, ha, hc, hd, v, rfl⟩
    exact ⟨a, _, rfl, ha, w, _, rfl, '/', _, rfl, rfl, _, rfl, '-', _, rfl, rfl, c, _, rfl, hc, d,
      _, rfl, hd, v, _, rfl, rfl⟩

section
variable {name : Text} (hname : PlainEntry name) (bits : Bits)
include hname

/-- The build looks for a name. -/
theorem package_ne_nil_iff (files : List PackageFile) (dirs : List PackageDir) :
    package bits files (dirs, name) ≠ [] ↔ ∃ p ∈ files, p.dir ∈ dirs ∧ Finds name p := by
  have hlines : ∀ l ∈ lsTgz bits files dirs, '\n' ∉ l := by
    intro l hl
    rcases List.mem_map.mp ((lsSort_perm _).mem_iff.mp hl) with ⟨p, -, rfl⟩
    exact p.newline_not_mem_path bits
  have hmem : ∀ l, l ∈ grep .basic ("\\/".toList ++ (name ++ "\\-[[:digit:]I]".toList))
      (unlines (lsTgz bits files dirs)) ↔
        ∃ p ∈ files, p.dir ∈ dirs ∧ Finds name p ∧ l = p.path bits := by
    intro l
    unfold grep
    rw [fileLines_unlines hlines, List.mem_filter]
    have hgrep := grepLine_escaped_version hname.basic l
    rw [show "\\-[[:digit:]I]".toList = "\\-".toList ++ '[' :: versionSet from rfl, hgrep]
    unfold lsTgz
    rw [(lsSort_perm _).mem_iff, List.mem_map]
    refine ⟨?_, ?_⟩
    · rintro ⟨⟨p, hp, rfl⟩, hfind⟩
      have hdir := List.mem_filter.mp hp
      exact ⟨p, hdir.1, of_decide_eq_true hdir.2, (infix_path_iff bits).mp hfind, rfl⟩
    · rintro ⟨p, hp, hdir, hfind, rfl⟩
      exact ⟨⟨p, List.mem_filter.mpr ⟨hp, decide_eq_true hdir⟩, rfl⟩,
        (infix_path_iff bits).mpr hfind⟩
  unfold package
  have hpath : ∀ l ∈ grep .basic ("\\/".toList ++ (name ++ "\\-[[:digit:]I]".toList))
      (unlines (lsTgz bits files dirs)), l ≠ [] := by
    intro l hl
    rcases (hmem l).mp hl with ⟨p, -, -, -, rfl⟩
    exact p.path_ne_nil bits
  refine Iff.trans (not_congr (getLastD_eq_nil_iff hpath)) ⟨fun h => ?_, ?_⟩
  · rcases List.exists_mem_of_ne_nil _ h with ⟨l, hl⟩
    rcases (hmem l).mp hl with ⟨p, hp, hdir, hfind, -⟩
    exact ⟨p, hp, hdir, hfind⟩
  · rintro ⟨p, hp, hdir, hfind⟩
    exact List.ne_nil_of_mem ((hmem _).mpr ⟨p, hp, hdir, hfind, rfl⟩)

/-- `--verify` looks for a name. -/
theorem grep_packages_iff (ps : List PackageFile) :
    noOutput (grep .basic ('/' :: (name ++ "-[[:digit:]I]".toList))
      (echo (ps.map (PackageFile.path bits)))) = false ↔ ∃ p ∈ ps, Finds name p := by
  have hne : '/' :: (name ++ ['-']) ≠ [] := by simp
  have hpat : '/' :: (name ++ "-[[:digit:]I]".toList) =
      '/' :: (name ++ ['-']) ++ '[' :: versionSet := by
    show _ = '/' :: (name ++ ['-'] ++ '[' :: versionSet)
    rw [List.append_assoc]
    rfl
  have hord : ∀ c ∈ '/' :: (name ++ ['-']), Flavour.basic.ordinary c = true := by
    intro c hc
    rcases List.mem_cons.mp hc with rfl | hc
    · rfl
    · rcases List.mem_append.mp hc with hc | hc
      · exact hname.basic c hc
      · rw [List.mem_singleton.mp hc]
        rfl
  have hopt : ∀ l ∈ ps.map (PackageFile.path bits), isEchoOption l = false := by
    intro l hl
    rcases List.mem_map.mp hl with ⟨p, -, rfl⟩
    exact isEchoOption_of_slash (by simp [PackageFile.path])
  have hline : '\n' ∉ joinWords (ps.map (PackageFile.path bits)) := by
    refine newline_not_mem_joinWords fun l hl => ?_
    rcases List.mem_map.mp hl with ⟨p, -, rfl⟩
    exact p.newline_not_mem_path bits
  unfold grep
  rw [echo_of_no_options hopt, fileLines_line hline, noOutput_eq_false_iff, hpat]
  simp only [List.mem_filter, List.mem_singleton, grepLine_version hord]
  -- the name does not reach over a blank, so it stands in one of the paths
  have hpath : ∀ c, isVersion c = true → ('/' :: (name ++ ['-']) ++ [c] <:+:
      joinWords (ps.map (PackageFile.path bits)) ↔
        ∃ p ∈ ps, '/' :: (name ++ ['-', c]) <:+: p.path bits) := by
    intro c hc
    have hblank : ' ' ∉ '/' :: (name ++ ['-']) ++ [c] := by
      simp [hname.no_blank, Ne.symm (isVersion_ne hc).1]
    rw [infix_joinWords_iff hblank (by simp)]
    simp
  refine ⟨?_, ?_⟩
  · rintro ⟨l, ⟨rfl, c, hc, hinf⟩, -⟩
    rcases (hpath c hc).mp hinf with ⟨p, hp, hinf⟩
    exact ⟨p, hp, (infix_path_iff bits).mp ⟨c, hc, hinf⟩⟩
  · rintro ⟨p, hp, hfind⟩
    rcases (infix_path_iff bits).mpr hfind with ⟨c, hc, hinf⟩
    have hjoined := (hpath c hc).mpr ⟨p, hp, hinf⟩
    refine ⟨_, ⟨rfl, c, hc, hjoined⟩, fun hnil => ?_⟩
    rw [hnil] at hjoined
    exact absurd (List.infix_nil.mp hjoined) (by simp)

/-- The pattern covers the whole path of a package that the name finds. -/
theorem deleteMatch_used_of_finds {p : PackageFile} (h : Finds name p) :
    deleteMatch (used name) (p.path bits) = [] := by
  obtain ⟨c, post, hc, hfile⟩ := h
  have hpost : ∀ d ∈ post, isSpace d = false := by
    intro d hd
    have hchar := p.file_char d (by simp [hfile, hd])
    simp only [fileChar, Bool.and_eq_true, Bool.not_eq_true'] at hchar
    exact hchar.1.1
  obtain ⟨hdir, hne⟩ := p.dir_char bits
  cases hd : p.dir.text bits with
  | nil => exact absurd hd hne
  | cons a w =>
    cases post with
    | nil =>
      -- the file name ends in `tgz`
      have hlast := congrArg List.getLast? hfile
      have hz : p.file.getLast? = some 'z' := by simp [PackageFile.file]
      rw [hz] at hlast
      have hcz : c = 'z' := by simpa [eq_comm] using hlast
      exact absurd hcz (isVersion_ne hc).2.2
    | cons d post =>
      refine deleteItems_of_whole ((mem_globRests_used hname.glob).mpr
        ⟨a, w, c, d, post, ?_, (hdir a (by simp [hd])).1, hc, hpost d (by simp),
          List.nil_suffix⟩)
      rw [PackageFile.path, hd, hfile, List.cons_append]

theorem deleteMatch_used_of_not_finds {p : PackageFile} (h : ¬ Finds name p) :
    deleteMatch (used name) (p.path bits) = p.path bits := by
  refine deleteItems_of_no_match fun t ht => ?_
  by_contra hne
  obtain ⟨u, hu⟩ := List.exists_mem_of_ne_nil _ hne
  obtain ⟨a, w, c, d, post, rfl, -, hc, -, -⟩ := (mem_globRests_used hname.glob).mp hu
  refine h ((infix_path_iff bits).mp ⟨c, hc, List.IsInfix.trans ?_ ht.isInfix⟩)
  exact ⟨a :: w, d :: post, by simp⟩

/-- `--verify` takes the packages out that a name finds. -/
theorem strip_used (ps : List PackageFile) :
    strip (used name) (ps.map (PackageFile.path bits)) =
      (ps.filter fun p => ¬ Finds name p).map (PackageFile.path bits) := by
  unfold strip
  induction ps with
  | nil => rfl
  | cons p ps ih =>
    rw [List.map_cons, List.flatMap_cons, ih]
    by_cases hp : Finds name p
    · rw [deleteMatch_used_of_finds hname bits hp, List.filter_cons_of_neg (by simp [hp])]
      rfl
    · rw [deleteMatch_used_of_not_finds hname bits hp, p.words_path bits,
        List.filter_cons_of_pos (by simp [hp])]
      rfl

end

/-! ## What `--verify` uses up -/

/-- Each entry that is not ignored finds a package that no earlier entry has used up. -/
def AllLeft (items : List Text) (ps : List PackageFile) : Prop :=
  ∀ pre item post, items = pre ++ item :: post → isIgnore item = false →
    ∃ p ∈ ps, Finds item p ∧ ∀ it ∈ pre, ¬ Finds (entryName it) p

/-- An item needs a file that is left, and the others are checked without the files it uses up. -/
theorem allLeft_cons {item : Text} {items : List Text} {ps : List PackageFile} :
    AllLeft (item :: items) ps ↔ (isIgnore item = false → ∃ p ∈ ps, Finds item p) ∧
      AllLeft items (ps.filter fun p => ¬ Finds (entryName item) p) := by
  have hleft : ∀ pre it, (∃ p ∈ ps, Finds it p ∧ ∀ x ∈ item :: pre, ¬ Finds (entryName x) p) ↔
      ∃ p ∈ ps.filter (fun p => ¬ Finds (entryName item) p), Finds it p ∧
        ∀ x ∈ pre, ¬ Finds (entryName x) p := by
    intro pre it
    refine exists_congr fun p => ?_
    simp only [List.mem_filter, decide_eq_true_eq, List.forall_mem_cons]
    tauto
  unfold AllLeft
  rw [forall_split_cons]
  simp only [hleft]
  simp

/-- One entry of `--verify`. -/
theorem verifyEntry_eq {item : Text} (hplain : PlainEntry (entryName item)) (bits : Bits)
    (ps : List PackageFile) (missing : List Text) :
    verifyEntry ⟨ps.map (PackageFile.path bits), missing⟩ item =
      ⟨(ps.filter fun p => ¬ Finds (entryName item) p).map (PackageFile.path bits),
        missing ++ if isIgnore item = true ∨ ∃ p ∈ ps, Finds item p then [] else [item]⟩ := by
  unfold verifyEntry
  by_cases hitem : isIgnore item = true
  · rw [if_pos hitem, strip_used hplain, if_pos (Or.inl hitem), List.append_nil]
  · have hname : entryName item = item := if_neg hitem
    rw [if_neg hitem]
    rw [hname] at hplain ⊢
    by_cases hfound : ∃ p ∈ ps, Finds item p
    · have hgrep := (grep_packages_iff hplain bits ps).mpr hfound
      simp only [hgrep, Bool.not_false, if_true]
      rw [strip_used hplain, if_pos (Or.inr hfound), List.append_nil]
    · have hgrep := (Bool.not_eq_false _).mp fun h => hfound ((grep_packages_iff hplain bits ps).mp h)
      have hall : ps.filter (fun p => ¬ Finds item p) = ps := by
        refine List.filter_eq_self.mpr fun p hp => decide_eq_true fun hfind => ?_
        exact hfound ⟨p, hp, hfind⟩
      simp only [hgrep, Bool.not_true, Bool.false_eq_true, if_false]
      rw [hall, if_neg (not_or.mpr ⟨hitem, hfound⟩)]

/-- All entries of `--verify`. -/
theorem foldl_verifyEntry_missing {items : List Text}
    (hplain : ∀ item ∈ items, PlainEntry (entryName item)) (bits : Bits) (ps : List PackageFile)
    (missing : List Text) :
    (items.foldl verifyEntry ⟨ps.map (PackageFile.path bits), missing⟩).missing = [] ↔
      missing = [] ∧ AllLeft items ps := by
  induction items generalizing ps missing with
  | nil =>
    refine ⟨fun h => ⟨h, fun pre item post heq => ?_⟩, fun h => h.1⟩
    simp at heq
  | cons item items ih =>
    rw [List.foldl_cons, verifyEntry_eq (hplain item List.mem_cons_self),
      ih fun x hx => hplain x (List.mem_cons_of_mem item hx), allLeft_cons, List.append_eq_nil_iff,
      and_assoc]
    refine and_congr_right fun _ => and_congr_left fun _ => ?_
    split_ifs with h
    · refine ⟨fun _ hitem => ?_, fun _ => rfl⟩
      rcases h with h | h
      · rw [h] at hitem
        exact absurd hitem (by decide)
      · exact h
    · refine ⟨fun hcons => absurd hcons (by simp), fun himp => ?_⟩
      have hitem : isIgnore item = false := (Bool.not_eq_true _).mp fun hi => h (Or.inl hi)
      exact absurd (Or.inr (himp hitem)) h

/-- The entries of all lists, as `--verify` sees them. -/
def verifyItems (bits : Bits) (lists : List Text) : List Text :=
  lists.flatMap fun list => verifyMaster bits (master list)

/-- The verification misses nothing when all items find a file that is left. -/
theorem verify_missing_iff {bits : Bits} {lists : List Text}
    (hplain : ∀ item ∈ verifyItems bits lists, PlainEntry (entryName item))
    (files : List PackageFile) :
    (verify bits files lists).missing = [] ↔ AllLeft (verifyItems bits lists) files := by
  have hall : (files.filter fun p => p.dir ∈ [PackageDir.extra, .dropline, .slackware]) = files := by
    refine List.filter_eq_self.mpr fun p _ => decide_eq_true ?_
    cases p.dir <;> decide
  have hsort : lsTgz bits files [.extra, .dropline, .slackware] =
      (files.insertionSort fun p q => byteLe (p.path bits) (q.path bits) = true).map
        (PackageFile.path bits) := by
    unfold lsTgz lsSort
    rw [hall, List.map_insertionSort _ fun s t : Text => byteLe s t = true]
    exact fun _ _ _ _ => Iff.rfl
  unfold verify
  rw [hsort]
  have hflat := @List.foldl_flatMap _ _ _ (fun list => verifyMaster bits (master list)) verifyEntry
    lists
  show (lists.foldl (fun s list => (verifyMaster bits (master list)).foldl verifyEntry s)
    _).missing = [] ↔ _
  rw [← hflat, ← verifyItems, foldl_verifyEntry_missing hplain]
  unfold AllLeft
  simp only [true_and, List.mem_insertionSort]

/-! ## What the build looks for -/

/-- What the build looks for over all lists. -/
def requests (bits : Bits) (lists : List Text) : List (List PackageDir × Text) :=
  lists.flatMap fun list => (master list).filterMap (request bits)

/-- Each entry finds a package in the directories that it asks for. -/
def AllFound (bits : Bits) (lists : List Text) (files : List PackageFile) : Prop :=
  ∀ r ∈ requests bits lists, ∃ p ∈ files, p.dir ∈ r.1 ∧ Finds r.2 p

/-- The installation misses nothing when all requests find a file. -/
theorem couldNotFind_iff {bits : Bits} {lists : List Text}
    (h : ∀ r ∈ requests bits lists, PlainEntry r.2) (files : List PackageFile) :
    (∀ list ∈ lists, couldNotFind bits files list = []) ↔ AllFound bits lists files := by
  have hfound : ∀ r ∈ requests bits lists, (package bits files r ≠ [] ↔
      ∃ p ∈ files, p.dir ∈ r.1 ∧ Finds r.2 p) := fun r hr =>
    package_ne_nil_iff (h r hr) bits files r.1
  have hmem : ∀ list ∈ lists, ∀ r ∈ (master list).filterMap (request bits),
      r ∈ requests bits lists := fun list hlist r hr => List.mem_flatMap.mpr ⟨list, hlist, hr⟩
  unfold couldNotFind
  simp only [List.map_eq_nil_iff, List.filter_eq_nil_iff, decide_eq_true_eq]
  refine ⟨fun hall r hr => ?_, fun hall list hlist r hr => ?_⟩
  · rcases List.mem_flatMap.mp hr with ⟨list, hlist, hr'⟩
    exact (hfound r hr).mp (hall list hlist r hr')
  · exact (hfound r (hmem list hlist r hr)).mpr (hall r (hmem list hlist r hr))

/-! ## All entries -/

/-- Some package file is called like that. -/
def Fits (files : List PackageFile) (name : Text) : Prop := ∃ p ∈ files, Finds name p

/-- One of them lies in a directory that the entry asks for. -/
def InDirs (files : List PackageFile) (r : List PackageDir × Text) : Prop :=
  ∃ p ∈ files, p.dir ∈ r.1 ∧ Finds r.2 p

/-- One of them is not found by any of these items, ignored ones included. -/
def Left (files : List PackageFile) (items : List Text) (name : Text) : Prop :=
  ∃ p ∈ files, Finds name p ∧ ∀ item ∈ items, ¬ Finds (entryName item) p

/-- Each item that is not ignored is left a package by the items in `seen` and those before it. -/
def AllLeftFrom (files : List PackageFile) : List Text → List Text → Prop
  | _, [] => True
  | seen, item :: items =>
    (isIgnore item = false → Left files seen item) ∧ AllLeftFrom files (seen ++ [item]) items

theorem allLeftFrom_append {files : List PackageFile} {seen items items' : List Text} :
    AllLeftFrom files seen (items ++ items') ↔
      AllLeftFrom files seen items ∧ AllLeftFrom files (seen ++ items) items' := by
  induction items generalizing seen with
  | nil => simp [AllLeftFrom]
  | cons item items ih =>
    rw [List.cons_append, AllLeftFrom, AllLeftFrom, ih, and_assoc, List.append_assoc,
      List.singleton_append]

theorem allLeftFrom_of_length {files : List PackageFile} {seen items : List Text}
    (h : items.length ≤ 1) : AllLeftFrom files seen items ↔
      ∀ item ∈ items.filter fun item => !isIgnore item, Left files seen item := by
  cases items with
  | nil => simp [AllLeftFrom]
  | cons item items =>
    obtain rfl : items = [] := List.length_eq_zero_iff.mp (by simpa using h)
    cases hitem : isIgnore item <;> simp [AllLeftFrom, hitem]

/-- All items find their files in order. -/
theorem allLeft_iff {files : List PackageFile} {items : List Text} :
    AllLeft items files ↔ AllLeftFrom files [] items := by
  have hgen : ∀ seen, AllLeftFrom files seen items ↔ ∀ pre item post, items = pre ++ item :: post →
      isIgnore item = false → Left files (seen ++ pre) item := by
    induction items with
    | nil => simp [AllLeftFrom]
    | cons item items ih =>
      intro seen
      rw [AllLeftFrom, ih, forall_split_cons]
      simp only [List.append_nil, List.append_assoc, List.singleton_append]
  rw [hgen []]
  exact Iff.rfl

/-- The entries of all lists. -/
def allEntries (lists : List Text) : List Text := lists.flatMap master

theorem verifyItems_eq (bits : Bits) (lists : List Text) :
    verifyItems bits lists = verifyMaster bits (allEntries lists) := by
  have hnil : verifyMaster bits [] = [] := by cases bits <;> rfl
  induction lists with
  | nil => exact hnil.symm
  | cons list lists ih =>
    have hitems : verifyItems bits (list :: lists) =
        verifyMaster bits (master list) ++ verifyItems bits lists := List.flatMap_cons
    have hentries : allEntries (list :: lists) = master list ++ allEntries lists :=
      List.flatMap_cons
    rw [hitems, ih, hentries, verifyMaster_append]

/-- What `--verify` looks for although the entry does not ask for a package. -/
def strays (bits : Bits) (w : Text) : List Text :=
  if request bits w = none then (verifyMaster bits [w]).filter fun item => !isIgnore item else []

/-- The entry is left a package by those before it. -/
def EntryLeft (bits : Bits) (files : List PackageFile) (before : List Text) (w : Text) : Prop :=
  (∀ r ∈ request bits w, Left files (verifyMaster bits before) r.2) ∧
    ∀ item ∈ strays bits w, Left files (verifyMaster bits before) item

/-- What `--verify` asks for, entry by entry. -/
theorem allLeft_entries_iff {bits : Bits} {files : List PackageFile} {entries : List Text}
    (hsame : ∀ w ∈ entries, SameName bits w) :
    AllLeft (verifyMaster bits entries) files ↔
      ∀ pre w post, entries = pre ++ w :: post → EntryLeft bits files pre w := by
  rw [allLeft_iff]
  have hnil : verifyMaster bits [] = [] := by cases bits <;> rfl
  have hgen : ∀ before, AllLeftFrom files (verifyMaster bits before) (verifyMaster bits entries) ↔
      ∀ pre w post, entries = pre ++ w :: post → EntryLeft bits files (before ++ pre) w := by
    induction entries with
    | nil => simp [hnil, AllLeftFrom]
    | cons w entries ih =>
      intro before
      rw [List.forall_mem_cons] at hsame
      have hw : AllLeftFrom files (verifyMaster bits before) (verifyMaster bits [w]) ↔
          EntryLeft bits files before w := by
        have hname := hsame.1
        unfold SameName at hname
        unfold EntryLeft
        cases hr : request bits w with
        | some r =>
          rw [hr] at hname
          simp [strays, hr, hname.1, hname.2, AllLeftFrom]
        | none =>
          rw [hr] at hname
          simp only [strays, hr, if_true, allLeftFrom_of_length hname, reduceCtorEq,
            Option.mem_def, false_implies, implies_true, true_and]
      rw [show w :: entries = [w] ++ entries from rfl, verifyMaster_append, allLeftFrom_append, hw,
        ← verifyMaster_append, ih hsame.2, List.singleton_append, forall_split_cons]
      simp only [List.append_nil, List.append_assoc, List.singleton_append]
  have hstart := hgen []
  rw [hnil] at hstart
  simpa only [List.nil_append] using hstart

/-! ## Agreement -/

/-- Each package that some file is called like has one in its own directories, and one that no
entry before it finds, and nothing else is looked for that is not there. -/
def Clear (bits : Bits) (files : List PackageFile) (lists : List Text) : Prop :=
  ∀ pre w post, allEntries lists = pre ++ w :: post →
    (∀ r ∈ request bits w, Fits files r.2 →
      InDirs files r ∧ Left files (verifyMaster bits pre) r.2) ∧
    ∀ item ∈ strays bits w, Left files (verifyMaster bits pre) item

/-- Some entry is one that both readers report, because no file is called like it. -/
def Missing (bits : Bits) (files : List PackageFile) (lists : List Text) : Prop :=
  ∃ w ∈ allEntries lists, ∃ r ∈ request bits w, ¬ Fits files r.2

/-- Some entry is reported by the build only, since its packages lie in other directories. -/
def Elsewhere (bits : Bits) (files : List PackageFile) (lists : List Text) : Prop :=
  ∃ w ∈ allEntries lists, ∃ r ∈ request bits w, Fits files r.2 ∧ ¬ InDirs files r

/-- Some entry is reported by `--verify` only, since earlier entries find all of its packages, or
since it does not ask for one. -/
def UsedUp (bits : Bits) (files : List PackageFile) (lists : List Text) : Prop :=
  ∃ pre w post, allEntries lists = pre ++ w :: post ∧
    ((∃ r ∈ request bits w, Fits files r.2 ∧ ¬ Left files (verifyMaster bits pre) r.2) ∨
      ∃ item ∈ strays bits w, ¬ Left files (verifyMaster bits pre) item)

section

variable {bits : Bits} {files : List PackageFile} {lists : List Text}

theorem InDirs.fits {r : List PackageDir × Text} (h : InDirs files r) : Fits files r.2 := by
  obtain ⟨p, hp, -, hfind⟩ := h
  exact ⟨p, hp, hfind⟩

theorem Left.fits {items : List Text} {name : Text} (h : Left files items name) :
    Fits files name := by
  obtain ⟨p, hp, hfind, -⟩ := h
  exact ⟨p, hp, hfind⟩

/-- The build finds every package unless one is missing or elsewhere. -/
theorem allFound_iff : AllFound bits lists files ↔
    ¬ Missing bits files lists ∧ ¬ Elsewhere bits files lists := by
  have hall : AllFound bits lists files ↔
      ∀ w ∈ allEntries lists, ∀ r ∈ request bits w, InDirs files r := by
    unfold AllFound requests allEntries
    simp only [List.mem_flatMap, List.mem_filterMap]
    constructor
    · rintro h w ⟨list, hlist, hw⟩ r hr
      exact h r ⟨list, hlist, w, hw, hr⟩
    · rintro h r ⟨list, hlist, w, hw, hr⟩
      exact h w ⟨list, hlist, hw⟩ r hr
  rw [hall]
  constructor
  · intro h
    refine ⟨?_, ?_⟩
    · rintro ⟨w, hw, r, hr, hfits⟩
      exact hfits (h w hw r hr).fits
    · rintro ⟨w, hw, r, hr, -, hdirs⟩
      exact hdirs (h w hw r hr)
  · rintro ⟨hmissing, helsewhere⟩ w hw r hr
    by_contra hdirs
    by_cases hfits : Fits files r.2
    · exact helsewhere ⟨w, hw, r, hr, hfits, hdirs⟩
    · exact hmissing ⟨w, hw, r, hr, hfits⟩

/-- `--verify` finds every package unless one is missing or used up. -/
theorem allLeft_items_iff (hsame : ∀ w ∈ allEntries lists, SameName bits w) :
    AllLeft (verifyItems bits lists) files ↔
      ¬ Missing bits files lists ∧ ¬ UsedUp bits files lists := by
  rw [verifyItems_eq, allLeft_entries_iff hsame]
  constructor
  · intro h
    refine ⟨?_, ?_⟩
    · rintro ⟨w, hw, r, hr, hfits⟩
      obtain ⟨pre, post, hsplit⟩ := List.append_of_mem hw
      exact hfits ((h pre w post hsplit).1 r hr).fits
    · rintro ⟨pre, w, post, hsplit, ⟨r, hr, -, hleft⟩ | ⟨item, hitem, hleft⟩⟩
      · exact hleft ((h pre w post hsplit).1 r hr)
      · exact hleft ((h pre w post hsplit).2 item hitem)
  · rintro ⟨hmissing, hused⟩ pre w post hsplit
    refine ⟨fun r hr => ?_, fun item hitem => ?_⟩
    · by_contra hleft
      by_cases hfits : Fits files r.2
      · exact hused ⟨pre, w, post, hsplit, .inl ⟨r, hr, hfits, hleft⟩⟩
      · exact hmissing ⟨w, by simp [hsplit], r, hr, hfits⟩
    · by_contra hleft
      exact hused ⟨pre, w, post, hsplit, .inr ⟨item, hitem, hleft⟩⟩

theorem clear_iff : Clear bits files lists ↔
    ¬ Elsewhere bits files lists ∧ ¬ UsedUp bits files lists := by
  constructor
  · intro h
    refine ⟨?_, ?_⟩
    · rintro ⟨w, hw, r, hr, hfits, hdirs⟩
      obtain ⟨pre, post, hsplit⟩ := List.append_of_mem hw
      exact hdirs ((h pre w post hsplit).1 r hr hfits).1
    · rintro ⟨pre, w, post, hsplit, ⟨r, hr, hfits, hleft⟩ | ⟨item, hitem, hleft⟩⟩
      · exact hleft ((h pre w post hsplit).1 r hr hfits).2
      · exact hleft ((h pre w post hsplit).2 item hitem)
  · rintro ⟨helsewhere, hused⟩ pre w post hsplit
    refine ⟨fun r hr hfits => ⟨?_, ?_⟩, fun item hitem => ?_⟩
    · by_contra hdirs
      exact helsewhere ⟨w, by simp [hsplit], r, hr, hfits, hdirs⟩
    · by_contra hleft
      exact hused ⟨pre, w, post, hsplit, .inl ⟨r, hr, hfits, hleft⟩⟩
    · by_contra hleft
      exact hused ⟨pre, w, post, hsplit, .inr ⟨item, hitem, hleft⟩⟩

end

/-- `kde` in `slackware32`. -/
def kdeFile : PackageFile where
  dir := .slackware
  base := "kde-3.5.7-i486-1".toList
  base_char := by decide
  visible := by decide

/-- A list with a comment, a package for each value of `bits`, and a command. -/
def kdeList : Text := "# desktop\n32:kde 64:lib64\nCMD:true\n".toList

/-- `pkgconfig` in `dropline32`. -/
def pkgconfigFile : PackageFile where
  dir := .dropline
  base := "pkgconfig-0.15.0-i686-1dl".toList
  base_char := by decide
  visible := by decide

/-- Two lists with the entry `DROPLINE:pkgconfig`. -/
def pkgconfigLists : List Text :=
  ["DROPLINE:pkgconfig\n".toList, "DROPLINE:pkgconfig\n".toList]

end Backpack.Build
