import Backpack.Boot.ListModulesTheorems

/-!
# Which modules a boot loads

What `list_modules` is for: every module is loaded, except that one in the directory
`optional/` has to be asked for, and `/order.txt` says which ones come first. The script
keeps to that for exactly the media that `Unambiguous` describes.
-/

namespace Backpack.Boot

open Shell

/-- The module should be loaded: outside `optional/`, or asked for. -/
def Wanted (load : Text) (m : Module) : Prop :=
  m.dir ≠ some "optional".toList ∨ load = ['*'] ∨ m.name ∈ load.splitOn ','

instance (load : Text) (m : Module) : Decidable (Wanted load m) :=
  inferInstanceAs (Decidable (_ ∨ _ ∨ _))

/-- The place of a module in `/order.txt`; the modules that are not in it come last. -/
def rank (order : Text) (m : Module) : ℕ := (fileLines order).idxOf m.name

/-- `out` lists the wanted modules of `d`, each once, in the order of `/order.txt`. -/
structure Selects (d : DataDir) (load order out : Text) : Prop where
  only : ∀ p ∈ fileLines out, ∃ m ∈ d.files, p = m.path d.root
  count : ∀ m ∈ d.files, (fileLines out).count (m.path d.root) = if Wanted load m then 1 else 0
  sorted : (fileLines out).Pairwise fun p q => ∀ m ∈ d.files, ∀ m' ∈ d.files,
    p = m.path d.root → q = m'.path d.root → rank order m ≤ rank order m'

/-- The module is named by a last line of `/order.txt` that has no newline: the first loop
does not read that line, the second one finds it. -/
def Unread (order : Text) (m : Module) : Prop := ¬ Terminated order ∧ m.name = lastPiece order

instance (order : Text) (m : Module) : Decidable (Unread order m) :=
  inferInstanceAs (Decidable (_ ∧ _))

/-- The value of `load=` on the kernel command line, empty when there is none. -/
def loadParameter (line : Text) : Text :=
  (((tokens line).filterMap (valueOf "load".toList)).getLast?).getD []

/-- No name gets in the way of the text searches of `list_modules`, of its test and of
`cmdline_value`, which returns what stands behind the last `=` of the value. -/
structure Unambiguous (d : DataDir) (load order : Text) : Prop where
  /-- `optional` does not occur in the path of a module that is elsewhere. -/
  elsewhere : ∀ m ∈ d.files, m.dir ≠ some "optional".toList → load ≠ ['*'] →
    ¬ LeadingOperator (lastValue load) → "optional".toList <:+: m.path d.root →
    Asks (lastValue load) m.name
  /-- All modules of `optional/` are asked for by a value that the test takes for an operator. -/
  unfiltered : LeadingOperator (lastValue load) → ∀ m ∈ d.files,
    m.dir = some "optional".toList → ¬ Unread order m → m.name ∈ load.splitOn ','
  /-- What `egrep` finds of `optional/` in the end of the value is an element of the list. -/
  found : ∀ m ∈ d.files, m.dir = some "optional".toList → load ≠ ['*'] →
    ¬ LeadingOperator (lastValue load) → ¬ Unread order m → Asks (lastValue load) m.name →
    m.name ∈ load.splitOn ','
  /-- An element of the list stands behind the last `=`, where `egrep` finds it. -/
  listed : ∀ m ∈ d.files, m.dir = some "optional".toList → load ≠ ['*'] →
    ¬ LeadingOperator (lastValue load) → m.name ∈ load.splitOn ',' → Asks (lastValue load) m.name
  /-- An unterminated last line does not name a module that is wanted. -/
  terminated : ∀ m ∈ d.files, Unread order m → ¬ Wanted load m

section
variable {d : DataDir} (hd : d.Plain) {load order : Text}
  (hord : ∀ l ∈ fileLines order, PlainName l) (hnodup : (fileLines order).Nodup)

include hord in
/-- On plain lines, the loop reads what the file has. -/
theorem readValues_order : readValues order = readLines order := by
  apply readValues_eq_readLines
  · intro hb
    rcases mem_fileLines_of_mem hb with h | ⟨l, hl, hc⟩
    · exact absurd h (by decide)
    · exact (hord l hl).isWord.no_backslash hc
  · intro l hl
    exact (hord l (List.mem_append_left _ hl)).isWord.noBlank

include hd hord in
/-- The modules that the first loop prints. -/
theorem mem_orderedPaths {p : Text} :
    p ∈ orderedPaths d.root d.files load order ↔ ∃ m ∈ d.files, p = m.path d.root ∧
      m.name ∈ readLines order ∧ drops load p = false := by
  rw [orderedPaths, readValues_order hord]
  simp only [List.mem_flatMap, List.mem_filter, Bool.not_eq_true']
  constructor
  · rintro ⟨l, hl, hp, hdrop⟩
    obtain ⟨m, hm, rfl, rfl⟩ :=
      (mem_lsModules_line hd (hord l (List.mem_append_left _ hl))).mp hp
    exact ⟨m, hm, rfl, hl, hdrop⟩
  · rintro ⟨m, hm, rfl, hl, hdrop⟩
    exact ⟨m.name, hl,
      (mem_lsModules_line hd (hord _ (List.mem_append_left _ hl))).mpr ⟨m, hm, rfl, rfl⟩, hdrop⟩

include hd in
/-- The modules that the second loop prints. -/
theorem mem_otherPaths {p : Text} :
    p ∈ otherPaths d.root d.files load order ↔ ∃ m ∈ d.files, p = m.path d.root ∧
      m.name ∉ fileLines order ∧ drops load p = false := by
  rw [otherPaths]
  simp only [List.mem_filter, Bool.and_eq_true, Bool.not_eq_true']
  constructor
  · rintro ⟨hp, hin, hdrop⟩
    obtain ⟨m, hm, rfl⟩ := (mem_lsModules_all hd).mp hp
    refine ⟨m, hm, rfl, fun h => ?_, hdrop⟩
    rw [(inOrder_iff hm (hd.name m hm).1 (hd.name m hm).2).mpr h] at hin
    exact absurd hin (by decide)
  · rintro ⟨m, hm, rfl, hnot, hdrop⟩
    refine ⟨(mem_lsModules_all hd).mpr ⟨m, hm, rfl⟩, ?_, hdrop⟩
    rw [← Bool.not_eq_true, inOrder_iff hm (hd.name m hm).1 (hd.name m hm).2]
    exact hnot

include hnodup in
/-- The two loops together miss only the module of an unterminated last line. -/
theorem reached_iff (m : Module) :
    m.name ∈ readLines order ∨ m.name ∉ fileLines order ↔ ¬ Unread order m := by
  by_cases ht : Terminated order
  · rw [fileLines_of_terminated ht]
    simp [Unread, ht, em]
  · rw [fileLines_of_not_terminated ht] at hnodup ⊢
    have hlast : lastPiece order ∉ readLines order := fun h =>
      (List.nodup_append.mp hnodup).2.2 _ h _ (List.mem_singleton_self _) rfl
    by_cases hm : m.name = lastPiece order
    · simp [Unread, ht, hm, hlast]
    · simp [Unread, ht, hm, em]

include hd hord hnodup in
/-- A path is printed when its module is not dropped and some line or the second loop reads it. -/
theorem mem_printedPaths {p : Text} :
    p ∈ printedPaths d.root d.files load order ↔ ∃ m ∈ d.files, p = m.path d.root ∧
      drops load p = false ∧ ¬ Unread order m := by
  rw [printedPaths, List.mem_append, mem_orderedPaths hd hord, mem_otherPaths hd]
  constructor
  · rintro (⟨m, hm, hp, hl, hdrop⟩ | ⟨m, hm, hp, hl, hdrop⟩)
    · exact ⟨m, hm, hp, hdrop, (reached_iff hnodup m).mp (Or.inl hl)⟩
    · exact ⟨m, hm, hp, hdrop, (reached_iff hnodup m).mp (Or.inr hl)⟩
  · rintro ⟨m, hm, hp, hdrop, hl⟩
    rcases (reached_iff hnodup m).mpr hl with h | h
    · exact Or.inl ⟨m, hm, hp, h, hdrop⟩
    · exact Or.inr ⟨m, hm, hp, h, hdrop⟩

include hd hord hnodup in
/-- No path is printed twice. -/
theorem nodup_printedPaths : (printedPaths d.root d.files load order).Nodup := by
  have hread : (readLines order).Nodup := hnodup.sublist (List.sublist_append_left _ _)
  refine List.nodup_append.mpr ⟨?_, (nodup_lsModules _).filter _, ?_⟩
  · rw [orderedPaths, readValues_order hord, List.nodup_flatMap]
    refine ⟨fun l _ => (nodup_lsModules _).filter _, hread.imp_of_mem ?_⟩
    intro a b ha hb hab p hpa hpb
    obtain ⟨m, hm, rfl, rfl⟩ := (mem_lsModules_line hd
      (hord a (List.mem_append_left _ ha))).mp (List.mem_of_mem_filter hpa)
    obtain ⟨m', hm', hp, rfl⟩ := (mem_lsModules_line hd
      (hord b (List.mem_append_left _ hb))).mp (List.mem_of_mem_filter hpb)
    exact hab (congrArg Module.name (d.path_injective hm hm' hp))
  · rintro p hp q hq rfl
    obtain ⟨m, hm, rfl, hl, -⟩ := (mem_orderedPaths hd hord).mp hp
    obtain ⟨m', hm', hpq, hl', -⟩ := (mem_otherPaths hd).mp hq
    rw [← d.path_injective hm hm' hpq] at hl'
    exact hl' (List.mem_append_left _ hl)

/-- In a list without repetitions the places ascend. -/
theorem pairwise_idxOf {ls : List Text} (h : ls.Nodup) :
    ls.Pairwise fun a b => ls.idxOf a < ls.idxOf b := by
  rw [List.pairwise_iff_getElem]
  intro i j hi hj hij
  rw [h.idxOf_getElem, h.idxOf_getElem]
  exact hij

include hd hord hnodup in
/-- The paths come in the order of the lines. -/
theorem sorted_printedPaths : (printedPaths d.root d.files load order).Pairwise fun p q =>
    ∀ m ∈ d.files, ∀ m' ∈ d.files, p = m.path d.root → q = m'.path d.root →
      rank order m ≤ rank order m' := by
  refine List.pairwise_append.mpr ⟨?_, List.pairwise_iff_forall_sublist.mpr ?_, ?_⟩
  · rw [orderedPaths, readValues_order hord, List.pairwise_flatMap]
    -- inside one line all modules have the same name, across lines the names ascend
    refine ⟨fun l hl => List.pairwise_iff_forall_sublist.mpr ?_, ?_⟩
    · intro p q hpq m hm m' hm' hp hq
      have hline := hord l (List.mem_append_left _ hl)
      have hname : ∀ {r : Text} {n : Module}, n ∈ d.files → r = n.path d.root →
          r ∈ (lsModules d.root d.files (l ++ ".mo".toList)).filter (fun p => !drops load p) →
          n.name = l := by
        intro r n hn hr hmem
        obtain ⟨k, hk, hkr, rfl⟩ :=
          (mem_lsModules_line hd hline).mp (List.mem_of_mem_filter hmem)
        rw [d.path_injective hn hk (hr.symm.trans hkr)]
      rw [rank, rank, hname hm hp (hpq.subset (by simp)), hname hm' hq (hpq.subset (by simp))]
    · have hsub : (readLines order).Pairwise fun a b =>
          (fileLines order).idxOf a < (fileLines order).idxOf b :=
        (pairwise_idxOf hnodup).sublist (List.sublist_append_left _ _)
      refine hsub.imp_of_mem ?_
      intro a b ha hb hab p hpa q hqb m hm m' hm' hp hq
      obtain ⟨k, hk, hkp, rfl⟩ := (mem_lsModules_line hd
        (hord a (List.mem_append_left _ ha))).mp (List.mem_of_mem_filter hpa)
      obtain ⟨k', hk', hkq, rfl⟩ := (mem_lsModules_line hd
        (hord b (List.mem_append_left _ hb))).mp (List.mem_of_mem_filter hqb)
      rw [rank, rank, d.path_injective hm hk (hp.symm.trans hkp),
        d.path_injective hm' hk' (hq.symm.trans hkq)]
      exact hab.le
  · intro p q hpq m hm m' hm' hp hq
    obtain ⟨k, hk, hkp, hl, -⟩ := (mem_otherPaths hd).mp (hpq.subset (by simp : p ∈ [p, q]))
    obtain ⟨k', hk', hkq, hl', -⟩ := (mem_otherPaths hd).mp (hpq.subset (by simp : q ∈ [p, q]))
    rw [rank, rank, d.path_injective hm hk (hp.symm.trans hkp),
      d.path_injective hm' hk' (hq.symm.trans hkq), List.idxOf_of_notMem hl,
      List.idxOf_of_notMem hl']
  · intro p hp q hq m hm m' hm' hpm hqm
    obtain ⟨k', hk', hkq, hl', -⟩ := (mem_otherPaths hd).mp hq
    rw [rank, rank, d.path_injective hm' hk' (hqm.symm.trans hkq), List.idxOf_of_notMem hl']
    exact List.idxOf_le_length

/-! ## When the selection is the intended one -/

include hd hord hnodup in
/-- A module is printed once or not at all. -/
theorem count_listModulesFor {m : Module} (hm : m ∈ d.files) :
    (fileLines (listModulesFor d.root d.files load order)).count (m.path d.root) =
      if drops load (m.path d.root) = false ∧ ¬ Unread order m then 1 else 0 := by
  rw [d.fileLines_listModulesFor]
  have hmem : m.path d.root ∈ printedPaths d.root d.files load order ↔
      drops load (m.path d.root) = false ∧ ¬ Unread order m := by
    rw [mem_printedPaths hd hord hnodup]
    constructor
    · rintro ⟨k, hk, hp, h⟩
      obtain rfl := d.path_injective hm hk hp
      exact h
    · intro h
      exact ⟨m, hm, rfl, h⟩
  split_ifs with h
  · exact List.count_eq_one_of_mem (nodup_printedPaths hd hord hnodup) (hmem.mpr h)
  · exact List.count_eq_zero.mpr fun hp => h (hmem.mp hp)

/-- A module under optional has the word in its path. -/
theorem optional_infix_path {m : Module} (hdir : m.dir = some "optional".toList) :
    "optional".toList <:+: m.path d.root :=
  ⟨d.root ++ ['/'], '/' :: m.fileName, by simp [Module.path, hdir]⟩

include hd hord hnodup in
/-- The selection is the intended one when exactly the wanted modules are printed. -/
theorem selects_iff {wanted : Text} :
    Selects d wanted order (listModulesFor d.root d.files load order) ↔ ∀ m ∈ d.files,
      (drops load (m.path d.root) = false ∧ ¬ Unread order m ↔ Wanted wanted m) := by
  constructor
  · intro h m hm
    have hcount := h.count m hm
    rw [count_listModulesFor hd hord hnodup hm] at hcount
    by_cases hprinted : drops load (m.path d.root) = false ∧ ¬ Unread order m
    · by_cases hwant : Wanted wanted m
      · exact ⟨fun _ => hwant, fun _ => hprinted⟩
      · rw [if_pos hprinted, if_neg hwant] at hcount
        omega
    · by_cases hwant : Wanted wanted m
      · rw [if_neg hprinted, if_pos hwant] at hcount
        omega
      · exact ⟨fun h => absurd h hprinted, fun h => absurd h hwant⟩
  · intro h
    refine ⟨?_, ?_, ?_⟩
    · intro p hp
      rw [d.fileLines_listModulesFor] at hp
      obtain ⟨m, hm, hpm, -⟩ := (mem_printedPaths hd hord hnodup).mp hp
      exact ⟨m, hm, hpm⟩
    · intro m hm
      rw [count_listModulesFor hd hord hnodup hm]
      simp only [h m hm]
    · rw [d.fileLines_listModulesFor]
      exact sorted_printedPaths hd hord hnodup

end

/-! ## What is left of the value of `load=` -/

/-- `LOAD` is the end of the value. -/
theorem loadOption_eq {line t : Text} (ht : OneLine line t) :
    loadOption t = lastValue (loadParameter line) := by
  rw [loadOption, cmdlineValue_eq (by decide) ht, loadParameter]
  cases ((tokens line).filterMap (valueOf "load".toList)).getLast? with
  | none => rfl
  | some v => rfl

theorem mem_lastValue {t : Text} {c : Char} (hc : c ∈ lastValue t) : c ∈ t := by
  by_cases h : '=' ∈ t
  · obtain ⟨a, ha, -⟩ := eq_append_lastValue h
    rw [ha]
    simp [hc]
  · rwa [lastValue_eq_self_iff.mpr h] at hc

section
variable {d : DataDir} (hd : d.Plain) {load order : Text} (hload : PlainLoad load)
include hload

/-- The last value of a plain load is plain. -/
theorem PlainLoad.last : PlainLoad (lastValue load) := by
  rcases hload with rfl | h
  · exact Or.inl rfl
  · exact Or.inr fun c hc => h c (mem_lastValue hc)

/-- A load is the star when its last value is. -/
theorem lastValue_eq_star_iff : lastValue load = ['*'] ↔ load = ['*'] := by
  constructor
  · intro h
    refine hload.resolve_right fun hplain => ?_
    exact absurd (hplain '*' (mem_lastValue (by simp [h]))) (by decide)
  · rintro rfl
    rfl

include hd

/-- The modules that are dropped, in terms of the value of `load=`. -/
theorem drops_lastValue_iff {m : Module} (hm : m ∈ d.files) :
    drops (lastValue load) (m.path d.root) = true ↔ ¬ LeadingOperator (lastValue load) ∧
      load ≠ ['*'] ∧ "optional".toList <:+: m.path d.root ∧ ¬ Asks (lastValue load) m.name := by
  rw [drops_iff hd hload.last hm, ne_eq, lastValue_eq_star_iff hload]

/-! ## When the selection is the intended one -/

/-- Without ambiguous names a module is printed when it is wanted. -/
theorem Unambiguous.printed_iff (h : Unambiguous d load order) {m : Module} (hm : m ∈ d.files) :
    drops (lastValue load) (m.path d.root) = false ∧ ¬ Unread order m ↔ Wanted load m := by
  rw [← Bool.not_eq_true, drops_lastValue_iff hd hload hm]
  constructor
  · intro hprinted
    obtain ⟨hkeep, hread⟩ := hprinted
    by_contra hwant
    simp only [Wanted, not_or, not_not] at hwant
    obtain ⟨hdir, hstar, hlist⟩ := hwant
    by_cases hop : LeadingOperator (lastValue load)
    · exact hlist (h.unfiltered hop m hm hdir hread)
    · exact hkeep ⟨hop, hstar, optional_infix_path hdir,
        fun hask => hlist (h.found m hm hdir hstar hop hread hask)⟩
  · intro hwant
    refine ⟨?_, fun hunread => h.terminated m hm hunread hwant⟩
    rintro ⟨hop, hstar, hopt, hask⟩
    by_cases hdir : m.dir = some "optional".toList
    · rcases hwant with hw | hw | hw
      · exact hw hdir
      · exact hstar hw
      · exact hask (h.listed m hm hdir hstar hop hw)
    · exact hask (h.elsewhere m hm hdir hstar hop hopt)

/-- When the wanted modules are printed, no name of them is ambiguous. -/
theorem unambiguous_of_printed_iff (h : ∀ m ∈ d.files,
    (drops (lastValue load) (m.path d.root) = false ∧ ¬ Unread order m ↔ Wanted load m)) :
    Unambiguous d load order := by
  have hkept : ∀ {m : Module}, m ∈ d.files → Wanted load m → ¬ LeadingOperator (lastValue load) →
      load ≠ ['*'] → "optional".toList <:+: m.path d.root → Asks (lastValue load) m.name := by
    intro m hm hwant hop hstar hopt
    by_contra hask
    have hkeep := ((h m hm).mpr hwant).1
    rw [(drops_lastValue_iff hd hload hm).mpr ⟨hop, hstar, hopt, hask⟩] at hkeep
    exact absurd hkeep (by decide)
  -- what is read and not dropped is an element of the list
  have helement : ∀ {m : Module}, m ∈ d.files → m.dir = some "optional".toList →
      load ≠ ['*'] → ¬ Unread order m → ¬ drops (lastValue load) (m.path d.root) = true →
      m.name ∈ load.splitOn ',' := by
    intro m hm hdir hstar hread hkeep
    rcases (h m hm).mp ⟨by simpa using hkeep, hread⟩ with hw | hw | hw
    · exact absurd hdir hw
    · exact absurd hw hstar
    · exact hw
  refine ⟨?_, ?_, ?_, ?_, ?_⟩
  · intro m hm hdir hstar hop hopt
    exact hkept hm (Or.inl hdir) hop hstar hopt
  · intro hop m hm hdir hread
    have hstar : load ≠ ['*'] := by
      rintro rfl
      exact absurd hop (by decide)
    refine helement hm hdir hstar hread ?_
    rw [drops_lastValue_iff hd hload hm]
    exact fun hdrop => hdrop.1 hop
  · intro m hm hdir hstar hop hread hask
    refine helement hm hdir hstar hread ?_
    rw [drops_lastValue_iff hd hload hm]
    exact fun hdrop => hdrop.2.2.2 hask
  · intro m hm hdir hstar hop hlist
    exact hkept hm (Or.inr (Or.inr hlist)) hop hstar (optional_infix_path hdir)
  · intro m hm hunread hwant
    exact ((h m hm).mpr hwant).2 hunread

end

/-- `list_modules` prints the wanted modules, each once and in the order of `/order.txt`,
exactly for the media, orders and values of `load=` without ambiguous names. -/
theorem listModules_selects_iff {d : DataDir} (hd : d.Plain) {line cmdline order : Text}
    (hline : OneLine line cmdline) (hload : PlainLoad (loadParameter line))
    (hord : ∀ l ∈ fileLines order, PlainName l) (hnodup : (fileLines order).Nodup) :
    Selects d (loadParameter line) order (listModules d.root d.files cmdline order) ↔
      Unambiguous d (loadParameter line) order := by
  rw [listModules, loadOption_eq hline, selects_iff hd hord hnodup]
  constructor
  · intro h
    exact unambiguous_of_printed_iff hd hload h
  · intro h m hm
    exact h.printed_iff hd hload hm

/-- A module of `optional/` that has to be asked for. -/
def kdeModule : Module := ⟨some "optional".toList, "kde".toList⟩

def kdeMedium : DataDir where
  root := "/mnt/hdc".toList
  files := [⟨some "base".toList, "required".toList⟩, kdeModule]
  nodup := by decide
  root_abs := rfl
  root_word := by decide
  dir_word := by decide
  name_word := by decide

def kdeOrder : Text := unlines ["required".toList]

/-- On the KDE medium nothing is ambiguous. -/
theorem kdeMedium_unambiguous : Unambiguous kdeMedium "kde".toList kdeOrder := by
  have hop : ¬ LeadingOperator (lastValue "kde".toList) := by decide
  have hlist : "kde".toList ∈ "kde".toList.splitOn ',' := by decide
  have hasks : Asks (lastValue "kde".toList) "kde".toList :=
    ⟨(mem_splitOn_iff.mp hlist).1, by decide⟩
  have honly : ∀ m ∈ kdeMedium.files, m.dir = some "optional".toList → m = kdeModule := by decide
  refine ⟨?_, fun hlead => absurd hlead hop, ?_, ?_, ?_⟩
  · intro m hm hdir _ _ hopt
    have hno : ∀ m ∈ kdeMedium.files, m.dir ≠ some "optional".toList →
        ¬ "optional".toList <:+: m.path kdeMedium.root := by decide
    exact absurd hopt (hno m hm hdir)
  · intro m hm hdir _ _ _ _
    rw [honly m hm hdir]
    exact hlist
  · intro m hm hdir _ _ _
    rw [honly m hm hdir]
    exact hasks
  · intro m _ hunread
    have hterm : Terminated kdeOrder := by decide
    exact absurd hterm hunread.1

/-- Booted with `load=kde` the medium is loaded as a whole. -/
theorem kdeMedium_selects :
    Selects kdeMedium "kde".toList kdeOrder
      (listModules kdeMedium.root kdeMedium.files "quiet load=kde\n".toList kdeOrder) := by
  have hlines : fileLines kdeOrder = ["required".toList] := fileLines_unlines (by decide)
  have hline : OneLine "quiet load=kde".toList "quiet load=kde\n".toList := by decide
  have hvalue : loadParameter "quiet load=kde".toList = "kde".toList := by decide
  have hload : PlainLoad (loadParameter "quiet load=kde".toList) := by
    rw [hvalue]
    exact Or.inr (by decide)
  have hselects := listModules_selects_iff (d := kdeMedium) ⟨by decide, by decide⟩ hline hload
    (hlines ▸ by decide) (hlines ▸ by decide : (fileLines kdeOrder).Nodup)
  rw [hvalue] at hselects
  exact hselects.mpr kdeMedium_unambiguous

/-! ## A module that is never loaded -/

/-- A module of `base/` whose name contains the word that the script looks for. -/
def gnomeOptional : Module := ⟨some "base".toList, "gnome-optional".toList⟩

def gnomeMedium : DataDir where
  root := "/mnt/hdc".toList
  files := [⟨some "base".toList, "required".toList⟩, gnomeOptional]
  nodup := by decide
  root_abs := rfl
  root_word := by decide
  dir_word := by decide
  name_word := by decide

def gnomeOrder : Text := unlines ["required".toList, gnomeOptional.name]

theorem gnomeMedium_plain : gnomeMedium.Plain := ⟨by decide, by decide⟩

theorem plainLoad_nil : PlainLoad [] := Or.inr (by decide)

theorem fileLines_gnomeOrder : fileLines gnomeOrder = ["required".toList, gnomeOptional.name] :=
  fileLines_unlines (by decide)

theorem gnomeOrder_plain : ∀ l ∈ fileLines gnomeOrder, PlainName l := by
  rw [fileLines_gnomeOrder]
  decide

theorem gnomeOrder_nodup : (fileLines gnomeOrder).Nodup := by
  rw [fileLines_gnomeOrder]
  decide

/-- `gnome-optional` in `base/` is never loaded without `load=`, although it is not in
`optional/`. -/
theorem listModules_not_selects :
    ¬ ∀ (d : DataDir) (line cmdline order : Text), d.Plain → OneLine line cmdline →
      PlainLoad (loadParameter line) → (∀ l ∈ fileLines order, PlainName l) →
      (fileLines order).Nodup →
      Selects d (loadParameter line) order (listModules d.root d.files cmdline order) := by
  intro h
  have hm : gnomeOptional ∈ gnomeMedium.files := by decide
  have hline : OneLine [] [] := by decide
  have hvalue : loadParameter [] = [] := by decide
  have hcount := (h gnomeMedium [] [] gnomeOrder gnomeMedium_plain hline
    (hvalue ▸ plainLoad_nil) gnomeOrder_plain gnomeOrder_nodup).count gnomeOptional hm
  have hdrop : drops [] (gnomeOptional.path gnomeMedium.root) = true := by
    rw [drops_iff gnomeMedium_plain plainLoad_nil hm]
    refine ⟨by decide, by decide, ⟨"/mnt/hdc/base/gnome-".toList, ".mo".toList, rfl⟩,
      fun hask => ?_⟩
    exact absurd (delimited_nil hask.1) (by decide)
  rw [listModules, loadOption_eq hline, hvalue, show lastValue [] = [] from rfl,
    count_listModulesFor gnomeMedium_plain gnomeOrder_plain gnomeOrder_nodup hm, hdrop] at hcount
  revert hcount
  decide

end Backpack.Boot
