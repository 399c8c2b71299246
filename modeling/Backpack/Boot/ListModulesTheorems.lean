import Backpack.Boot.ListModules
import Backpack.Shell.RegexTheorems

/-!
# What `list_modules` prints

First the output as a list of paths, for any names. Then, for names made of ordinary
characters, which modules are in it: the selection that the comments of `init` and
`liblinuxlive` describe is the one made exactly when no name or path runs into the three
text searches of the script.
-/

namespace Backpack.Boot

open Shell

/-! ## The test for optional modules -/

/-- What `grep optional` prints is not an operator of `test`. -/
theorem not_leadingOperator_optional (file : Text) :
    ¬ LeadingOperator (captured (unlines (grep .basic "optional".toList file))) := by
  have hchar : ∀ t, LeadingOperator t → t ∈ "!".toList :: "(".toList :: unaryOps := by
    intro t ht
    unfold LeadingOperator tLex at ht
    split_ifs at ht with hunary hbinary hnot hand hor hparen hclose <;> simp_all
  have hletter : ∀ t ∈ "!".toList :: "(".toList :: unaryOps, 'i' ∉ t ∧ t ≠ [] := by decide
  intro hlead
  obtain ⟨hi, hne⟩ := hletter _ (hchar _ hlead)
  rw [ne_eq, captured_grep_eq_nil_iff, Bool.not_eq_true, noOutput_eq_false_iff] at hne
  obtain ⟨l, hl, -⟩ := hne
  have hinfix : "optional".toList <:+: l :=
    (grepLine_ordinary (by simp [Flavour.ordinary]) l).mp (List.mem_filter.mp hl).2
  refine hi (mem_captured (List.mem_flatMap.mpr ⟨l, hl, ?_⟩) (by decide))
  exact List.mem_append_left _ ( hinfix.subset (by decide))

/-- A line is passed over when `LOAD` is no operator and no star, and the first search finds
something and the second one nothing. -/
theorem busyboxTest_skipOperands {sys : SystemTests} {load line modname : Text} :
    busyboxTest sys (skipOperands load line modname) = some true ↔
      ¬ LeadingOperator load ∧ load ≠ ['*'] ∧
        noOutput (grep .basic "optional".toList (echo (words line))) = false ∧
        noOutput (grep .extended ("(^|,)".toList ++ modname ++ "($|,)".toList)
          (echo (words load))) = true := by
  rw [skipOperands, busyboxTest_iff (by decide) (not_leadingOperator_optional _), ne_eq _ [],
    captured_grep_eq_nil_iff, captured_grep_eq_nil_iff, Bool.not_eq_true]

/-- When the loop passes a module over. -/
theorem skipped_iff {load line modname : Text} : skipped load line modname = true ↔
    ¬ LeadingOperator load ∧ load ≠ ['*'] ∧
      noOutput (grep .basic "optional".toList (echo (words line))) = false ∧
      noOutput (grep .extended ("(^|,)".toList ++ modname ++ "($|,)".toList)
        (echo (words load))) = true := by
  rw [skipped, beq_iff_eq, busyboxTest_skipOperands]

/-- Whatever the system answers, the same lines are passed over. -/
theorem skipped_system (sys : SystemTests) (load line modname : Text) :
    skipped load line modname = (busyboxTest sys (skipOperands load line modname) == some true) := by
  rw [Bool.eq_iff_iff, skipped_iff, beq_iff_eq, busyboxTest_skipOperands]

/-! ## The output as a list of paths -/

/-- The module is dropped by the test for optional modules. -/
def drops (load path : Text) : Bool := skipped load path (modName path)

/-- The second loop leaves this module to the first one. -/
def inOrder (order path : Text) : Bool :=
  !noOutput (grep .basic ('^' :: (modName path ++ ['$'])) order)

/-- The paths that the first loop prints. -/
def orderedPaths (root : Text) (files : List Module) (load order : Text) : List Text :=
  (readValues order).flatMap fun line =>
    (lsModules root files (line ++ ".mo".toList)).filter fun p => !drops load p

/-- The paths that the second loop prints. -/
def otherPaths (root : Text) (files : List Module) (load order : Text) : List Text :=
  (lsModules root files "*.mo".toList).filter fun p => !inOrder order p && !drops load p

def printedPaths (root : Text) (files : List Module) (load order : Text) : List Text :=
  orderedPaths root files load order ++ otherPaths root files load order

/-- ls gives the files in the directory or one below that match. -/
theorem mem_lsModules {root : Text} {files : List Module} {pat p : Text} :
    p ∈ lsModules root files pat ↔ ∃ m ∈ files, p = m.path root ∧
      pathMatch pat m.fileName = true ∧ m.dir.all (pathMatch ['*']) = true := by
  rw [lsModules, (lsSort_perm _).mem_iff]
  simp only [List.mem_map, List.mem_filter, Bool.and_eq_true]
  constructor
  · rintro ⟨m, ⟨hm, h⟩, rfl⟩
    exact ⟨m, hm, rfl, h⟩
  · rintro ⟨m, hm, rfl, h⟩
    exact ⟨m, ⟨hm, h⟩, rfl⟩

/-- A loop that echoes some of the paths it reads. -/
theorem flatMap_echo {ps : List Text} (h : ∀ p ∈ ps, IsWord p ∧ '/' ∈ p) (b : Text → Bool) :
    (ps.flatMap fun p => if b p then [] else echo (words p)) =
      unlines (ps.filter fun p => !b p) := by
  induction ps with
  | nil => rfl
  | cons p ps ih =>
    obtain ⟨hw, hs⟩ := h p (by simp)
    have hecho : echo (words p) = p ++ ['\n'] := by
      rw [words_of_noBlank hw.noBlank (List.ne_nil_of_mem hs),
        echo_singleton (isEchoOption_of_slash hs)]
    rw [List.flatMap_cons, ih fun q hq => h q (by simp [hq])]
    cases hb : b p with
    | true => simp [hb]
    | false => simp [hb, hecho, unlines]

namespace DataDir

variable (d : DataDir) (load order : Text)

/-- Each path is a word with a slash. -/
theorem lsModules_word (pat : Text) : ∀ p ∈ lsModules d.root d.files pat, IsWord p ∧ '/' ∈ p := by
  intro p hp
  obtain ⟨m, hm, rfl, -⟩ := mem_lsModules.mp hp
  exact ⟨d.isWord_path hm, Module.slash_mem_path d.root m⟩

/-- `list_modules` prints one path a line. -/
theorem listModulesFor_eq :
    listModulesFor d.root d.files load order =
      unlines (printedPaths d.root d.files load order) := by
  have hfirst : ∀ line, (whileRead (unlines (lsModules d.root d.files (line ++ ".mo".toList)))
      fun line => if skipped load line (modName line) then [] else echo (words line)) =
      unlines ((lsModules d.root d.files (line ++ ".mo".toList)).filter
        fun p => !drops load p) := by
    intro line
    rw [whileRead_unlines fun p hp => (d.lsModules_word _ p hp).1]
    exact flatMap_echo (d.lsModules_word _) (drops load)
  have hsecond : (whileRead (unlines (lsModules d.root d.files "*.mo".toList)) fun line =>
      if !noOutput (grep .basic ('^' :: (modName line ++ ['$'])) order) then []
      else if skipped load line (modName line) then []
      else echo (words line)) = unlines (otherPaths d.root d.files load order) := by
    rw [whileRead_unlines fun p hp => (d.lsModules_word _ p hp).1, otherPaths]
    have h := flatMap_echo (d.lsModules_word "*.mo".toList) fun p => inOrder order p || drops load p
    simp only [Bool.not_or] at h
    rw [← h]
    congr 1
    funext p
    show (if inOrder order p = true then _ else if drops load p = true then _ else _) = _
    cases inOrder order p <;> cases drops load p <;> rfl
  rw [listModulesFor, hsecond, whileRead, printedPaths, unlines_append, orderedPaths,
    ← unlines_flatMap]
  congr 2
  funext line
  exact hfirst line

/-- So is each path that is printed. -/
theorem printedPaths_word : ∀ p ∈ printedPaths d.root d.files load order, IsWord p ∧ '/' ∈ p := by
  intro p hp
  rcases List.mem_append.mp hp with h | h
  · obtain ⟨l, -, hl⟩ := List.mem_flatMap.mp h
    exact d.lsModules_word _ p (List.mem_of_mem_filter hl)
  · exact d.lsModules_word _ p (List.mem_of_mem_filter h)

/-- The output has one path on each line. -/
theorem fileLines_listModulesFor :
    fileLines (listModulesFor d.root d.files load order) =
      printedPaths d.root d.files load order := by
  obtain ⟨hr, ht⟩ := pieces_unlines fun p hp =>
    (d.printedPaths_word load order p hp).1.no_newline
  rw [listModulesFor_eq, fileLines_of_terminated ht, hr]

end DataDir

/-! ## Names of ordinary characters -/

/-- A character that is neither blank nor special in patterns, and can stand in a file
name. -/
def nameChar (c : Char) : Bool :=
  !isBlank c && c ∉ ['/', '.', '*', '+', '?', '^', '$', '(', ')', '[', ']', '{', '}', '|', '\\']

def PlainName (t : Text) : Prop := ∀ c ∈ t, nameChar c = true

instance (t : Text) : Decidable (PlainName t) := inferInstanceAs (Decidable (∀ c ∈ t, _))

/-- What a character of a name is not. -/
theorem nameChar_spec {c : Char} (h : nameChar c = true) :
    isBlank c = false ∧ globOrdinary c = true ∧ c ≠ '/' ∧ c ≠ '.' ∧
      Flavour.basic.ordinary c = true ∧ Flavour.extended.ordinary c = true := by
  simp only [nameChar, Bool.and_eq_true, Bool.not_eq_true', decide_eq_true_eq, List.mem_cons,
    List.not_mem_nil, or_false, not_or] at h
  simp [globOrdinary, Flavour.ordinary, h]

section
variable {t : Text} (h : PlainName t)
include h

theorem PlainName.isWord : IsWord t := fun c hc =>
  ⟨(nameChar_spec (h c hc)).1, (nameChar_spec (h c hc)).2.1⟩

theorem PlainName.no_slash : '/' ∉ t := fun hc => absurd (h _ hc) (by decide)

theorem PlainName.no_dot : '.' ∉ t := fun hc => absurd (h _ hc) (by decide)

theorem PlainName.ordinary (fl : Flavour) : ∀ c ∈ t, fl.ordinary c = true := by
  intro c hc
  cases fl
  · exact (nameChar_spec (h c hc)).2.2.2.2.1
  · exact (nameChar_spec (h c hc)).2.2.2.2.2

end

/-- All names are free of blanks and special characters. -/
structure DataDir.Plain (d : DataDir) : Prop where
  name : ∀ m ∈ d.files, PlainName m.name ∧ m.name ≠ []
  dir : ∀ m ∈ d.files, ∀ e ∈ m.dir, PlainName e ∧ e ≠ []

/-- `basename` sees the file name only. -/
theorem modName_fileName {d : DataDir} {m : Module} (hm : m ∈ d.files) :
    modName (m.path d.root) = stripSuffix ".mo".toList m.fileName := by
  obtain ⟨p, hp, hpn, hps⟩ := Module.path_eq d.root m
  have hopt : isOption (m.path d.root) = false := by
    have hhead : (m.path d.root).head? = some '/' := by
      have hroot := d.root_abs
      cases hr : d.root with
      | nil => simp [hr] at hroot
      | cons c r =>
        have hc : c = '/' := by simpa [hr] using hroot
        cases hdir : m.dir <;> simp [Module.path, hdir, hc]
    simp [isOption, hhead]
  rw [modName, basename_words_suffix (d.isWord_path hm).noBlank (Module.path_ne_nil d.root m) hopt,
    hp, lastComponent_append (d.slash_not_mem_fileName hm) (Module.fileName_ne_nil m)]

/-- The name of a module is found from its path. -/
theorem modName_path {d : DataDir} {m : Module} (hm : m ∈ d.files) (hne : m.name ≠ []) :
    modName (m.path d.root) = m.name := by
  rw [modName_fileName hm]
  exact stripSuffix_append hne

/-- A plain name is not hidden, so its match is that of the pattern. -/
theorem pathMatch_of_plain {pat name suffix : Text} (hp : PlainName name) (hne : name ≠ []) :
    pathMatch pat (name ++ suffix) = globMatch pat (name ++ suffix) := by
  cases name with
  | nil => exact absurd rfl hne
  | cons c n =>
    have hc : c ≠ '.' := fun h => hp.no_dot (by simp [h])
    simp [pathMatch, hc]

/-- In `line.mo` a plain line stands for itself. -/
theorem pathMatch_line {line : Text} (hl : PlainName line) {m : Module} (hp : PlainName m.name)
    (hne : m.name ≠ []) : pathMatch (line ++ ".mo".toList) m.fileName = true ↔ m.name = line := by
  have hord : ∀ c ∈ line ++ ".mo".toList, globOrdinary c = true := fun c hc =>
    (hl.isWord.append isWord_mo c hc).2
  rw [Module.fileName, pathMatch_of_plain hp hne, globMatch_ordinary hord, List.append_left_inj]

/-- Every module file is found. -/
theorem pathMatch_all {m : Module} (hp : PlainName m.name) (hne : m.name ≠ []) :
    pathMatch "*.mo".toList m.fileName = true := by
  have hord : ∀ c ∈ ".mo".toList, globOrdinary c = true := fun c hc => (isWord_mo c hc).2
  rw [Module.fileName, pathMatch_of_plain hp hne]
  exact (globMatch_many_ordinary hord).mpr (List.suffix_append _ _)

/-- Every directory is looked into. -/
theorem dirMatch {d : DataDir} (hd : d.Plain) {m : Module} (hm : m ∈ d.files) :
    m.dir.all (pathMatch ['*']) = true := by
  cases he : m.dir with
  | none => rfl
  | some e =>
    obtain ⟨hp, hne⟩ := hd.dir m hm e he
    have hmatch := @pathMatch_of_plain ['*'] e [] hp hne
    rw [List.append_nil] at hmatch
    rw [Option.all_some, hmatch]
    exact (globMatch_many_ordinary (by simp)).mpr List.nil_suffix

/-! ## The two loops for plain names -/

section
variable {d : DataDir} (hd : d.Plain) {load order : Text}
include hd

/-- What one line of `/order.txt` prints. -/
theorem mem_lsModules_line {line p : Text} (hl : PlainName line) :
    p ∈ lsModules d.root d.files (line ++ ".mo".toList) ↔
      ∃ m ∈ d.files, p = m.path d.root ∧ m.name = line := by
  rw [mem_lsModules]
  constructor
  · rintro ⟨m, hm, rfl, h, -⟩
    obtain ⟨hp, hne⟩ := hd.name m hm
    exact ⟨m, hm, rfl, (pathMatch_line hl hp hne).mp h⟩
  · rintro ⟨m, hm, rfl, h⟩
    obtain ⟨hp, hne⟩ := hd.name m hm
    exact ⟨m, hm, rfl, (pathMatch_line hl hp hne).mpr h, dirMatch hd hm⟩

/-- The second loop meets every module. -/
theorem mem_lsModules_all {p : Text} :
    p ∈ lsModules d.root d.files "*.mo".toList ↔ ∃ m ∈ d.files, p = m.path d.root := by
  rw [mem_lsModules]
  constructor
  · rintro ⟨m, hm, rfl, -⟩
    exact ⟨m, hm, rfl⟩
  · rintro ⟨m, hm, rfl⟩
    obtain ⟨hp, hne⟩ := hd.name m hm
    exact ⟨m, hm, rfl, pathMatch_all hp hne, dirMatch hd hm⟩

omit hd in
/-- No path is given twice. -/
theorem nodup_lsModules (pat : Text) : (lsModules d.root d.files pat).Nodup := by
  rw [lsModules, (lsSort_perm _).nodup_iff]
  refine List.Nodup.map_on ?_ (d.nodup.filter _)
  intro m hm m' hm' h
  exact d.path_injective (List.mem_of_mem_filter hm) (List.mem_of_mem_filter hm') h

omit hd in
/-- The second loop looks the name up among the lines that `grep` sees. -/
theorem inOrder_iff {m : Module} (hm : m ∈ d.files) (hp : PlainName m.name) (hne : m.name ≠ []) :
    inOrder order (m.path d.root) = true ↔ m.name ∈ fileLines order := by
  rw [inOrder, modName_path hm hne, Bool.not_eq_true', noOutput_eq_false_iff, grep]
  simp only [List.mem_filter, grepLine_whole (hp.ordinary .basic)]
  constructor
  · rintro ⟨l, ⟨hl, rfl⟩, -⟩
    exact hl
  · intro h
    exact ⟨m.name, ⟨h, rfl⟩, hne⟩

end

/-! ## Modules that are asked for -/

/-- The value of `load=`: a star, or names and commas. -/
def PlainLoad (load : Text) : Prop := load = ['*'] ∨ PlainName load

/-- `load` asks for the module as far as `echo $LOAD | egrep` can tell. -/
def Asks (load name : Text) : Prop := Delimited ',' name load ∧ isEchoOption load = false

theorem delimited_nil {name : Text} (h : Delimited ',' name []) : name = [] := by
  obtain ⟨pre, post, h, -, -⟩ := h
  simp_all

/-- What `egrep` finds in the output of `echo $LOAD`. -/
theorem noOutput_load {load name : Text} (hload : PlainName load) (hname : PlainName name)
    (hne : name ≠ []) :
    noOutput (grep .extended ("(^|,)".toList ++ name ++ "($|,)".toList) (echo (words load))) =
      false ↔ Asks load name := by
  have hnot : ¬ grepLine .extended ("(^|,)".toList ++ name ++ "($|,)".toList) [] = true := by
    rw [grepLine_delimited (hname.ordinary .extended)]
    exact fun h => hne (delimited_nil h)
  by_cases hl : load = []
  · subst hl
    have hecho : fileLines (echo (words [])) = [[]] := rfl
    simp only [grep, hecho, noOutput_eq_false_iff, List.mem_filter, List.mem_singleton]
    constructor
    · rintro ⟨l, ⟨rfl, h⟩, -⟩
      exact absurd h hnot
    · rintro ⟨h, -⟩
      exact absurd (delimited_nil h) hne
  · rw [words_of_noBlank hload.isWord.noBlank hl]
    cases hopt : isEchoOption load with
    | true =>
      have hecho : ∀ l ∈ fileLines (echo [load]), l = [] := by
        simp only [echo, List.dropWhile, hopt, joinWords]
        split_ifs
        · exact fun l hm => absurd hm List.not_mem_nil
        · decide
      simp only [Asks, hopt, grep, noOutput_eq_false_iff, List.mem_filter]
      constructor
      · rintro ⟨l, ⟨hm, -⟩, hnil⟩
        exact absurd (hecho l hm) hnil
      · rintro ⟨-, h⟩
        simp at h
    | false =>
      rw [echo_singleton hopt, grep, fileLines_line hload.isWord.no_newline]
      simp only [Asks, hopt, noOutput_eq_false_iff, List.mem_filter, List.mem_singleton]
      constructor
      · rintro ⟨l, ⟨rfl, h⟩, -⟩
        exact ⟨(grepLine_delimited (hname.ordinary .extended) _).mp h, trivial⟩
      · rintro ⟨h, -⟩
        exact ⟨load, ⟨rfl, (grepLine_delimited (hname.ordinary .extended) _).mpr h⟩, hl⟩

/-- What `grep optional` finds in a path. -/
theorem noOutput_optional {path : Text} (hp : IsWord path) (hs : '/' ∈ path) :
    noOutput (grep .basic "optional".toList (echo (words path))) = false ↔
      "optional".toList <:+: path := by
  have hne : path ≠ [] := List.ne_nil_of_mem hs
  have hord : ∀ c ∈ "optional".toList, Flavour.basic.ordinary c = true := by simp [Flavour.ordinary]
  rw [words_of_noBlank hp.noBlank hne, echo_singleton (isEchoOption_of_slash hs), grep,
    fileLines_line hp.no_newline]
  simp only [noOutput_eq_false_iff, List.mem_filter, List.mem_singleton]
  constructor
  · rintro ⟨l, ⟨rfl, h⟩, -⟩
    exact (grepLine_ordinary hord _).mp h
  · intro h
    exact ⟨path, ⟨rfl, (grepLine_ordinary hord _).mpr h⟩, hne⟩

/-- A module is dropped when it is under an optional path and not asked for. -/
theorem drops_iff {d : DataDir} (hd : d.Plain) {load : Text} (hload : PlainLoad load) {m : Module}
    (hm : m ∈ d.files) :
    drops load (m.path d.root) = true ↔ ¬ LeadingOperator load ∧
      load ≠ ['*'] ∧ "optional".toList <:+: m.path d.root ∧ ¬ Asks load m.name := by
  obtain ⟨hp, hne⟩ := hd.name m hm
  rw [drops, modName_path hm hne, skipped_iff,
    noOutput_optional (d.isWord_path hm) (Module.slash_mem_path d.root m)]
  refine and_congr_right fun _ => and_congr_right fun hstar => and_congr_right fun _ => ?_
  rw [← noOutput_load (hload.resolve_left hstar) hp hne, Bool.not_eq_false]

end Backpack.Boot
